import Mathlib.Data.List.Forall2
import Stencil.Proofs.LineTokens

-- Where the variables of a template are stored, as its code is read. A variable lies in the scope of the closure if the
-- template assigns its name somewhere, and in the data of the caller if not; the target of a parameter is always in the
-- data.

namespace Stencil

namespace Token

-- The storage that a token names.
def root? : Token → Option Root
  | .named name => if name = "__scope" then some .scope else if name = "__data" then some .data else none
  | _ => none

-- The name in brackets that some tokens begin with.
def key? : List Token → Option String
  | .mark left :: .literal name :: .mark right :: _ => if left = '[' ∧ right = ']' then some name else none
  | _ => none

def access? (token : Token) (rest : List Token) : Option (Root × String) := do
  let root ← token.root?
  let name ← key? rest
  some (root, name)

-- The places of stored variables among some tokens.
def accesses : List Token → List (Root × String)
  | [] => []
  | token :: rest => (token.access? rest).toList ++ accesses rest

-- No place of a stored variable goes on behind the last token.
def isWhole : List Token → Bool
  | [] => true
  | token :: rest => (token.root?.isNone || 3 ≤ rest.length) && isWhole rest

theorem key?_append {front : List Token} (long : 3 ≤ front.length) (back : List Token) :
    key? (front ++ back) = key? front := by
  match front, long with
  | first :: second :: third :: rest, _ => cases first <;> cases second <;> cases third <;> rfl

theorem accesses_append {front : List Token} (whole : isWhole front = true) (back : List Token) :
    accesses (front ++ back) = accesses front ++ accesses back := by
  induction front with
  | nil => rfl
  | cons token rest ih =>
    rw [isWhole, Bool.and_eq_true, Bool.or_eq_true, decide_eq_true_iff] at whole
    have here : token.access? (rest ++ back) = token.access? rest := by
      rcases whole.1 with other | long
      · rw [access?, access?, Option.isNone_iff_eq_none.mp other]
        rfl
      · rw [access?, access?, key?_append long]
    rw [List.cons_append, accesses, accesses, here, ih whole.2, List.append_assoc]

theorem isWhole_append {front back : List Token} (first : isWhole front = true) (second : isWhole back = true) :
    isWhole (front ++ back) = true := by
  induction front with
  | nil => exact second
  | cons token rest ih =>
    rw [isWhole, Bool.and_eq_true, Bool.or_eq_true, decide_eq_true_iff] at first
    rw [List.cons_append, isWhole, ih first.2, Bool.and_true, Bool.or_eq_true, decide_eq_true_iff, List.length_append]
    exact first.1.imp_right fun long => Nat.le_add_right_of_le long

-- Tokens that name no storage.
theorem accesses_of_root? {tokens : List Token} (other : ∀ token ∈ tokens, token.root? = none) :
    isWhole tokens = true ∧ accesses tokens = [] := by
  induction tokens with
  | nil => exact ⟨rfl, rfl⟩
  | cons token rest ih =>
    obtain ⟨here, others⟩ := List.forall_mem_cons.mp other
    obtain ⟨whole, nothing⟩ := ih others
    simp [isWhole, accesses, access?, here, whole, nothing]

theorem root?_marks (text : String) : ∀ token ∈ Text.marks text, token.root? = none := by
  intro token member
  cases token with
  | named name => exact absurd member (not_mem_marks text)
  | _ => rfl

end Token

-- The places of stored variables in a text.
def Text.accesses (text : String) : List (Root × String) := Token.accesses (tokens text)

example : Text.accesses "<?php $__scope[\"n\"] = $__data[\"m\"][$__children[\"$__data\"]]; ?>" =
    [(.scope, "n"), (.data, "m")] := by decide +kernel

-- The places among the tokens of a piece or of a phrase are those that it has.

theorem Piece.accesses_tokens {given : List String} {piece : Piece} (proper : piece.Proper given) :
    Token.isWhole piece.tokens = true ∧ Token.accesses piece.tokens = Phrase.accesses [piece] := by
  cases piece with
  | code text => exact Token.accesses_of_root? (Token.root?_marks text)
  | raw text => exact Token.accesses_of_root? (Token.root?_marks text)
  | literal text => exact Token.accesses_of_root? (List.forall_mem_singleton.mpr rfl)
  | named name =>
    obtain ⟨_, _, scope, data⟩ := proper
    exact Token.accesses_of_root? (List.forall_mem_singleton.mpr (by simp [Token.root?, scope, data]))
  | access root name => cases root <;> exact ⟨rfl, rfl⟩

theorem Phrase.accesses_tokens {given : List String} {phrase : Phrase} (proper : phrase.Proper given) :
    Token.isWhole phrase.tokens = true ∧ Token.accesses phrase.tokens = phrase.accesses := by
  induction phrase with
  | nil => exact ⟨rfl, rfl⟩
  | cons piece rest ih =>
    obtain ⟨here, others⟩ := List.forall_mem_cons.mp proper
    obtain ⟨first, own⟩ := Piece.accesses_tokens here
    obtain ⟨second, behind⟩ := ih others
    rw [tokens_cons, Token.accesses_append first, own, behind]
    exact ⟨Token.isWhole_append first second, (List.filterMap_append (l := [piece])).symm⟩

namespace Line

-- A statement that is read where a line stands. Its pieces print as the line, they are what they seem to be, and no name
-- runs into what follows it; it is a parameter just if the line is one.
structure States (scope : Scope) (given : List String) (line : Line) (statement : Statement) : Prop where
  text : line.print scope = statement.render
  proper : statement.Proper given
  spaced : statement.phrase.isSpaced = true
  parameter : (∃ target value, line = .parameter target value) ↔
    ∃ place keys value, statement = .parameter place keys value

-- The statements of all lines of a file. The places of stored variables in them are those in the text of the file,
-- unless the template brings in variables or literals with the texts that are taken over.
structure Stated (scope : Scope) (given : List String) (lines : List Line) (statements : List Statement) : Prop where
  each : List.Forall₂ (States scope given) lines statements
  accesses : (∀ raw ∈ given, Text.isBare raw = true) →
    Text.accesses (file scope lines) = statements.flatMap fun statement => statement.phrase.accesses

variable {scope : Scope} {given : List String} (reading : Reading scope given)

theorem parameter_statement (line : Line) : (∃ target value, line = .parameter target value) ↔
    ∃ place keys value, line.statement reading = .parameter place keys value := by
  cases line with
  | parameter target value => exact ⟨fun _ => ⟨_, _, _, rfl⟩, fun _ => ⟨_, _, rfl⟩⟩
  | _ => simp [statement]

theorem states_statement {line : Line} (calm : line.Calm scope given) :
    line.States scope given (line.statement reading) where
  text := print_statement reading calm
  proper := Statement.proper_of_honest (line.honest_statement reading calm)
  spaced := (orderly_statement reading calm).spaced
  parameter := parameter_statement reading line

theorem accesses_flatMap {lines : List Line} (calm : ∀ line ∈ lines, line.Calm scope given) :
    Token.isWhole (lines.flatMap (tokens reading)) = true ∧
      Token.accesses (lines.flatMap (tokens reading)) =
        (lines.map (statement reading)).flatMap fun statement => statement.phrase.accesses := by
  induction lines with
  | nil => exact ⟨rfl, rfl⟩
  | cons line rest ih =>
    obtain ⟨here, others⟩ := List.forall_mem_cons.mp calm
    obtain ⟨first, own⟩ := Phrase.accesses_tokens (states_statement reading here).proper
    obtain ⟨second, behind⟩ := ih others
    rw [List.flatMap_cons, tokens, Token.accesses_append first, own, behind]
    exact ⟨Token.isWhole_append first second, rfl⟩

theorem stated_statements {lines : List Line} (calm : ∀ line ∈ lines, line.Calm scope given) :
    Stated scope given lines (lines.map (statement reading)) where
  each := by
    rw [List.forall₂_map_right_iff]
    exact List.forall₂_same.mpr fun line member => states_statement reading (calm line member)
  accesses bare := by
    obtain ⟨whole, found⟩ := accesses_flatMap reading calm
    have opening : Token.isWhole Output.prologue.tokens = true ∧ Token.accesses Output.prologue.tokens = [] := by
      decide +kernel
    have closing : Token.accesses Output.epilogue.tokens = [] := by decide +kernel
    rw [Text.accesses, tokens_text reading calm bare, Token.accesses_append opening.1, opening.2,
      Token.accesses_append whole, found, closing, List.nil_append, List.append_nil]

end Line

namespace Template

variable {template : Template} {options : Options} {loader : Loader} {shared : Names} {text : String}

theorem isLocal_walk (success : (template.compile options loader shared).1 = .ok text) (name : String) :
    (template.walk options loader shared).2.scope.isLocal name = true ↔
      name ∈ Node.allAssigned (template.inlined options loader).nodes := by
  obtain ⟨lines, _, written, _⟩ := written success
  refine (written.isLocal name).trans ?_
  simp [Ledger.start, Scope.empty, Scope.isLocal, Passage.assigned, inlined]

-- The lines of a compilation as statements, with what their accesses and assignments follow.
structure Rooted (template : Template) (options : Options) (loader : Loader) (shared : Names) (text : String)
    (lines : List Line) (statements : List Statement) : Prop where
  drafted : (template.draft options loader shared).1 = .ok lines
  text : text = Line.file (template.walk options loader shared).2.scope lines
  stated : Line.Stated (template.walk options loader shared).2.scope
    (Node.allRaws (template.inlined options loader).nodes) lines statements
  rooted : ∀ access ∈ statements.flatMap Statement.accesses,
    access.1 = (template.walk options loader shared).2.scope.root access.2
  kept : ∀ name ∈ Sketch.allKept options (Outline.flatten (template.outlines options loader)),
    ∃ line ∈ lines, line.Assigns name
  assigned : ∀ line ∈ lines, ∀ name, line.Assigns name →
    ((template.walk options loader shared).2.scope.root name, name) ∈ statements.flatMap Statement.accesses

theorem exists_rooted (success : (template.compile options loader shared).1 = .ok text) :
    ∃ lines statements, Rooted template options loader shared text lines statements := by
  obtain ⟨lines, drafted, written, same⟩ := written success
  obtain ⟨reading⟩ := exists_reading (template.walk options loader shared).2.scope
    (Node.allRaws (template.inlined options loader).nodes)
  have calm : ∀ line ∈ lines, line.Calm (template.walk options loader shared).2.scope
      (Node.allRaws (template.inlined options loader).nodes) := written.calm (List.Subset.refl _)
  refine ⟨lines, lines.map (Line.statement reading), drafted, same, Line.stated_statements reading calm, ?_, ?_, ?_⟩
  · intro access member
    obtain ⟨statement, stated, member⟩ := List.mem_flatMap.mp member
    obtain ⟨line, listed, rfl⟩ := List.mem_map.mp stated
    exact (line.honest_statement reading (calm line listed)).accesses access member
  · intro name kept
    exact written.assigns kept
  · intro line listed name assigns
    exact List.mem_flatMap.mpr ⟨_, List.mem_map_of_mem listed, line.accesses_of_assigns reading assigns⟩

theorem Rooted.root_eq {lines : List Line} {statements : List Statement}
    (rooted : Rooted template options loader shared text lines statements)
    (success : (template.compile options loader shared).1 = .ok text) {root : Root} {name : String}
    (accessed : (root, name) ∈ statements.flatMap Statement.accesses) :
    root = .scope ↔ name ∈ Node.allAssigned (template.inlined options loader).nodes := by
  have same : root = (template.walk options loader shared).2.scope.root name := rooted.rooted _ accessed
  rw [same, ← isLocal_walk success name, Scope.root]
  cases (template.walk options loader shared).2.scope.isLocal name <;> simp

-- A parameter, a loop over the same name, and an assignment below a single tag.
def paramAndLoop : Template :=
  ⟨[.tag 1 ⟨"param", [⟨.literal "name", some (.literal "n"), .zero⟩, ⟨.literal "value", some (.literal "v"), .zero⟩],
      true⟩ [] .zero,
    .tag 2 ⟨"p", [⟨.literal "id", some (.expression (.var "n" [])), .zero⟩,
      ⟨.literal "class", some (.expression (.var "lost" [])), .zero⟩], true⟩ [] .zero,
    .tag 3 ⟨"input", [], false⟩
      [.tag 4 ⟨"variable", [⟨.literal "name", some (.literal "lost"), .zero⟩,
        ⟨.literal "value", some (.literal "v"), .zero⟩], true⟩ [] .zero] .zero,
    .tag 5 ⟨"for-each", [⟨.literal "from", some (.expression (.var "rows" [])), .zero⟩,
        ⟨.literal "item", some (.literal "n"), .zero⟩], false⟩
      [.leaf 6 (.block (.var "n" [])) .zero] .zero]⟩

-- The variable is local, since the assignment is visited, but the assignment is not in the text.
def assignedBelowSingle : Template :=
  ⟨[.tag 1 ⟨"input", [], false⟩
      [.tag 2 ⟨"variable", [⟨.literal "name", some (.literal "n"), .zero⟩,
        ⟨.literal "value", some (.literal "v"), .zero⟩], true⟩ [] .zero] .zero,
    .tag 3 ⟨"p", [⟨.literal "id", some (.expression (.var "n" [])), .zero⟩], true⟩ [] .zero]⟩

def assignedBelowSingleLines : List String :=
  ["<?php $attrs1 = []; ?>\n", "<?php $children0[] = [\"tag\" => \"input\", \"attrs\" => $attrs1]; ?>\n",
    "<?php $attrs2 = []; ?>\n", "<?php $attrs2[\"id\"] = $__scope[\"n\"]; ?>\n",
    "<?php $children0[] = [\"tag\" => \"p\", \"attrs\" => $attrs2]; ?>\n"]

end Template

end Stencil
