import Stencil.Proofs.Accumulator
import Stencil.Proofs.Token

-- The tokens of a line. In each statement only the lists occur that the line uses, nothing is assigned to them but where
-- they are made empty, and the braces open and close the blocks of the line.

namespace Stencil

-- The lists among the numbered variables.
def Slot.isList : Slot → Bool
  | .attrs _ => true
  | .children _ => true
  | _ => false

-- Of all variables of the closure, only the names of lists begin so.
def Text.namesList (name : String) : Bool := name.toList.head?.any fun c => c = 'a' || c = 'c'

@[simp] theorem Slot.namesList_name (slot : Slot) : Text.namesList slot.name = slot.isList := by
  cases slot <;> simp [Text.namesList, name, isList]

theorem Text.toString_inj {n m : Nat} (same : toString n = toString m) : n = m := by
  have digits : Nat.toDigits 10 n = Nat.toDigits 10 m := by
    have same : n.repr = m.repr := same
    rwa [Nat.repr_eq_ofList_toDigits, Nat.repr_eq_ofList_toDigits, String.ofList_inj] at same
  rw [← Nat.ofDigitChars_toDigits (b := 10) (n := n) (by decide) (by decide), digits,
    Nat.ofDigitChars_toDigits (by decide) (by decide)]

theorem Slot.name_inj {slot other : Slot} (same : slot.name = other.name) : slot = other := by
  have chars := congrArg String.toList same
  cases slot <;> cases other <;> first
    | exact congrArg _ (Text.toString_inj ((String.append_right_inj _).mp same))
    | simp [name] at chars

namespace Phrase

@[simp] theorem isSpaced_code (text : String) (rest : Phrase) : isSpaced (.code text :: rest) = isSpaced rest := rfl

@[simp] theorem isSpaced_literal (text : String) (rest : Phrase) :
    isSpaced (.literal text :: rest) = isSpaced rest := rfl

@[simp] theorem isSpaced_access (root : Root) (name : String) (rest : Phrase) :
    isSpaced (.access root name :: rest) = isSpaced rest := rfl

@[simp] theorem isSpaced_named (name text : String) (rest : Phrase) :
    isSpaced (.named name :: .code text :: rest) = (Text.breaks text && isSpaced rest) := rfl

@[simp] theorem isSpaced_append_code {text : String} (breaks : Text.breaks text = true) (front rest : Phrase) :
    isSpaced (front ++ .code text :: rest) = (isSpaced front && isSpaced rest) := by
  induction front with
  | nil => rfl
  | cons piece others ih =>
    cases piece with
    | named name =>
      rw [List.cons_append, isSpaced, isSpaced, ih, ← Bool.and_assoc]
      cases others with
      | nil => simp [opens, Piece.breaks, breaks]
      | cons next more => rfl
    | _ => exact ih

-- The lists that a phrase names.
@[simp] def lists : Phrase → List String
  | [] => []
  | .named name :: rest => if Text.namesList name then name :: lists rest else lists rest
  | _ :: rest => lists rest

@[simp] theorem lists_append (front back : Phrase) : lists (front ++ back) = lists front ++ lists back := by
  induction front with
  | nil => rfl
  | cons piece rest ih =>
    cases piece with
    | named name =>
      rw [List.cons_append, lists, lists, ih]
      split <;> rfl
    | _ => exact ih

-- Code that follows a name without assigning to it.
@[simp] def spares : Phrase → Bool
  | .code text :: _ => (Text.marks text).head?.any (· ≠ .mark '=')
  | _ => false

-- No list is assigned to.
@[simp] def isSettled : Phrase → Bool
  | [] => true
  | .named name :: rest => (!Text.namesList name || spares rest) && isSettled rest
  | _ :: rest => isSettled rest

@[simp] theorem isSettled_append {front : Phrase} (quiet : lists front = []) (rest : Phrase) :
    isSettled (front ++ rest) = isSettled rest := by
  induction front with
  | nil => rfl
  | cons piece others ih =>
    cases piece with
    | named name =>
      cases listed : Text.namesList name with
      | true => simp [listed] at quiet
      | false =>
        rw [List.cons_append, isSettled, listed, ih (by simpa [listed] using quiet)]
        rfl
    | _ => exact ih quiet

theorem Calm.lists_eq {scope : Scope} {given : List String} {phrase : Phrase} (calm : phrase.Calm scope given) :
    lists phrase = [] := by
  induction phrase with
  | nil => rfl
  | cons piece rest ih =>
    obtain ⟨here, others⟩ := List.forall_mem_cons.mp calm
    cases piece with
    | named name => rcases here with rfl | rfl <;> exact ih others
    | _ => exact ih others

end Phrase

def Text.brace? (c : Char) : Option Bool := if c = '\x7b' then some true else if c = '\x7d' then some false else none

-- The braces of a text, opening or closing.
def Text.braces (text : String) : List Bool := text.toList.filterMap brace?

theorem Text.braces_eq {text : String} (calm : allCalm text = true) : braces text = [] := by
  refine List.filterMap_eq_nil_iff.mpr fun c member => ?_
  have known := List.all_eq_true.mp calm c member
  simp only [isCalm, Bool.and_eq_true, decide_eq_true_eq] at known
  rw [brace?, if_neg known.1.2, if_neg known.2]

namespace Token

-- The statement that makes a list empty, without what stands around it.
def initial (name : String) : List Token := [.named name, .mark '=', .mark '[', .mark ']', .mark ';']

def brace? : Token → Option Bool
  | .mark c => Text.brace? c
  | _ => none

-- How many blocks are open behind some braces, from a number of them that are open in front. There is no such number
-- if the braces close more.
@[simp] def nest : List Bool → Nat → Option Nat
  | [], depth => some depth
  | true :: rest, depth => nest rest (depth + 1)
  | false :: _, 0 => none
  | false :: rest, depth + 1 => nest rest depth

theorem nest_append (front back : List Bool) (depth : Nat) :
    nest (front ++ back) depth = (nest front depth).bind (nest back) := by
  induction front generalizing depth with
  | nil => rfl
  | cons brace rest ih =>
    cases brace with
    | true => exact ih (depth + 1)
    | false =>
      cases depth with
      | zero => rfl
      | succ depth => exact ih depth

theorem nest_lift {braces : List Bool} {start stop : Nat} (nested : nest braces start = some stop) (extra : Nat) :
    nest braces (start + extra) = some (stop + extra) := by
  induction braces generalizing start with
  | nil =>
    cases nested
    rfl
  | cons brace rest ih =>
    cases brace with
    | true =>
      rw [nest, Nat.add_right_comm]
      exact ih nested
    | false =>
      cases start with
      | zero => cases nested
      | succ start =>
        rw [Nat.add_right_comm]
        exact ih nested

-- Braces that lead from one number of open blocks to another at least, however many more are open around them.
def Reaches (braces : List Bool) (start stop : Nat) : Prop :=
  ∀ extra, ∃ final, nest braces (start + extra) = some final ∧ stop + extra ≤ final

namespace Reaches

theorem of_nest {braces : List Bool} {start stop : Nat} (nested : nest braces start = some stop) :
    Reaches braces start stop :=
  fun extra => ⟨stop + extra, nest_lift nested extra, Nat.le_refl _⟩

theorem of_isSome {braces : List Bool} (closed : (nest braces 0).isSome = true) (depth : Nat) :
    Reaches braces depth depth := by
  intro extra
  obtain ⟨more, nested⟩ := Option.isSome_iff_exists.mp closed
  have lifted := nest_lift nested (depth + extra)
  rw [Nat.zero_add] at lifted
  exact ⟨_, lifted, Nat.le_add_left _ _⟩

theorem append {front back : List Bool} {start middle stop : Nat} (first : Reaches front start middle)
    (second : Reaches back middle stop) : Reaches (front ++ back) start stop := by
  intro extra
  obtain ⟨reached, nested, above⟩ := first extra
  obtain ⟨more, rfl⟩ : ∃ more, reached = middle + (extra + more) := ⟨reached - (middle + extra), by omega⟩
  obtain ⟨final, behind, higher⟩ := second (extra + more)
  refine ⟨final, ?_, by omega⟩
  rw [nest_append, nested, Option.bind_some, behind]

end Reaches

def braces (tokens : List Token) : List Bool := tokens.filterMap brace?

theorem braces_append (front back : List Token) : braces (front ++ back) = braces front ++ braces back :=
  List.filterMap_append

def descend (tokens : List Token) (depth : Nat) : Option Nat := nest (braces tokens) depth

-- Behind a statement, the block around it is still open wherever a variable occurs.
def Encloses (name : String) (after : List Token) : Prop :=
  ∀ inside outside, after = inside ++ .named name :: outside → (descend inside 0).isSome = true

theorem brace?_ofChar (c : Char) : (ofChar c).filterMap brace? = (Text.brace? c).toList := by
  unfold ofChar
  split
  · rename_i blank
    have plain : Text.brace? c = none := by
      have differ (other : Char) (shown : other.isWhitespace = false) : c ≠ other := by
        intro same
        rw [same, shown] at blank
        cases blank
      rw [Text.brace?, if_neg (differ _ rfl), if_neg (differ _ rfl)]
    rw [plain]
    rfl
  · simp only [List.filterMap_cons, List.filterMap_nil, brace?]
    cases Text.brace? c <;> rfl

theorem braces_marks (text : String) : braces (Text.marks text) = Text.braces text := by
  unfold braces Text.marks Text.braces
  induction text.toList with
  | nil => rfl
  | cons c rest ih =>
    rw [List.flatMap_cons, List.filterMap_append, ih, brace?_ofChar, List.filterMap_cons]
    cases Text.brace? c <;> rfl

theorem not_mem_marks {name : String} (text : String) : Token.named name ∉ Text.marks text := by
  intro member
  obtain ⟨c, _, found⟩ := List.mem_flatMap.mp member
  unfold ofChar at found
  split at found
  · cases found
  · cases List.mem_singleton.mp found

end Token

-- A text that closes no block which it did not open.
def Text.isClosed (text : String) : Bool := (Token.nest (braces text) 0).isSome

section Split

variable {α : Type} {x : α} {front back inside outside : List α}

-- Where an element of a list lies that was put together.

theorem split_append (split : front ++ back = inside ++ x :: outside) :
    (∃ more, front = inside ++ x :: more ∧ outside = more ++ back) ∨
      ∃ more, inside = front ++ more ∧ back = more ++ x :: outside := by
  rcases List.append_eq_append_iff.mp split with found | ⟨more, rfl, rest⟩
  · exact .inr found
  · cases more with
    | nil => exact .inr ⟨[], by simp, rest.symm⟩
    | cons first others =>
      obtain ⟨rfl, rfl⟩ := List.cons.inj rest
      exact .inl ⟨others, rfl, rfl⟩

theorem split_behind (apart : x ∉ front) (split : front ++ back = inside ++ x :: outside) :
    ∃ more, inside = front ++ more ∧ back = more ++ x :: outside := by
  rcases split_append split with ⟨more, rfl, _⟩ | found
  · simp at apart
  · exact found

theorem split_before (apart : x ∉ back) (split : front ++ back = inside ++ x :: outside) :
    ∃ more, front = inside ++ x :: more ∧ outside = more ++ back := by
  rcases split_append split with found | ⟨more, _, rfl⟩
  · exact found
  · simp at apart

theorem split_flatMap {β : Type} {f : β → List α} {list : List β} (split : list.flatMap f = inside ++ x :: outside) :
    ∃ first here last left right, list = first ++ here :: last ∧ f here = left ++ x :: right ∧
      inside = first.flatMap f ++ left ∧ outside = right ++ last.flatMap f := by
  induction list generalizing inside with
  | nil => simp at split
  | cons head tail ih =>
    rw [List.flatMap_cons] at split
    rcases split_append split with ⟨more, here, rfl⟩ | ⟨more, rfl, behind⟩
    · exact ⟨[], head, tail, inside, more, rfl, here, rfl, rfl⟩
    · obtain ⟨first, here, last, left, right, rfl, found, rfl, rfl⟩ := ih behind
      exact ⟨head :: first, here, last, left, right, rfl, found, by simp, rfl⟩

end Split

namespace Phrase

@[simp] def braces : Phrase → List Bool
  | [] => []
  | .code text :: rest => Text.braces text ++ braces rest
  | .raw text :: rest => Text.braces text ++ braces rest
  | _ :: rest => braces rest

@[simp] theorem braces_append (front back : Phrase) : braces (front ++ back) = braces front ++ braces back := by
  induction front with
  | nil => rfl
  | cons piece rest ih => cases piece <;> simp [ih]

theorem braces_tokens (phrase : Phrase) : Token.braces phrase.tokens = braces phrase := by
  induction phrase with
  | nil => rfl
  | cons piece rest ih =>
    rw [tokens_cons, Token.braces_append, ih]
    cases piece with
    | code text => exact congrArg (· ++ _) (Token.braces_marks text)
    | raw text => exact congrArg (· ++ _) (Token.braces_marks text)
    | _ => rfl

theorem Calm.reaches {scope : Scope} {given : List String} {phrase : Phrase} (calm : phrase.Calm scope given)
    (closed : ∀ raw ∈ given, Text.isClosed raw = true) (depth : Nat) : Token.Reaches (braces phrase) depth depth := by
  induction phrase with
  | nil => exact .of_nest rfl
  | cons piece rest ih =>
    obtain ⟨here, others⟩ := List.forall_mem_cons.mp calm
    cases piece with
    | code text =>
      rw [braces, Text.braces_eq here]
      exact ih others
    | raw text => exact (Token.Reaches.of_isSome (closed text here) depth).append (ih others)
    | _ => exact ih others

theorem not_mem_access {name : String} (listed : Text.namesList name = true) (root : Root) (stored : String) :
    Token.named name ∉ Piece.tokens (.access root stored) := by
  intro member
  simp only [Piece.tokens, List.mem_cons, Token.named.injEq, reduceCtorEq, List.not_mem_nil, or_false] at member
  subst member
  cases root <;> cases listed

theorem mem_lists {phrase : Phrase} {name : String} (listed : Text.namesList name = true)
    (occurs : .named name ∈ phrase.tokens) : name ∈ lists phrase := by
  induction phrase with
  | nil => cases occurs
  | cons piece rest ih =>
    rw [tokens_cons] at occurs
    rcases List.mem_append.mp occurs with here | behind
    · cases piece with
      | named other =>
        cases List.mem_singleton.mp here
        simp [listed]
      | code text => exact absurd here (Token.not_mem_marks text)
      | raw text => exact absurd here (Token.not_mem_marks text)
      | literal text => cases List.mem_singleton.mp here
      | access root stored => exact absurd here (not_mem_access listed root stored)
    · cases piece with
      | named other =>
        unfold lists
        split
        · exact List.mem_cons_of_mem _ (ih behind)
        · exact ih behind
      | _ => exact ih behind

-- Where a list occurs in a phrase that assigns to none.
theorem settled_tokens {phrase : Phrase} (settled : isSettled phrase = true) {name : String}
    (listed : Text.namesList name = true) {inside outside : List Token}
    (split : phrase.tokens = inside ++ .named name :: outside) :
    ∃ token rest, outside = token :: rest ∧ token ≠ .mark '=' := by
  induction phrase generalizing inside with
  | nil => simp at split
  | cons piece others ih =>
    rw [tokens_cons] at split
    cases piece with
    | code text =>
      obtain ⟨_, _, split⟩ := split_behind (Token.not_mem_marks text) split
      exact ih settled split
    | raw text =>
      obtain ⟨_, _, split⟩ := split_behind (Token.not_mem_marks text) split
      exact ih settled split
    | literal text =>
      obtain ⟨_, _, split⟩ := split_behind (by simp [Piece.tokens]) split
      exact ih settled split
    | access root stored =>
      obtain ⟨_, _, split⟩ := split_behind (not_mem_access listed root stored) split
      exact ih settled split
    | named other =>
      simp only [isSettled, Bool.and_eq_true, Bool.or_eq_true, Bool.not_eq_true'] at settled
      obtain ⟨here, settled⟩ := settled
      cases inside with
      | cons first more => exact ih settled (List.cons.inj split).2
      | nil =>
        obtain ⟨same, rfl⟩ := List.cons.inj split
        cases same
        rw [listed] at here
        -- What stands behind the name begins with a token of its own.
        cases others with
        | nil => simp at here
        | cons next more =>
          cases next with
          | code text =>
            cases marks : Text.marks text with
            | nil => simp [marks] at here
            | cons token rest =>
              exact ⟨token, rest ++ tokens more, by simp [Piece.tokens, marks], by simpa [marks] using here⟩
          | _ => simp at here

end Phrase

namespace Line

variable {scope : Scope} {given : List String} (reading : Reading scope given)

theorem opens_statement (line : Line) : (line.statement reading).phrase.opens = true := by
  cases line <;> rfl

-- What the phrase of a line says about names: none runs into what follows it, and only lists that the line uses occur,
-- where nothing is assigned to them.
structure Orderly (line : Line) (phrase : Phrase) : Prop where
  spaced : phrase.isSpaced = true
  settled : line.reset? = none → phrase.isSettled = true
  lists : line.reset? = none → ∀ name ∈ phrase.lists, name ∈ line.mentions.map Slot.name

theorem orderly_statement {line : Line} (calm : line.Calm scope given) :
    line.Orderly (line.statement reading).phrase := by
  have phrase {code : Code} (calm : code.Calm scope given) := (reading.reads calm).spaced
  have quiet {code : Code} (calm : code.Calm scope given) := (reading.reads calm).calm.lists_eq
  have silent {operand : Operand} (calm : operand.Calm scope given) := (reading.calm_operand calm).lists_eq
  have operand {operand : Operand} (calm : operand.Calm scope given) : (reading.operand operand).isSpaced = true := by
    cases operand with
    | text value => rfl
    | flag => rfl
    | computed code => exact phrase calm
  cases line with
  | assignAttr attrsOf name value =>
    constructor <;> simp +decide [statement, Statement.phrase, start, stop, Slot.piece, Slot.isList, mentions,
      operand calm.1, operand calm.2, silent calm.1, silent calm.2]
  | tagRecord sink attrsOf name childrenOf =>
    cases childrenOf <;> constructor <;>
      simp +decide [statement, Statement.phrase, start, Slot.piece, Slot.isList, mentions]
  | expressionBlock identity sink value =>
    constructor <;> simp +decide [statement, Statement.phrase, start, Slot.piece, Slot.isList, mentions, phrase calm,
      quiet calm]
  | parameter target value =>
    have keys := reading.targets calm.1
    cases placed : reading.place target <;> constructor <;>
      simp +decide [statement, Statement.phrase, placed, keys.spaced, keys.calm.lists_eq, operand calm.2, silent calm.2]
  | assign target value =>
    constructor <;> simp +decide [statement, Statement.phrase, phrase calm.1, quiet calm.1, operand calm.2,
      silent calm.2]
  | keepChildren target identity =>
    constructor <;> simp +decide [statement, Statement.phrase, Slot.piece, Slot.isList, mentions, phrase calm,
      quiet calm]
  | useState target name initial =>
    cases initial with
    | none => constructor <;> simp +decide [statement, Statement.phrase, phrase calm.1, quiet calm.1]
    | some value =>
      have calm := And.intro calm.1 (calm.2 value rfl)
      constructor <;> simp +decide [statement, Statement.phrase, phrase calm.1, quiet calm.1, operand calm.2,
        silent calm.2]
  | importComponent name path extension =>
    constructor <;> simp +decide [statement, Statement.phrase, start, operand calm, silent calm]
  | callComponent identity sink attrsOf name childrenOf =>
    cases childrenOf <;> constructor <;>
      simp +decide [statement, Statement.phrase, start, Slot.piece, Slot.isList, mentions]
  | openIf test => constructor <;> simp +decide [statement, Statement.phrase, operand calm, silent calm]
  | openLoop source binding =>
    obtain ⟨key, item⟩ := binding
    obtain ⟨source, keyed, item⟩ := calm
    cases key with
    | none =>
      constructor <;> simp +decide [statement, Statement.phrase, operand source, silent source, phrase item, quiet item]
    | some key =>
      have key := keyed key rfl
      constructor <;> simp +decide [statement, Statement.phrase, operand source, silent source, phrase item, quiet item,
        phrase key, quiet key]
  | elseIf test => constructor <;> simp +decide [statement, Statement.phrase, operand calm, silent calm]
  | _ =>
    constructor <;> simp +decide [statement, Statement.phrase, reset, start, Slot.piece, Slot.isList, mentions, reset?]

def tokens (line : Line) : List Token := (line.statement reading).phrase.tokens

theorem tokens_reset {line : Line} {slot : Slot} (resets : line.reset? = some slot) :
    line.tokens reading = Text.marks "<?php " ++ (Token.initial slot.name ++ Text.marks " ?>\n") := by
  have assigned : Text.marks " = []; ?>\n" =
      [.mark '=', .mark '[', .mark ']', .mark ';'] ++ Text.marks " ?>\n" := by decide +kernel
  have reset : (Line.reset slot).tokens = Text.marks "<?php " ++ (Token.initial slot.name ++ Text.marks " ?>\n") := by
    simp [Line.reset, start, Slot.piece, Piece.tokens, assigned, Token.initial]
  cases line with
  | resetAttrs attrsOf =>
    cases resets
    exact reset
  | resetChildren identity =>
    cases resets
    exact reset
  | _ => cases resets

-- Where a list occurs in a line that does not make it empty.
theorem used_tokens {line : Line} (calm : line.Calm scope given) {slot : Slot} (list : slot.isList = true)
    (other : line.reset? ≠ some slot) {inside outside : List Token}
    (split : line.tokens reading = inside ++ .named slot.name :: outside) :
    slot ∈ line.mentions ∧ ∃ token rest, outside = token :: rest ∧ token ≠ .mark '=' := by
  cases resets : line.reset? with
  | some found =>
    have apart : slot.name ≠ found.name := by
      intro same
      rw [resets, Slot.name_inj same] at other
      exact other rfl
    have member : Token.named slot.name ∈ line.tokens reading := by simp [split]
    rw [tokens_reset reading resets] at member
    simp [Token.not_mem_marks, Token.initial, apart] at member
  | none =>
    have orderly := orderly_statement reading calm
    have listed : Text.namesList slot.name = true := slot.namesList_name.trans list
    refine ⟨?_, Phrase.settled_tokens (orderly.settled resets) listed split⟩
    have occurs : .named slot.name ∈ (line.statement reading).phrase.tokens := by
      rw [← tokens, split]
      simp
    obtain ⟨known, used, same⟩ := List.mem_map.mp (orderly.lists resets _ (Phrase.mem_lists listed occurs))
    rwa [← Slot.name_inj same]

-- The braces of a line open and close its blocks.
theorem reaches_statement {line : Line} (calm : line.Calm scope given)
    (closed : ∀ raw ∈ given, Text.isClosed raw = true) {depth next : Nat} (level : line.level depth = some next) :
    Token.Reaches (line.statement reading).phrase.braces depth next := by
  have phrase {code : Code} (calm : code.Calm scope given) (depth : Nat) :=
    (reading.reads calm).calm.reaches closed depth
  have operand {operand : Operand} (calm : operand.Calm scope given) (depth : Nat) :=
    (reading.calm_operand calm).reaches closed depth
  have none : Token.Reaches [] depth depth := .of_nest rfl
  have opens (depth : Nat) : Token.Reaches [true] depth (depth + 1) := .of_nest rfl
  have closes (depth : Nat) : Token.Reaches [false] (depth + 1) depth := .of_nest rfl
  cases line with
  | assignAttr attrsOf name value =>
    cases level
    simpa [statement, Statement.phrase, start, stop, Slot.piece, Text.braces, Text.brace?] using
      (operand calm.1 depth).append (operand calm.2 depth)
  | tagRecord sink attrsOf name childrenOf =>
    cases level
    cases childrenOf <;> simpa [statement, Statement.phrase, start, Slot.piece, Text.braces, Text.brace?] using none
  | expressionBlock identity sink value =>
    cases level
    -- Two tests inside one another with a loop, all closed again.
    have blocks : Token.Reaches [true, true, false, true, true, false, false, false, true, false] depth depth :=
      .of_nest rfl
    simpa [statement, Statement.phrase, start, Slot.piece, Text.braces, Text.brace?] using
      (phrase calm depth).append blocks
  | parameter target value =>
    cases level
    have keys := (reading.targets calm.1).calm.reaches closed depth
    cases placed : reading.place target <;>
      simpa [statement, Statement.phrase, placed, Text.braces, Text.brace?] using
        keys.append (keys.append (operand calm.2 depth))
  | assign target value =>
    cases level
    simpa [statement, Statement.phrase, Text.braces, Text.brace?] using
      (phrase calm.1 depth).append (operand calm.2 depth)
  | keepChildren target identity =>
    cases level
    simpa [statement, Statement.phrase, Slot.piece, Text.braces, Text.brace?] using phrase calm depth
  | useState target name initial =>
    cases level
    cases initial with
    | none => simpa [statement, Statement.phrase, Text.braces, Text.brace?] using phrase calm.1 depth
    | some value =>
      simpa [statement, Statement.phrase, Text.braces, Text.brace?] using
        (phrase calm.1 depth).append (operand (calm.2 value rfl) depth)
  | importComponent name path extension =>
    cases level
    simpa [statement, Statement.phrase, start, Text.braces, Text.brace?] using operand calm depth
  | callComponent identity sink attrsOf name childrenOf =>
    cases level
    have loop := (opens depth).append (closes depth)
    cases childrenOf <;> simpa [statement, Statement.phrase, start, Slot.piece, Text.braces, Text.brace?] using loop
  | openIf test =>
    cases level
    simpa [statement, Statement.phrase, Text.braces, Text.brace?] using (operand calm depth).append (opens depth)
  | openLoop source binding =>
    cases level
    obtain ⟨key, item⟩ := binding
    have bound := (phrase calm.2.2 depth).append (opens depth)
    cases key with
    | none =>
      simpa [statement, Statement.phrase, Text.braces, Text.brace?] using (operand calm.1 depth).append bound
    | some key =>
      simpa [statement, Statement.phrase, Text.braces, Text.brace?] using
        (operand calm.1 depth).append ((phrase (calm.2.1 key rfl) depth).append bound)
  | elseIf test =>
    cases depth with
    | zero => cases level
    | succ depth =>
      cases level
      simpa [statement, Statement.phrase, Text.braces, Text.brace?] using
        (closes depth).append ((operand calm depth).append (opens depth))
  | otherwise =>
    cases depth with
    | zero => cases level
    | succ depth =>
      cases level
      simpa [statement, Statement.phrase, Text.braces, Text.brace?] using (closes depth).append (opens depth)
  | close =>
    cases depth with
    | zero => cases level
    | succ depth =>
      cases level
      simpa [statement, Statement.phrase, Text.braces, Text.brace?] using closes depth
  | _ =>
    cases level
    simpa [statement, Statement.phrase, reset, start, Slot.piece, Text.braces, Text.brace?] using none

theorem reaches_flatMap {lines : List Line} (calm : ∀ line ∈ lines, line.Calm scope given)
    (closed : ∀ raw ∈ given, Text.isClosed raw = true) {depth stop : Nat} (level : levels lines depth = some stop) :
    Token.Reaches (Token.braces (lines.flatMap (tokens reading))) depth stop := by
  induction lines generalizing depth with
  | nil =>
    cases level
    exact .of_nest rfl
  | cons line rest ih =>
    obtain ⟨here, others⟩ := List.forall_mem_cons.mp calm
    obtain ⟨next, own, behind⟩ := Option.bind_eq_some_iff.mp level
    rw [List.flatMap_cons, Token.braces_append, tokens, Phrase.braces_tokens]
    exact (reaches_statement reading here closed own).append (ih others behind)

end Line

namespace Output

def prologue : Phrase :=
  [.code "<?php\n\nreturn function (", .named "__data", .code " = [], ", .named "__children", .code " = [], ",
    .named "__isComponent", .code " = false, ", .named "__state", .code " = []) \x7b\n", .named "__scope",
    .code " = [];\n", .named "__components", .code " = [];\n", .named "children0", .code " = [];\n?>\n"]

def epilogue : Phrase := [.code "<?php\nreturn ", .named "children0", .code ";\n\x7d;\n"]

theorem render_prologue : prologue.render = opening := by decide +kernel

theorem render_epilogue : epilogue.render = closing := by decide +kernel

theorem tokens_opening : Text.tokens opening = prologue.tokens := by
  rw [← render_prologue]
  exact Phrase.tokens_render (by decide +kernel) (by decide +kernel)

-- At the beginning and at the end only the outermost list occurs.

theorem not_mem_outermost {phrase : Phrase} (only : phrase.lists = ["children0"]) {slot : Slot}
    (list : slot.isList = true) (inner : slot ≠ .children 0) : .named slot.name ∉ phrase.tokens := by
  intro member
  have listed := Phrase.mem_lists (slot.namesList_name.trans list) member
  rw [only] at listed
  have zero : slot.name = (Slot.children 0).name := List.mem_singleton.mp listed
  exact inner (Slot.name_inj zero)

theorem not_mem_prologue {slot : Slot} (list : slot.isList = true) (inner : slot ≠ .children 0) :
    .named slot.name ∉ prologue.tokens := not_mem_outermost (by decide +kernel) list inner

theorem not_mem_epilogue {slot : Slot} (list : slot.isList = true) (inner : slot ≠ .children 0) :
    .named slot.name ∉ epilogue.tokens := not_mem_outermost (by decide +kernel) list inner

end Output

namespace Line

variable {scope : Scope} {given : List String} (reading : Reading scope given)

theorem isPlain_statement {line : Line} (calm : line.Calm scope given) (bare : ∀ raw ∈ given, Text.isBare raw = true) :
    (line.statement reading).phrase.isPlain = true := by
  have proper := Statement.proper_of_honest (line.honest_statement reading calm)
  refine List.all_eq_true.mpr fun piece member => ?_
  have proper := proper piece member
  cases piece with
  | code text => exact proper
  | named name => exact proper.2.1
  | raw text => exact bare text proper
  | literal text => rfl
  | access root name => rfl

theorem tokens_text {lines : List Line} (calm : ∀ line ∈ lines, line.Calm scope given)
    (bare : ∀ raw ∈ given, Text.isBare raw = true) :
    Text.tokens (file scope lines) =
      Output.prologue.tokens ++ (lines.flatMap (tokens reading) ++ Output.epilogue.tokens) := by
  -- The text behind the prologue is read line by line.
  have behind : ∃ phrase : Phrase, String.join (lines.map (print scope)) ++ Output.closing = phrase.render ∧
      phrase.isPlain = true ∧ phrase.isSpaced = true ∧ phrase.opens = true ∧
      phrase.tokens = lines.flatMap (tokens reading) ++ Output.epilogue.tokens := by
    induction lines with
    | nil => exact ⟨Output.epilogue, by simp [Output.render_epilogue], by decide +kernel, by decide +kernel, rfl, rfl⟩
    | cons line rest ih =>
      obtain ⟨here, others⟩ := List.forall_mem_cons.mp calm
      obtain ⟨phrase, text, plain, spaced, opens, same⟩ := ih others
      refine ⟨(line.statement reading).phrase ++ phrase, ?_, ?_, ?_, ?_, ?_⟩
      · rw [List.map_cons, String.join_cons, String.append_assoc, text, print_statement reading here,
          Phrase.render_append]
        rfl
      · rw [Phrase.isPlain, List.all_append, Bool.and_eq_true]
        exact ⟨isPlain_statement reading here bare, plain⟩
      · exact Phrase.isSpaced_append (orderly_statement reading here).spaced spaced opens
      · exact Phrase.opens_append (opens_statement reading line) opens
      · rw [Phrase.tokens_append, same, List.flatMap_cons, List.append_assoc]
        rfl
  obtain ⟨phrase, text, plain, spaced, opens, same⟩ := behind
  have whole : file scope lines = Output.opening ++ (String.join (lines.map (print scope)) ++ Output.closing) :=
    String.append_assoc
  rw [whole, text, ← Output.render_prologue, ← Phrase.render_append, ← same, ← Phrase.tokens_append]
  refine Phrase.tokens_render ?_ (Phrase.isSpaced_append (by decide +kernel) spaced opens)
  rw [Phrase.isPlain, List.all_append, Bool.and_eq_true]
  exact ⟨by decide +kernel, plain⟩

end Line

end Stencil
