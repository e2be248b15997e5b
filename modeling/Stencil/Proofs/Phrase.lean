import Stencil.Proofs.Assigned

-- The text of an expression, piece by piece. Apart from what a template gives unchanged, the text consists of fixed
-- code, variables, string literals and places of stored variables, and the root of each place is told by the scope.

namespace Stencil

-- The storage that a variable is read from.
inductive Root where
  | scope
  | data
  deriving DecidableEq

def Root.text : Root → String
  | .scope => "$__scope"
  | .data => "$__data"

-- A piece of generated text: fixed code, a variable of the closure, a string literal, text of the template as it
-- stands, or the place of a stored variable.
inductive Piece where
  | code (text : String)
  | named (name : String)
  | literal (text : String)
  | raw (text : String)
  | access (root : Root) (name : String)
  deriving DecidableEq

def Piece.render : Piece → String
  | .code text => text
  | .named name => "$" ++ name
  | .literal text => Text.quoted text
  | .raw text => text
  | .access root name => root.text ++ "[" ++ Text.quoted name ++ "]"

abbrev Phrase := List Piece

namespace Phrase

def render (phrase : Phrase) : String := String.join (phrase.map Piece.render)

@[simp] theorem render_nil : render [] = "" := rfl

@[simp] theorem render_cons (piece : Piece) (rest : Phrase) : render (piece :: rest) = piece.render ++ render rest := by
  simp [render]

@[simp] theorem render_append (front back : Phrase) : render (front ++ back) = render front ++ render back := by
  simp [render]

end Phrase

-- Characters that neither begin a variable or a literal nor open or close a block.
def Text.isCalm (c : Char) : Bool := c ≠ '$' && c ≠ '"' && c ≠ '\x7b' && c ≠ '\x7d'

-- A fixed piece of code without variables, literals and blocks.
def Text.allCalm (text : String) : Bool := text.toList.all isCalm

def Scope.root (scope : Scope) (name : String) : Root := if scope.isLocal name then .scope else .data

-- A piece of the code of an expression: the scope tells where its variables are stored.
def Piece.Calm (scope : Scope) (raws : List String) : Piece → Prop
  | .code text => Text.allCalm text = true
  | .named name => name = "__children" ∨ name = "__separator"
  | .literal _ => True
  | .raw text => text ∈ raws
  | .access root name => root = scope.root name

-- Fixed code or a literal.
def Piece.isFixed : Piece → Bool
  | .code text => Text.allCalm text
  | .literal _ => true
  | _ => false

def Phrase.Calm (scope : Scope) (raws : List String) (phrase : Phrase) : Prop :=
  ∀ piece ∈ phrase, piece.Calm scope raws

theorem Phrase.Calm.append {scope : Scope} {raws : List String} {front back : Phrase} (first : front.Calm scope raws)
    (second : back.Calm scope raws) : Phrase.Calm scope raws (front ++ back) := by
  intro piece member
  exact (List.mem_append.mp member).elim (first piece) (second piece)

-- Characters of names.
def Text.isName (c : Char) : Bool := c.isAlphanum || c = '_' || 128 ≤ c.toNat

-- Whether a text ends a name in front of it.
def Text.breaks (text : String) : Bool := text.toList.head?.any fun c => !isName c

def Piece.breaks : Piece → Bool
  | .code text => Text.breaks text
  | .raw _ => false
  | _ => true

namespace Phrase

def opens : Phrase → Bool
  | [] => true
  | first :: _ => first.breaks

-- No name runs into what comes behind it.
def isSpaced : Phrase → Bool
  | [] => true
  | .named _ :: rest => opens rest && isSpaced rest
  | _ :: rest => isSpaced rest

theorem opens_append {front back : Phrase} (first : opens front = true) (second : opens back = true) :
    opens (front ++ back) = true := by
  cases front with
  | nil => exact second
  | cons piece rest => exact first

theorem isSpaced_append {front back : Phrase} (first : isSpaced front = true) (second : isSpaced back = true)
    (opened : opens back = true) : isSpaced (front ++ back) = true := by
  induction front with
  | nil => exact second
  | cons piece rest ih =>
    cases piece with
    | named name =>
      rw [isSpaced, Bool.and_eq_true] at first
      rw [List.cons_append, isSpaced, Bool.and_eq_true]
      exact ⟨opens_append first.1 opened, ih first.2⟩
    | _ => exact ih first

end Phrase

-- The pieces that a code renders to.
structure Code.Reads (scope : Scope) (raws : List String) (code : Code) (phrase : Phrase) : Prop where
  text : code.render scope = phrase.render
  calm : phrase.Calm scope raws
  spaced : phrase.isSpaced = true

def Code.Calm (scope : Scope) (raws : List String) (code : Code) : Prop := ∃ phrase, code.Reads scope raws phrase

-- Code that may stand directly behind a name.
def Code.Settled (scope : Scope) (raws : List String) (code : Code) : Prop :=
  ∃ phrase, code.Reads scope raws phrase ∧ phrase.opens = true

namespace Code

variable {scope : Scope} {raws : List String}

theorem reads_empty : empty.Reads scope raws [] := ⟨rfl, nofun, rfl⟩

theorem calm_empty : empty.Calm scope raws := ⟨[], reads_empty⟩

theorem settled_empty : empty.Settled scope raws := ⟨[], reads_empty, rfl⟩

theorem Reads.append {a b : Code} {front back : Phrase} (first : a.Reads scope raws front)
    (second : b.Reads scope raws back) (opened : back.opens = true) : (a ++ b).Reads scope raws (front ++ back) where
  text := by rw [render_append, first.text, second.text, Phrase.render_append]
  calm := first.calm.append second.calm
  spaced := Phrase.isSpaced_append first.spaced second.spaced opened

theorem Calm.append {a b : Code} (first : a.Calm scope raws) (second : b.Settled scope raws) :
    (a ++ b).Calm scope raws := by
  obtain ⟨front, reads⟩ := first
  obtain ⟨back, settled, opened⟩ := second
  exact ⟨front ++ back, reads.append settled opened⟩

theorem Settled.append {a b : Code} (first : a.Settled scope raws) (second : b.Settled scope raws) :
    (a ++ b).Settled scope raws := by
  obtain ⟨front, reads, opening⟩ := first
  obtain ⟨back, settled, opened⟩ := second
  exact ⟨front ++ back, reads.append settled opened, Phrase.opens_append opening opened⟩

theorem calm_piece {piece : Piece} (calm : piece.Calm scope raws) : (text piece.render).Calm scope raws := by
  refine ⟨[piece], ?_, ?_, ?_⟩
  · simp
  · intro other member
    rwa [List.mem_singleton.mp member]
  · cases piece <;> rfl

theorem calm_text {value : String} (calm : Text.allCalm value = true) : (text value).Calm scope raws :=
  @calm_piece scope raws (.code value) calm

theorem calm_quoted (value : String) : (text (Text.quoted value)).Calm scope raws :=
  @calm_piece scope raws (.literal value) trivial

-- Fixed code with literals in it, in front of other code.
theorem reads_fixed {phrase back : Phrase} (fixed : phrase.all Piece.isFixed = true) {rest : Code}
    (reads : rest.Reads scope raws back) : (text phrase.render ++ rest).Reads scope raws (phrase ++ back) := by
  have known := List.all_eq_true.mp fixed
  refine ⟨by simp [reads.text], Phrase.Calm.append ?_ reads.calm, ?_⟩
  · intro piece member
    have fixed := known piece member
    cases piece with
    | code value => exact fixed
    | literal value => trivial
    | _ => cases fixed
  · clear known
    induction phrase with
    | nil => exact reads.spaced
    | cons piece others ih =>
      rw [List.all_cons, Bool.and_eq_true] at fixed
      cases piece with
      | named name => cases fixed.1
      | _ => exact ih fixed.2

theorem calm_fixed (phrase : Phrase) (fixed : phrase.all Piece.isFixed = true) {rest : Code}
    (calm : rest.Calm scope raws) : (text phrase.render ++ rest).Calm scope raws := by
  obtain ⟨back, reads⟩ := calm
  exact ⟨phrase ++ back, reads_fixed fixed reads⟩

theorem settled_fixed (phrase : Phrase) (fixed : (phrase.all Piece.isFixed && phrase.opens && !phrase.isEmpty) = true)
    {rest : Code} (calm : rest.Calm scope raws) : (text phrase.render ++ rest).Settled scope raws := by
  simp only [Bool.and_eq_true] at fixed
  obtain ⟨back, reads⟩ := calm
  refine ⟨phrase ++ back, reads_fixed fixed.1.1 reads, ?_⟩
  cases phrase with
  | nil => cases fixed.2
  | cons piece others => exact fixed.1.2

theorem calm_lead {value : String} (calm : Text.allCalm value = true) {rest : Code} (behind : rest.Calm scope raws) :
    (text value ++ rest).Calm scope raws := by
  have same : value = Phrase.render [.code value] := by simp [Piece.render]
  rw [same]
  exact calm_fixed [.code value] (by simp [Piece.isFixed, calm]) behind

-- Fixed code behind an expression, and what follows.
theorem settled_lead {value : String} (calm : (Text.allCalm value && Text.breaks value) = true) {rest : Code}
    (behind : rest.Calm scope raws) : (text value ++ rest).Settled scope raws := by
  have same : value = Phrase.render [.code value] := by simp [Piece.render]
  rw [same]
  refine settled_fixed [.code value] ?_ behind
  simpa [Piece.isFixed, Phrase.opens, Piece.breaks] using calm

theorem settled_concat {codes : List Code} (all : ∀ code ∈ codes, code.Settled scope raws) :
    (concat codes).Settled scope raws := by
  induction codes with
  | nil => exact settled_empty
  | cons first rest ih =>
    rw [concat_cons]
    exact (all first List.mem_cons_self).append (ih fun code member => all code (List.mem_cons_of_mem _ member))

theorem calm_join {separator : String} (calm : (Text.allCalm separator && Text.breaks separator) = true) :
    ∀ {codes : List Code}, (∀ code ∈ codes, code.Calm scope raws) → (join separator codes).Calm scope raws
  | [], _ => calm_empty
  | [code], all => all code List.mem_cons_self
  | first :: second :: rest, all => by
    rw [join]
    · refine (all first List.mem_cons_self).append (settled_lead calm (calm_join calm fun code member => ?_))
      exact all code (List.mem_cons_of_mem _ member)
    · simp

theorem calm_safeRead {place : Code} (calm : place.Calm scope raws) : place.safeRead.Calm scope raws := by
  have last : (text " : \"\")" ++ empty).Settled scope raws :=
    settled_fixed [.code " : ", .literal "", .code ")"] (by decide) calm_empty
  exact calm_lead (by decide) (calm.append (settled_lead (by decide) (calm.append last)))

end Code

namespace Number

-- The characters of written numbers.
def isFigure (c : Char) : Bool := c.isDigit || c ∈ ['.', 'e', '+', '-']

def allFigures (text : String) : Bool := text.toList.all isFigure

theorem ne_of_isFigure {c other : Char} (figure : isFigure c = true) (different : isFigure other = false) :
    c ≠ other := by
  intro same
  rw [same, different] at figure
  cases figure

theorem allFigures_append {front back : String} (first : allFigures front = true) (second : allFigures back = true) :
    allFigures (front ++ back) = true := by
  rw [allFigures, String.toList_append, List.all_append, Bool.and_eq_true]
  exact ⟨first, second⟩

theorem allFigures_toDigits (n : Nat) : (Nat.toDigits 10 n).all isFigure = true := by
  refine List.all_eq_true.mpr fun c member => ?_
  rw [isFigure, Nat.isDigit_of_mem_toDigits (by decide) (by decide) member, Bool.true_or]

theorem allFigures_toString (n : Nat) : allFigures (toString n) = true := by
  show allFigures n.repr = true
  rw [Nat.repr_eq_ofList_toDigits, allFigures, String.toList_ofList]
  exact allFigures_toDigits n

theorem allFigures_ofList {cs : List Char} (figures : cs.all isFigure = true) : allFigures (String.ofList cs) = true := by
  rwa [allFigures, String.toList_ofList]

theorem allFigures_zeros (count : Nat) : allFigures (zeros count) = true := by
  refine allFigures_ofList (List.all_eq_true.mpr fun c member => ?_)
  rw [(List.mem_replicate.mp member).2]
  decide

theorem allFigures_of_subset {digits some : List Char} (figures : digits.all isFigure = true) (among : some ⊆ digits) :
    allFigures (String.ofList some) = true :=
  allFigures_ofList (List.all_eq_true.mpr fun c member => List.all_eq_true.mp figures c (among member))

theorem allFigures_positional {digits : List Char} (figures : digits.all isFigure = true) (point : Int) :
    allFigures (positional digits point) = true := by
  unfold positional
  split
  · exact allFigures_append (allFigures_append (by decide) (allFigures_zeros _)) (allFigures_ofList figures)
  · refine allFigures_append (allFigures_append (allFigures_append ?_ (allFigures_zeros _)) (by decide)) ?_
    · exact allFigures_of_subset figures (List.take_subset _ _)
    · split
      · decide
      · exact allFigures_of_subset figures (List.drop_subset _ _)

theorem allFigures_scientific {mark : String} (marked : allFigures mark = true) {digits : List Char}
    (figures : digits.all isFigure = true) (exponent : Int) : allFigures (scientific mark digits exponent) = true := by
  unfold scientific
  refine allFigures_append (allFigures_append (allFigures_append (allFigures_append ?_ ?_) marked) ?_)
    (allFigures_toString _)
  · exact allFigures_of_subset figures (List.take_subset _ _)
  · split
    · decide
    · exact allFigures_append (by decide) (allFigures_of_subset figures (List.drop_subset _ _))
  · split <;> decide

theorem allFigures_text (number : Number) : allFigures number.text = true := by
  cases number with
  | integer value =>
    cases value with
    | ofNat n => exact allFigures_toString n
    | negSucc n => exact allFigures_append (by decide) (allFigures_toString (n + 1))
  | double value =>
    refine allFigures_append ?_ ?_
    · split <;> decide
    · split
      · decide
      · split
        · exact allFigures_positional (allFigures_toDigits _) _
        · exact allFigures_scientific (by decide) (allFigures_toDigits _) _

theorem all_of_allFigures {kind : Char → Bool} (figures : ∀ c, isFigure c = true → kind c = true) {text : String}
    (written : allFigures text = true) : text.toList.all kind = true :=
  List.all_eq_true.mpr fun c member => figures c (List.all_eq_true.mp written c member)

theorem isCalm_of_isFigure (c : Char) (figure : isFigure c = true) : Text.isCalm c = true := by
  simp [Text.isCalm, ne_of_isFigure figure (rfl : isFigure '$' = false), ne_of_isFigure figure (rfl : isFigure '"' = false),
    ne_of_isFigure figure (rfl : isFigure '\x7b' = false), ne_of_isFigure figure (rfl : isFigure '\x7d' = false)]

theorem allCalm_toString (n : Nat) : Text.allCalm (toString n) = true := all_of_allFigures isCalm_of_isFigure (allFigures_toString n)

theorem allCalm_text (number : Number) : Text.allCalm number.text = true :=
  all_of_allFigures isCalm_of_isFigure number.allFigures_text

end Number

namespace Expr

mutual

-- The texts that the code of an expression takes from the template as they are: constants, and the names of functions
-- that are not known.
def raws : Expr → List String
  | .var _ keys => allRaws keys
  | .const text => [text]
  | .str _ => []
  | .num _ => []
  | .binary _ left right => raws left ++ raws right
  | .unary _ value => raws value
  | .isset value => raws value
  | .ternary condition consequent alternate => raws condition ++ raws consequent ++ raws alternate
  | .concat values => allRaws values
  | .array entries => entryRaws entries
  | .range _ start stop => raws start ++ raws stop
  | .call callee args =>
    (match callee.bare? with
      | some name => if (Builtin.lookup? name).isSome then [] else [name]
      | none => raws callee) ++ allRaws args
  | .unsupported => []

def allRaws : List Expr → List String
  | [] => []
  | value :: rest => raws value ++ allRaws rest

def entryRaws : List Entry → List String
  | [] => []
  | .plain value :: rest => raws value ++ entryRaws rest
  | .keyed key value :: rest => raws key ++ raws value ++ entryRaws rest

end

-- The ways in which the code of an expression is put together, from given texts.
structure Closed (given : List String) (holds : Code → Prop) : Prop where
  raw : ∀ text ∈ given, holds (Code.text text)
  quoted : ∀ text, holds (Code.text (Text.quoted text))
  number : ∀ value : Number, holds (Code.text value.text)
  var : ∀ name keys, (∀ key ∈ keys, holds key) → holds (varCode (Code.root name) name keys)
  binary : ∀ (op : BinaryOp) left right, holds left → holds right →
    holds (Code.concat [left, " ", op.symbol, " ", right])
  unary : ∀ op value, holds value → holds (unaryCode op value)
  isset : ∀ value, holds value → holds (Code.concat ["isset(", value, ")"])
  ternary : ∀ condition consequent alternate, holds condition → holds consequent → holds alternate →
    holds (Code.concat ["(", condition, " ? ", consequent, " : ", alternate, ")"])
  concat : ∀ values, (∀ value ∈ values, holds value) → holds (Code.join " . " values)
  array : ∀ entries, (∀ entry ∈ entries, holds entry) → holds (Code.concat ["[", Code.join ", " entries, "]"])
  numbered : ∀ (next : Nat) value, holds value → holds (Code.concat [toString next, " => ", value])
  keyed : ∀ key value, holds key → holds value → holds (Code.concat [key, " => ", value])
  range : ∀ kind start stop, holds start → holds stop →
    holds (Code.concat ["mkArr(", start, ", ", stop, ", ", rangeMode kind, ")"])
  named : ∀ name args source, (∀ arg ∈ args, holds arg) → (Builtin.lookup? name = none → name ∈ given) →
    holds (callCode name args source)
  call : ∀ callee args, holds callee → (∀ arg ∈ args, holds arg) →
    holds (Code.concat [callee, "(", Code.join ", " args, ")"])

namespace Closed

variable {given : List String} {holds : Code → Prop}

mutual

-- The induction is on the expression: all texts that its code takes over are among the given ones.
theorem code? (closed : Closed given holds) : ∀ {e : Expr} {code : Code}, e.code? = some code → e.raws ⊆ given → holds code
  | .var name keys, code, made, among => by
    simp only [Expr.code?, Option.bind_eq_bind, Option.bind_eq_some_iff, Option.some.injEq] at made
    obtain ⟨codes, found, rfl⟩ := made
    exact closed.var name codes (codes? closed found among)
  | .const text, code, made, among => by
    cases made
    exact closed.raw text (among List.mem_cons_self)
  | .str text, code, made, _ => by
    cases made
    exact closed.quoted text
  | .num value, code, made, _ => by
    cases made
    exact closed.number value
  | .binary op left right, code, made, among => by
    simp only [Expr.code?, Option.bind_eq_bind, Option.bind_eq_some_iff, Option.some.injEq] at made
    obtain ⟨first, leftMade, second, rightMade, rfl⟩ := made
    obtain ⟨among, others⟩ := List.append_subset.mp among
    exact closed.binary op _ _ (code? closed leftMade among) (code? closed rightMade others)
  | .unary op value, code, made, among => by
    simp only [Expr.code?, Option.bind_eq_bind, Option.bind_eq_some_iff, Option.some.injEq] at made
    obtain ⟨inner, found, rfl⟩ := made
    exact closed.unary op _ (code? closed found among)
  | .isset value, code, made, among => by
    simp only [Expr.code?, Option.bind_eq_bind, Option.bind_eq_some_iff, Option.some.injEq] at made
    obtain ⟨inner, found, rfl⟩ := made
    exact closed.isset _ (code? closed found among)
  | .ternary condition consequent alternate, code, made, among => by
    simp only [Expr.code?, Option.bind_eq_bind, Option.bind_eq_some_iff, Option.some.injEq] at made
    obtain ⟨first, tested, second, thenMade, third, elseMade, rfl⟩ := made
    obtain ⟨among, last⟩ := List.append_subset.mp among
    obtain ⟨among, middle⟩ := List.append_subset.mp among
    exact closed.ternary _ _ _ (code? closed tested among) (code? closed thenMade middle) (code? closed elseMade last)
  | .concat values, code, made, among => by
    simp only [Expr.code?, Option.bind_eq_bind, Option.bind_eq_some_iff, Option.some.injEq] at made
    obtain ⟨codes, found, rfl⟩ := made
    exact closed.concat codes (codes? closed found among)
  | .array entries, code, made, among => by
    simp only [Expr.code?, Option.bind_eq_bind, Option.bind_eq_some_iff, Option.some.injEq] at made
    obtain ⟨codes, found, rfl⟩ := made
    exact closed.array codes (entryCodes? closed found among)
  | .range kind start stop, code, made, among => by
    simp only [Expr.code?, Option.bind_eq_bind, Option.bind_eq_some_iff, Option.some.injEq] at made
    obtain ⟨first, startMade, last, stopMade, rfl⟩ := made
    obtain ⟨among, others⟩ := List.append_subset.mp among
    exact closed.range kind _ _ (code? closed startMade among) (code? closed stopMade others)
  | .call callee args, code, made, among => by
    obtain ⟨own, among⟩ := List.append_subset.mp among
    unfold Expr.code? at made
    cases named : callee.bare? with
    | some name =>
      simp only [named, Option.bind_eq_bind, Option.bind_eq_some_iff, Option.some.injEq] at made own
      obtain ⟨codes, found, rfl⟩ := made
      refine closed.named name codes args (codes? closed found among) fun unknown => own ?_
      simp [unknown]
    | none =>
      simp only [named, Option.bind_eq_bind, Option.bind_eq_some_iff, Option.some.injEq] at made own
      obtain ⟨function, calleeMade, codes, found, rfl⟩ := made
      exact closed.call _ _ (code? closed calleeMade own) (codes? closed found among)
  | .unsupported, code, made, _ => by cases made

theorem codes? (closed : Closed given holds) : ∀ {values : List Expr} {codes : List Code}, Expr.codes? values = some codes →
    allRaws values ⊆ given → ∀ code ∈ codes, holds code
  | [], codes, made, _ => by
    cases made
    exact nofun
  | value :: rest, codes, made, among => by
    simp only [Expr.codes?, Option.bind_eq_bind, Option.bind_eq_some_iff, Option.some.injEq] at made
    obtain ⟨first, valueMade, others, restMade, rfl⟩ := made
    obtain ⟨own, among⟩ := List.append_subset.mp among
    exact List.forall_mem_cons.mpr ⟨code? closed valueMade own, codes? closed restMade among⟩

theorem entryCodes? (closed : Closed given holds) {numbered : Bool} : ∀ {entries : List Entry} {next : Nat} {codes : List Code},
    Expr.entryCodes? numbered next entries = some codes → entryRaws entries ⊆ given → ∀ code ∈ codes, holds code
  | [], _, codes, made, _ => by
    cases made
    exact nofun
  | .plain value :: rest, next, codes, made, among => by
    obtain ⟨own, among⟩ := List.append_subset.mp among
    simp only [Expr.entryCodes?, Option.bind_eq_bind, Option.bind_eq_some_iff] at made
    obtain ⟨first, valueMade, made⟩ := made
    have here := code? closed valueMade own
    cases numbered with
    | true =>
      simp only [if_true, Option.bind_eq_some_iff, Option.some.injEq] at made
      obtain ⟨others, restMade, rfl⟩ := made
      exact List.forall_mem_cons.mpr ⟨closed.numbered next _ here, entryCodes? closed restMade among⟩
    | false =>
      simp only [Bool.false_eq_true, if_false, Option.bind_eq_some_iff, Option.some.injEq] at made
      obtain ⟨others, restMade, rfl⟩ := made
      exact List.forall_mem_cons.mpr ⟨here, entryCodes? closed restMade among⟩
  | .keyed key value :: rest, next, codes, made, among => by
    obtain ⟨own, among⟩ := List.append_subset.mp among
    obtain ⟨keyed, own⟩ := List.append_subset.mp own
    simp only [Expr.entryCodes?, Option.bind_eq_bind, Option.bind_eq_some_iff, Option.some.injEq] at made
    obtain ⟨first, keyMade, second, valueMade, others, restMade, rfl⟩ := made
    refine List.forall_mem_cons.mpr ⟨?_, entryCodes? closed restMade among⟩
    exact closed.keyed _ _ (code? closed keyMade keyed) (code? closed valueMade own)

end

end Closed

end Expr

namespace Builtin

variable {scope : Scope} {raws : List String}

open Code

-- The names that a function of the table stands for.
def names : Builtin → List String
  | .rename target => [target]
  | .renameWith target last => [target, last]
  | _ => []

theorem allCalm_table : ∀ entry ∈ table, ∀ name ∈ entry.2.names, Text.allCalm name = true := by decide

theorem calm_call {name : Code} (calm : name.Calm scope raws) {args : List Code}
    (all : ∀ arg ∈ args, arg.Calm scope raws) : (Code.concat [name, "(", Code.join ", " args, ")"]).Calm scope raws :=
  calm.append (settled_lead (by decide) ((calm_join (by decide) all).append (settled_lead (by decide) calm_empty)))

theorem calm_getD {args : List Code} (all : ∀ arg ∈ args, arg.Calm scope raws) (i : Nat) {other : Code}
    (calm : other.Calm scope raws) : (args.getD i other).Calm scope raws := by
  rw [List.getD_eq_getElem?_getD]
  cases found : args[i]? with
  | none => exact calm
  | some arg => exact all arg (List.mem_of_getElem? found)

theorem calm_fixedCall {name : String} (calm : Text.allCalm name = true) {args : List Code}
    (all : ∀ arg ∈ args, arg.Calm scope raws) : (call name args).Calm scope raws :=
  calm_call (calm_text calm) all

theorem calm_lowerSplit {args : List Code} (all : ∀ arg ∈ args, arg.Calm scope raws) (source : List Expr) :
    (lowerSplit args source).Calm scope raws := by
  have blank : (Code.text "\"\"").Calm scope raws := calm_quoted ""
  have subject := calm_getD all 0 blank
  have between := calm_getD all 1 blank
  have held : (Code.text separator).Calm scope raws := @calm_piece scope raws (.named "__separator") (.inr rfl)
  have chars : (call "mb_str_split" [args.getD 0 "\"\""]).Calm scope raws :=
    calm_fixedCall (by decide) (by simpa using subject)
  unfold lowerSplit
  split
  · exact chars
  · split
    · exact chars
    · refine calm_fixedCall (by decide) ?_
      simpa using ⟨between, subject⟩
  · have parts : (call "explode" [separator, args.getD 0 "\"\""]).Calm scope raws := by
      refine calm_fixedCall (by decide) ?_
      simpa using ⟨held, subject⟩
    have tested {rest : Code} (calm : rest.Calm scope raws) : (Code.text ") === \"\" ? " ++ rest).Settled scope raws :=
      settled_fixed [.code ") === ", .literal "", .code " ? "] (by decide) calm
    exact calm_lead (by decide) (held.append (settled_lead (by decide) (between.append (tested
      (chars.append (settled_lead (by decide) (parts.append (settled_lead (by decide) calm_empty))))))))

-- The calls of known functions are calm if their arguments are.
theorem calm_lower {name : String} {builtin : Builtin} (known : lookup? name = some builtin) {args : List Code}
    (all : ∀ arg ∈ args, arg.Calm scope raws) (source : List Expr) : (builtin.lower args source).Calm scope raws := by
  have fixed := allCalm_table _ (entry_of_lookup known)
  have missing : (Code.text "NULL").Calm scope raws := calm_text (by decide)
  have unit : (Code.text "'UTF-8'").Calm scope raws := calm_text (by decide)
  have array : (Code.text "[]").Calm scope raws := calm_text (by decide)
  have zero : (Code.text "0").Calm scope raws := calm_text (by decide)
  cases builtin with
  | rename target => exact calm_fixedCall (fixed target (by simp [names])) all
  | renameWith target last =>
    refine calm_fixedCall (fixed target (by simp [names])) fun arg member => ?_
    rcases List.mem_append.mp member with given | added
    · exact all arg given
    · rw [List.mem_singleton.mp added]
      exact calm_text (fixed last (by simp [names]))
  | substring =>
    refine calm_fixedCall (by decide) fun arg member => ?_
    simp only [List.mem_append, List.mem_replicate, List.mem_singleton] at member
    rcases member with (given | ⟨_, rfl⟩) | rfl
    · exact all arg given
    · exact missing
    · exact unit
  | replace =>
    refine calm_fixedCall (by decide) ?_
    simpa using ⟨calm_getD all 1 missing, calm_getD all 2 missing, calm_getD all 0 missing⟩
  | split => exact calm_lowerSplit all source
  | format =>
    have point : (Code.text "\".\"").Calm scope raws := calm_quoted "."
    refine calm_fixedCall (by decide) ?_
    simpa using ⟨calm_getD all 0 missing, calm_getD all 1 zero, calm_getD all 2 point⟩
  | contains =>
    have search : (call "array_search" [args.getD 1 "NULL", args.getD 0 "[]"]).Calm scope raws := by
      refine calm_fixedCall (by decide) ?_
      simpa using ⟨calm_getD all 1 missing, calm_getD all 0 array⟩
    exact calm_lead (by decide) (search.append (settled_lead (by decide) calm_empty))
  | join =>
    refine calm_fixedCall (by decide) ?_
    simpa using ⟨calm_getD all 1 (calm_quoted ""), calm_getD all 0 array⟩
  | round =>
    refine calm_fixedCall (by decide) ?_
    simpa using calm_getD all 0 zero
  | random => exact calm_text (by decide)
  | classes => exact calm_fixedCall (by decide) all

end Builtin

namespace Expr

open Code

variable {scope : Scope} {given : List String}

theorem reads_place (name : String) : (Code.place name).Reads scope given [.access (scope.root name) name] := by
  refine ⟨?_, ?_, rfl⟩
  · simp only [Code.place, concat_cons, concat_nil, append_empty, Code.render_append, render_root, render_text,
      Phrase.render_cons, Phrase.render_nil, String.append_empty, Piece.render, Scope.root]
    split <;> simp only [Root.text, String.append_assoc]
  · intro piece member
    rw [List.mem_singleton.mp member]
    exact rfl

-- The code of keys behind a variable.
def keysCode (keys : List Code) : Code := Code.concat (keys.map fun key => Code.concat ["[", key, "]"])

theorem settled_keysCode {keys : List Code} (all : ∀ key ∈ keys, key.Calm scope given) :
    (keysCode keys).Settled scope given := by
  refine settled_concat fun code member => ?_
  obtain ⟨key, listed, rfl⟩ := List.mem_map.mp member
  exact settled_lead (by decide) ((all key listed).append (settled_lead (by decide) calm_empty))

theorem calm_children : (Code.text "$__children").Calm scope given :=
  @calm_piece scope given (.named "__children") (.inl rfl)

-- A variable is a truth value, the children of the component, or a stored variable.
theorem varCode_cases (root : Code) (name : String) (keys : List Code) :
    (Text.allCalm name = true ∧ varCode root name keys = name) ∨ varCode root name keys = "$__children" ++ keysCode keys ∨
      varCode root name keys = Code.concat [root, "[", Text.quoted name, "]"] ++ keysCode keys := by
  unfold varCode
  split
  · rename_i bare
    simp only [Bool.and_eq_true, Bool.or_eq_true, decide_eq_true_eq] at bare
    refine .inl ⟨?_, rfl⟩
    rcases bare.1 with rfl | rfl <;> decide
  · split
    · exact .inr (.inl rfl)
    · exact .inr (.inr rfl)

theorem calm_varCode {name : String} {keys : List Code} (all : ∀ key ∈ keys, key.Calm scope given) :
    (varCode (Code.root name) name keys).Calm scope given := by
  rcases varCode_cases (Code.root name) name keys with ⟨calm, same⟩ | same | same
  · rw [same]
    exact calm_text calm
  · rw [same]
    exact calm_children.append (settled_keysCode all)
  · rw [same]
    exact Calm.append ⟨_, reads_place name⟩ (settled_keysCode all)

theorem calm_unaryCode {op : UnaryOp} {value : Code} (calm : value.Calm scope given) :
    (unaryCode op value).Calm scope given := by
  cases op with
  | brackets => exact calm_lead (by decide) (calm.append (settled_lead (by decide) calm_empty))
  | _ => exact calm_lead (by decide) (calm.append settled_empty)

theorem calm_callCode {name : String} {args : List Code} {source : List Expr}
    (all : ∀ arg ∈ args, arg.Calm scope given) (known : Builtin.lookup? name = none → name ∈ given) :
    (callCode name args source).Calm scope given := by
  unfold callCode
  split
  · rename_i found
    refine Builtin.calm_lower found (fun arg member => ?_) []
    rw [← List.map_uncurry_zip_eq_zipWith] at member
    obtain ⟨⟨expr, code⟩, paired, rfl⟩ := List.mem_map.mp member
    have calm := all code (List.of_mem_zip paired).2
    show (if expr.isStored then code.safeRead else code).Calm scope given
    split
    · exact calm_safeRead calm
    · exact calm
  · exact Builtin.calm_lower ‹_› all source
  · rename_i missing
    exact Builtin.calm_call (@calm_piece scope given (.raw name) (known missing)) all

theorem closed_calm : Closed given (Code.Calm scope given) where
  raw text listed := @calm_piece scope given (.raw text) listed
  quoted := calm_quoted
  number value := calm_text value.allCalm_text
  var _ _ := calm_varCode
  binary op _ _ left right := by
    have symbol : Text.allCalm op.symbol = true := by cases op <;> decide
    exact left.append (settled_lead (by decide) (calm_lead symbol (calm_lead (by decide) (right.append settled_empty))))
  unary _ _ := calm_unaryCode
  isset _ value := calm_lead (by decide) (value.append (settled_lead (by decide) calm_empty))
  ternary _ _ _ condition consequent alternate :=
    calm_lead (by decide) (condition.append (settled_lead (by decide) (consequent.append (settled_lead (by decide)
      (alternate.append (settled_lead (by decide) calm_empty))))))
  concat _ := calm_join (by decide)
  array _ all := calm_lead (by decide) ((calm_join (by decide) all).append (settled_lead (by decide) calm_empty))
  numbered next _ value :=
    calm_lead (Number.allCalm_toString next) (calm_lead (by decide) (value.append settled_empty))
  keyed _ _ key value := key.append (settled_lead (by decide) (value.append settled_empty))
  range kind _ _ start stop := by
    have mode : Text.allCalm (rangeMode kind) = true := by cases kind <;> decide
    exact calm_lead (by decide) (start.append (settled_lead (by decide) (stop.append (settled_lead (by decide)
      (calm_lead mode (calm_lead (by decide) calm_empty))))))
  named _ _ _ := calm_callCode
  call _ _ callee args := Builtin.calm_call callee args

theorem calm_code? {e : Expr} {code : Code} (made : e.code? = some code) (among : e.raws ⊆ given) :
    code.Calm scope given := closed_calm.code? made among

theorem calm_codes? {values : List Expr} {codes : List Code} (made : codes? values = some codes)
    (among : allRaws values ⊆ given) : ∀ code ∈ codes, code.Calm scope given := closed_calm.codes? made among

-- Only the target of a parameter does not ask the scope.
theorem calm_emit? {context : Context} {e : Expr} {code : Code} (asks : context ≠ .dataTarget)
    (emitted : e.emit? context = some code) (among : e.raws ⊆ given) : code.Calm scope given := by
  unfold emit? at emitted
  split at emitted
  · obtain ⟨place, made, rfl⟩ := Option.map_eq_some_iff.mp emitted
    exact calm_safeRead (calm_code? made among)
  · exact absurd rfl asks
  · exact calm_code? emitted among

-- The target of a parameter: a place in the data of the caller, if it is a stored variable, and the code of its keys.
structure ReadsTarget (scope : Scope) (given : List String) (code : Code) (place : Option String) (keys : Phrase) :
    Prop where
  text : code.render scope = Phrase.render (place.toList.map (Piece.access .data) ++ keys)
  calm : keys.Calm scope given
  spaced : keys.isSpaced = true

theorem Calm.readsTarget {code : Code} (calm : code.Calm scope given) :
    ∃ place keys, ReadsTarget scope given code place keys := by
  obtain ⟨phrase, reads⟩ := calm
  exact ⟨none, phrase, reads.text, reads.calm, reads.spaced⟩

theorem readsTarget_emit? {e : Expr} {code : Code} (emitted : e.emit? .dataTarget = some code) (among : e.raws ⊆ given) :
    ∃ place keys, ReadsTarget scope given code place keys := by
  cases e with
  | var name keys =>
    obtain ⟨codes, made, rfl⟩ := Option.map_eq_some_iff.mp emitted
    have keys : (keysCode codes).Settled scope given := settled_keysCode (calm_codes? made among)
    rcases varCode_cases "$__data" name codes with ⟨calm, found⟩ | found | found
    · rw [found]
      exact Calm.readsTarget (calm_text calm)
    · rw [found]
      exact Calm.readsTarget (calm_children.append keys)
    · obtain ⟨rest, reads, _⟩ := keys
      refine ⟨some name, rest, ?_, reads.calm, reads.spaced⟩
      rw [found, Code.render_append, reads.text]
      simp only [concat_cons, concat_nil, append_empty, Code.render_append, render_text, Option.toList_some, List.map_cons,
        List.map_nil, List.cons_append, List.nil_append, Phrase.render_cons, Piece.render, Root.text,
        String.append_assoc]
  | _ => exact Calm.readsTarget (calm_code? emitted among)

end Expr

end Stencil
