import Stencil.Proofs.Statement

-- The places of stored variables in a statement. Its pieces are what they seem to be, and outside the target of a
-- parameter every variable lies in the storage that the scope has for it.

namespace Stencil

-- Text without variables and literals.
def Text.isBare (text : String) : Bool := text.toList.all fun c => c ≠ '$' && c ≠ '"'

-- A piece that is what it seems to be: fixed code holds no variable and no literal, a variable has a name and is not one
-- of the two storages, and text that is taken over comes from the template.
def Piece.Proper (given : List String) : Piece → Prop
  | .code text => Text.isBare text = true
  | .named name => name ≠ "" ∧ name.toList.all Text.isName = true ∧ name ≠ "__scope" ∧ name ≠ "__data"
  | .raw text => text ∈ given
  | _ => True

def Phrase.Proper (given : List String) (phrase : Phrase) : Prop := ∀ piece ∈ phrase, piece.Proper given

def Phrase.accesses (phrase : Phrase) : List (Root × String) :=
  phrase.filterMap fun piece => match piece with
    | .access root name => some (root, name)
    | _ => none

namespace Statement

def Proper (given : List String) (statement : Statement) : Prop := statement.phrase.Proper given

-- A statement without the target of a parameter.
def outside : Statement → Phrase
  | .parameter _ keys value => keys ++ value
  | statement => statement.phrase

-- The places of stored variables in a statement, apart from the target of a parameter.
def accesses (statement : Statement) : List (Root × String) := statement.outside.accesses

end Statement

-- A proper piece that follows the scope.
def Piece.Honest (scope : Scope) (given : List String) : Piece → Prop
  | .access root name => root = scope.root name
  | piece => piece.Proper given

def Phrase.Honest (scope : Scope) (given : List String) (phrase : Phrase) : Prop :=
  ∀ piece ∈ phrase, piece.Honest scope given

section Honest

variable {scope : Scope} {given : List String}

namespace Phrase

@[simp] theorem honest_nil : Honest scope given [] := nofun

@[simp] theorem honest_cons {piece : Piece} {rest : Phrase} :
    Honest scope given (piece :: rest) ↔ piece.Honest scope given ∧ Honest scope given rest := List.forall_mem_cons

@[simp] theorem honest_append {front back : Phrase} :
    Honest scope given (front ++ back) ↔ Honest scope given front ∧ Honest scope given back := List.forall_mem_append

theorem Honest.proper {phrase : Phrase} (honest : phrase.Honest scope given) : phrase.Proper given := by
  intro piece member
  have honest := honest piece member
  cases piece with
  | access root name => trivial
  | _ => exact honest

theorem Honest.accesses {phrase : Phrase} (honest : phrase.Honest scope given) :
    ∀ access ∈ phrase.accesses, access.1 = scope.root access.2 := by
  intro access member
  obtain ⟨piece, listed, same⟩ := List.mem_filterMap.mp member
  have honest := honest piece listed
  cases piece with
  | access root name =>
    cases same
    exact honest
  | _ => cases same

end Phrase

@[simp] theorem Piece.honest_code {text : String} :
    Piece.Honest scope given (.code text) ↔ Text.isBare text = true := .rfl

@[simp] theorem Piece.honest_literal {text : String} : Piece.Honest scope given (.literal text) := trivial

theorem Text.isName_of_isDigit {c : Char} (digit : c.isDigit = true) : isName c = true := by
  simp [isName, Char.isAlphanum, digit]

theorem Text.isName_toString (n : Nat) : (toString n).toList.all isName = true := by
  show n.repr.toList.all isName = true
  rw [Nat.repr_eq_ofList_toDigits, String.toList_ofList]
  refine List.all_eq_true.mpr fun c member => ?_
  exact isName_of_isDigit (Nat.isDigit_of_mem_toDigits (by decide) (by decide) member)

theorem Slot.name_ne_empty (slot : Slot) : slot.name ≠ "" := by
  cases slot <;> simp [name]

theorem Slot.isName_name (slot : Slot) : slot.name.toList.all Text.isName = true := by
  cases slot <;> rw [name, String.toList_append, List.all_append, Bool.and_eq_true] <;>
    exact ⟨by decide, Text.isName_toString _⟩

-- The numbered variables are none of those that every closure has.
theorem Slot.name_ne (slot : Slot) {other : String} (hidden : other.toList.head? = some '_') : slot.name ≠ other := by
  intro same
  rw [← same] at hidden
  cases slot <;> simp [name] at hidden

@[simp] theorem Slot.honest_piece (slot : Slot) : slot.piece.Honest scope given :=
  ⟨slot.name_ne_empty, slot.isName_name, slot.name_ne rfl, slot.name_ne rfl⟩

theorem Text.isBare_of_allCalm {text : String} (calm : allCalm text = true) : isBare text = true := by
  refine List.all_eq_true.mpr fun c member => ?_
  have known := List.all_eq_true.mp calm c member
  simp only [isCalm, Bool.and_eq_true] at known
  simp only [Bool.and_eq_true]
  exact known.1.1

theorem Phrase.Calm.honest {phrase : Phrase} (calm : phrase.Calm scope given) : phrase.Honest scope given := by
  intro piece member
  have calm := calm piece member
  cases piece with
  | code text => exact Text.isBare_of_allCalm calm
  | named name => rcases calm with rfl | rfl <;> exact ⟨by decide, by decide, by decide, by decide⟩
  | literal text => trivial
  | raw text => exact calm
  | access root name => exact calm

theorem Reading.calm_operand (reading : Reading scope given) {operand : Operand} (calm : operand.Calm scope given) :
    (reading.operand operand).Calm scope given := by
  cases operand with
  | text value => exact List.forall_mem_singleton.mpr trivial
  | flag => exact List.forall_mem_singleton.mpr rfl
  | computed code => exact (reading.reads calm).calm

end Honest

namespace Line

variable {scope : Scope} {given : List String} (reading : Reading scope given)

-- Outside the targets of parameters, the statement of a line follows the scope.
theorem honest_statement {line : Line} (calm : line.Calm scope given) :
    (line.statement reading).outside.Honest scope given := by
  have operand {operand : Operand} (calm : operand.Calm scope given) := (reading.calm_operand calm).honest
  have phrase {code : Code} (calm : code.Calm scope given) := (reading.reads calm).calm.honest
  have components : (Piece.named "__components").Honest scope given := ⟨by decide, by decide, by decide, by decide⟩
  have state : (Piece.named "__state").Honest scope given := ⟨by decide, by decide, by decide, by decide⟩
  cases line with
  | assignAttr attrsOf name value =>
    simp +decide [statement, Statement.outside, Statement.phrase, start, stop, operand calm.1, operand calm.2]
  | tagRecord sink attrsOf name childrenOf =>
    cases childrenOf <;> simp +decide [statement, Statement.outside, Statement.phrase, start]
  | expressionBlock identity sink value =>
    simp +decide [statement, Statement.outside, Statement.phrase, start, phrase calm]
  | parameter target value =>
    simp [statement, Statement.outside, (reading.targets calm.1).calm.honest, operand calm.2]
  | assign target value => simp +decide [statement, Statement.outside, Statement.phrase, phrase calm.1, operand calm.2]
  | keepChildren target identity => simp +decide [statement, Statement.outside, Statement.phrase, phrase calm]
  | useState target name initial =>
    cases initial with
    | none => simp +decide [statement, Statement.outside, Statement.phrase, phrase calm.1, state]
    | some value =>
      simp +decide [statement, Statement.outside, Statement.phrase, phrase calm.1, state, operand (calm.2 value rfl)]
  | importComponent name path extension =>
    simp +decide [statement, Statement.outside, Statement.phrase, start, components, operand calm]
  | callComponent identity sink attrsOf name childrenOf =>
    cases childrenOf <;> simp +decide [statement, Statement.outside, Statement.phrase, start, components, state]
  | openIf test => simp +decide [statement, Statement.outside, Statement.phrase, operand calm]
  | openLoop source binding =>
    obtain ⟨key, item⟩ := binding
    cases key with
    | none => simp +decide [statement, Statement.outside, Statement.phrase, operand calm.1, phrase calm.2.2]
    | some key =>
      simp +decide [statement, Statement.outside, Statement.phrase, operand calm.1, phrase calm.2.2,
        phrase (calm.2.1 key rfl)]
  | elseIf test => simp +decide [statement, Statement.outside, Statement.phrase, operand calm]
  | _ => simp +decide [statement, Statement.outside, Statement.phrase, reset, start]

end Line

theorem Statement.proper_of_honest {scope : Scope} {given : List String} {statement : Statement}
    (honest : statement.outside.Honest scope given) : statement.Proper given := by
  cases statement with
  | parameter place keys value =>
    obtain ⟨keyed, valued⟩ := Phrase.honest_append.mp honest
    have placed : Phrase.Proper given (place.toList.map (Piece.access .data)) := by
      intro piece member
      obtain ⟨_, _, rfl⟩ := List.mem_map.mp member
      trivial
    have target : Phrase.Proper given (place.toList.map (Piece.access .data) ++ keys) :=
      List.forall_mem_append.mpr ⟨placed, keyed.proper⟩
    have fixed {text : String} (bare : Text.isBare text = true) : (Piece.code text).Proper given := bare
    refine List.forall_mem_append.mpr ⟨List.forall_mem_append.mpr ⟨List.forall_mem_append.mpr ⟨?_, ?_⟩, ?_⟩, ?_⟩
    · exact List.forall_mem_cons.mpr ⟨fixed (by decide), target⟩
    · exact List.forall_mem_cons.mpr ⟨fixed (by decide), target⟩
    · exact List.forall_mem_cons.mpr ⟨fixed (by decide), valued.proper⟩
    · exact List.forall_mem_singleton.mpr (fixed (by decide))
  | _ => exact honest.proper

-- A line that assigns a stored variable accesses its place.
theorem Line.accesses_of_assigns {scope : Scope} {given : List String} (reading : Reading scope given) {line : Line}
    {name : String} (assigns : line.Assigns name) : (scope.root name, name) ∈ (line.statement reading).accesses := by
  have placed : reading.phrase (.place name) = [.access (scope.root name) name] := reading.places name
  cases line with
  | assign target value =>
    cases assigns
    simp [statement, Statement.accesses, Statement.outside, Statement.phrase, Phrase.accesses, placed]
  | keepChildren target identity =>
    cases assigns
    simp [statement, Statement.accesses, Statement.outside, Statement.phrase, Phrase.accesses, placed]
  | useState target stored initial =>
    cases assigns
    simp [statement, Statement.accesses, Statement.outside, Statement.phrase, Phrase.accesses, placed]
  | openLoop source binding =>
    rcases assigns with key | item
    · simp [statement, Statement.accesses, Statement.outside, Statement.phrase, Phrase.accesses, key, placed]
    · simp [statement, Statement.accesses, Statement.outside, Statement.phrase, Phrase.accesses, item, placed]
  | _ => cases assigns

end Stencil
