import Stencil.Proofs.Phrase

-- Generated code statement by statement. Each line is one statement whose phrases come from the expressions of the
-- template, so the text of a whole compilation can be read piece by piece.

namespace Stencil

-- The texts of a template that its code takes over as they are.

def Part.raws : Part → List String
  | .literal _ => []
  | .expression e => e.raws

def Attr.raws (attr : Attr) : List String := attr.name.raws ++ attr.value.toList.flatMap Part.raws

def Tag.raws (tag : Tag) : List String := tag.attrs.flatMap Attr.raws

def Leaf.raws : Leaf → List String
  | .slot e => e.raws
  | .block e => e.raws
  | .script attrs _ => attrs.flatMap Attr.raws
  | _ => []

namespace Node

mutual

def raws : Node → List String
  | .leaf _ value _ => value.raws
  | .tag _ own children _ => own.raws ++ allRaws children

def allRaws : List Node → List String
  | [] => []
  | first :: rest => raws first ++ allRaws rest

end

theorem allRaws_append (front back : List Node) : allRaws (front ++ back) = allRaws front ++ allRaws back := by
  induction front with
  | nil => rfl
  | cons first rest ih => rw [List.cons_append, allRaws, ih, allRaws, List.append_assoc]

end Node

mutual

theorem Sketch.raws_copy : ∀ {sketch : Sketch}, Node.allRaws (plains (copy sketch)) ⊆ Node.raws (plain sketch)
  | .node ⟨identity, .tag tag, location⟩ children => by
    unfold copy
    split
    · simp only [plains, plain, Node.allRaws, Node.raws, List.append_nil]
      exact List.append_subset.mpr
        ⟨List.subset_append_left _ _, List.Subset.trans raws_copies (List.subset_append_right _ _)⟩
    · rw [plain, Node.raws]
      exact List.Subset.trans raws_copies (List.subset_append_right _ _)
    · simp only [plains, plain, Node.allRaws, Node.raws, List.append_nil]
      exact List.subset_append_left _ _
    · exact List.nil_subset _
  | .node ⟨_, .leaf _, _⟩ _ => List.nil_subset _

theorem Sketch.raws_copies : ∀ {sketches : List Sketch},
    Node.allRaws (plains (copies sketches)) ⊆ Node.allRaws (plains sketches)
  | [] => List.nil_subset _
  | first :: rest => by
    rw [copies, plains_append, Node.allRaws_append, plains, Node.allRaws]
    exact List.append_subset.mpr ⟨List.Subset.trans raws_copy (List.subset_append_left _ _),
      List.Subset.trans raws_copies (List.subset_append_right _ _)⟩

end

namespace Passage

def raws : Passage → List String
  | .node _ outline => Node.allRaws (Sketch.plains (Outline.flat outline))
  | .nodes _ outlines => Node.allRaws (Sketch.plains (Outline.flatten outlines))
  | .copy _ sketch => sketch.plain.raws
  | .copies _ sketches => Node.allRaws (Sketch.plains sketches)
  | .control _ tag body => tag.raws ++ body.raws
  | .attrs _ held own => Node.allRaws (Sketch.plains held) ++ own.flatMap Attr.raws

theorem raws_tag {sink identity : Nat} {tag : Tag} {location : Location} {children : List Outline} :
    raws (.node sink (.node ⟨identity, .tag tag, location⟩ children)) =
      tag.raws ++ Node.allRaws (Sketch.plains (Outline.flatten children)) := by
  simp [raws, Outline.flat, Sketch.plains, Sketch.plain, Node.allRaws, Node.raws]

theorem raws_leaf {sink identity : Nat} {leaf : Leaf} {location : Location} {children : List Outline} :
    raws (.node sink (.node ⟨identity, .leaf leaf, location⟩ children)) = leaf.raws := by
  simp [raws, Outline.flat, Sketch.plains, Sketch.plain, Node.allRaws, Node.raws]

end Passage

section Sources

variable {given : List String} {own target : Code → Prop}

theorem Tag.raws_param? {tag : Tag} {name : String} {p : Part} (found : tag.param? name = some p) :
    p.raws ⊆ tag.raws := by
  obtain ⟨attr, member, valued⟩ := Tag.mem_of_param? found
  intro text own
  refine List.mem_flatMap.mpr ⟨attr, member, ?_⟩
  simp [Attr.raws, valued, own]

theorem Part.raws_asTarget (p : Part) : p.asTarget.raws = p.raws := by
  cases p <;> rfl

-- What is known of the code of all expressions with given texts, and of the targets of parameters.
structure Sources (given : List String) (own target : Code → Prop) : Prop where
  emitted : ∀ {context : Expr.Context} {e : Expr} {code : Code}, context ≠ .dataTarget → e.emit? context = some code →
    e.raws ⊆ given → own code
  targeted : ∀ {e : Expr} {code : Code}, e.emit? .dataTarget = some code → e.raws ⊆ given → target code

-- An operand made from an expression of the template.
def Operand.Holds (own : Code → Prop) : Operand → Prop
  | .computed code => own code
  | _ => True

-- What a line holds comes from expressions of the template.
def Line.Holds (own target : Code → Prop) : Line → Prop
  | .assignAttr _ name value => name.Holds own ∧ value.Holds own
  | .expressionBlock _ _ value => own value
  | .parameter place value => target place ∧ value.Holds own
  | .assign place value => own place ∧ value.Holds own
  | .keepChildren place _ => own place
  | .useState place _ initial => own place ∧ ∀ value ∈ initial, value.Holds own
  | .importComponent _ path _ => path.Holds own
  | .openIf test => test.Holds own
  | .openLoop source binding => source.Holds own ∧ (∀ key ∈ binding.key, own key) ∧ own binding.item
  | .elseIf test => test.Holds own
  | _ => True

namespace Sources

variable (sources : Sources given own target)
include sources

theorem holds_part {context : Expr.Context} {p : Part} {operand : Operand} (asks : context ≠ .dataTarget)
    (made : p.operand? context = some operand) (among : p.raws ⊆ given) : operand.Holds own := by
  cases p with
  | literal text =>
    cases made
    trivial
  | expression e =>
    obtain ⟨code, emitted, rfl⟩ := Option.map_eq_some_iff.mp made
    exact sources.emitted asks emitted among

theorem holds_operand {tag : Tag} {context : Expr.Context} {name : String} {operand : Operand}
    (asks : context ≠ .dataTarget) (made : tag.operand? context name = some operand) (among : tag.raws ⊆ given) :
    operand.Holds own := by
  obtain ⟨p, found, made⟩ := Option.bind_eq_some_iff.mp made
  exact sources.holds_part asks made (List.Subset.trans (Tag.raws_param? found) among)

theorem holds_asTarget {p : Part} {code : Code} (emitted : p.asTarget.emit? (.target true) = some code)
    (among : p.raws ⊆ given) : own code :=
  sources.emitted (by decide) emitted (by rwa [p.raws_asTarget])

theorem holds_place {tag : Tag} {name : String} {code : Code} (placed : tag.place? (.target true) name = some code)
    (among : tag.raws ⊆ given) : own code := by
  obtain ⟨p, found, emitted⟩ := Option.bind_eq_some_iff.mp placed
  exact sources.holds_asTarget emitted (List.Subset.trans (Tag.raws_param? found) among)

theorem holds_attrs {attrsOf : Nat} {attrs : List Attr} {lines : List Line}
    (made : Attr.lines? attrsOf attrs = some lines) (among : attrs.flatMap Attr.raws ⊆ given) : ∀ line ∈ lines, line.Holds own target := by
  induction attrs generalizing lines with
  | nil =>
    cases made
    exact nofun
  | cons attr rest ih =>
    simp only [Attr.lines?, List.mapM_cons, Option.bind_eq_bind, Option.bind_eq_some_iff, Option.pure_def,
      Option.some.injEq] at made
    obtain ⟨first, line, others, rest, rfl⟩ := made
    rw [List.flatMap_cons] at among
    obtain ⟨here, among⟩ := List.append_subset.mp among
    obtain ⟨naming, valuing⟩ := List.append_subset.mp here
    refine List.forall_mem_cons.mpr ⟨?_, ih rest among⟩
    simp only [Attr.line?, Option.bind_eq_bind, Option.bind_eq_some_iff] at line
    obtain ⟨name, named, line⟩ := line
    have naming : name.Holds own := sources.holds_part (by decide) named naming
    cases valued : attr.value with
    | none =>
      simp only [valued, Option.some.injEq] at line
      subst line
      exact ⟨naming, trivial⟩
    | some value =>
      simp only [valued, Option.bind_eq_some_iff, Option.some.injEq] at line
      obtain ⟨operand, made, rfl⟩ := line
      refine ⟨naming, sources.holds_part (by decide) made ?_⟩
      simpa [valued] using valuing

theorem holds_opening {tag : Tag} {kind : Control} {opening : Line} (opened : tag.opening? kind = some opening)
    (among : tag.raws ⊆ given) : opening.Holds own target := by
  cases kind with
  | conditional =>
    obtain ⟨test, made, rfl⟩ := Option.map_eq_some_iff.mp opened
    exact sources.holds_operand (by decide) made among
  | loop =>
    simp only [Tag.opening?, Option.bind_eq_bind, Option.bind_eq_some_iff, Option.some.injEq] at opened
    obtain ⟨source, made, binding, found, rfl⟩ := opened
    simp only [Tag.binding?, Option.bind_eq_bind, Option.bind_eq_some_iff] at found
    obtain ⟨item, placed, found⟩ := found
    have placed : own item := sources.holds_place placed among
    refine ⟨sources.holds_operand (by decide) made among, ?_⟩
    cases keyed : tag.param? "key" with
    | none =>
      simp only [keyed, Option.some.injEq] at found
      subst found
      refine ⟨fun other same => ?_, placed⟩
      cases same
    | some key =>
      simp only [keyed, Option.bind_eq_some_iff, Option.some.injEq] at found
      obtain ⟨code, emitted, rfl⟩ := found
      refine ⟨fun other same => ?_, placed⟩
      cases same
      exact sources.holds_asTarget emitted (List.Subset.trans (Tag.raws_param? keyed) among)
  | _ => cases opened

theorem holds_statement {options : Options} {tag : Tag} {kind : TagKind} {lines : List Line}
    (stated : tag.statement? options kind = some lines) (among : tag.raws ⊆ given) :
    ∀ line ∈ lines, line.Holds own target := by
  have operand {name : String} {operand : Operand} (made : tag.operand? .value name = some operand) :
      operand.Holds own := sources.holds_operand (by decide) made among
  cases kind with
  | parameter =>
    simp only [Tag.statement?, Option.bind_eq_bind, Option.bind_eq_some_iff, Option.some.injEq] at stated
    obtain ⟨target, placed, value, made, rfl⟩ := stated
    obtain ⟨p, found, emitted⟩ := Option.bind_eq_some_iff.mp placed
    have own : p.asTarget.raws ⊆ given := by
      rw [p.raws_asTarget]
      exact List.Subset.trans (Tag.raws_param? found) among
    exact List.forall_mem_singleton.mpr ⟨sources.targeted emitted own, operand made⟩
  | assignment =>
    simp only [Tag.statement?, Option.bind_eq_bind, Option.bind_eq_some_iff, Option.some.injEq] at stated
    obtain ⟨target, placed, value, made, rfl⟩ := stated
    exact List.forall_mem_singleton.mpr ⟨sources.holds_place placed among, operand made⟩
  | attr flow =>
    cases flow with
    | content =>
      cases stated
      exact List.forall_mem_nil _
    | applied => cases stated
  | importing =>
    simp only [Tag.statement?, Option.bind_eq_bind, Option.bind_eq_some_iff, Option.some.injEq] at stated
    obtain ⟨name, _, path, made, rfl⟩ := stated
    exact List.forall_mem_singleton.mpr (operand made)
  | state =>
    simp only [Tag.statement?, Option.bind_eq_bind, Option.bind_eq_some_iff, Option.some.injEq] at stated
    obtain ⟨target, placed, stored, _, initial, found, rfl⟩ := stated
    refine List.forall_mem_singleton.mpr ⟨sources.holds_place placed among, fun value member => ?_⟩
    cases member
    unfold Tag.initial? at found
    split at found
    · rename_i p given
      obtain ⟨made, emitted, same⟩ := Option.map_eq_some_iff.mp found
      cases same
      exact sources.holds_part (by decide) emitted (List.Subset.trans (Tag.raws_param? given) among)
    · cases found
  | _ => cases stated

omit sources in
theorem holds_ending {identity sink attrsOf : Nat} {name : String} {childrenOf : Option Nat} {last : Line}
    (ends : Ending identity sink attrsOf name childrenOf last) : last.Holds own target := by
  cases ends <;> trivial

-- All lines of a passage come from its expressions.
theorem holds_written {options : Options} {passage : Passage} {l r : Ledger} {lines : List Line}
    (written : Written options passage l lines r) (among : passage.raws ⊆ given) :
    ∀ line ∈ lines, line.Holds own target := by
  induction written with
  | noNodes => exact nofun
  | moreNodes _ _ head tail =>
    rw [Passage.raws, Outline.flatten, Sketch.plains_append, Node.allRaws_append] at among
    obtain ⟨own, among⟩ := List.append_subset.mp among
    exact List.forall_mem_append.mpr ⟨head own, tail among⟩
  | file _ ih => exact ih among
  | blank => exact nofun
  | field => exact List.forall_mem_singleton.mpr trivial
  | @value _ _ leaf _ _ _ _ _ found emitted =>
    rw [Passage.raws_leaf] at among
    refine List.forall_mem_singleton.mpr (sources.emitted (by decide) emitted ?_)
    cases leaf <;> cases found <;> exact among
  | script _ ih =>
    rw [Passage.raws_leaf] at among
    exact List.forall_mem_append.mpr ⟨ih among, List.forall_mem_singleton.mpr trivial⟩
  | statement _ stated =>
    rw [Passage.raws_tag] at among
    exact sources.holds_statement stated (List.append_subset.mp among).1
  | template _ placed _ ih =>
    rw [Passage.raws_tag] at among
    obtain ⟨own, below⟩ := List.append_subset.mp among
    refine List.forall_mem_cons.mpr ⟨trivial, List.forall_mem_append.mpr ⟨ih below, List.forall_mem_singleton.mpr ?_⟩⟩
    exact sources.holds_place placed own
  | controlled _ _ ih =>
    rw [Passage.raws_tag] at among
    exact ih among
  | closed _ _ _ ends ih =>
    rw [Passage.raws_tag] at among
    exact List.forall_mem_append.mpr ⟨ih (List.append_subset.mp among).1, List.forall_mem_singleton.mpr (holds_ending ends)⟩
  | single _ _ _ _ _ ends _ block =>
    rw [Passage.raws_tag] at among
    obtain ⟨own, below⟩ := List.append_subset.mp among
    refine List.forall_mem_append.mpr ⟨block ?_, List.forall_mem_singleton.mpr (holds_ending ends)⟩
    exact List.append_subset.mpr ⟨List.Subset.trans Sketch.raws_copies below, own⟩
  | full _ _ _ _ _ ends children block =>
    rw [Passage.raws_tag] at among
    obtain ⟨own, below⟩ := List.append_subset.mp among
    have attrs := block (List.append_subset.mpr ⟨List.Subset.trans Sketch.raws_copies below, own⟩)
    refine List.forall_mem_append.mpr ⟨List.forall_mem_append.mpr ⟨attrs, ?_⟩, List.forall_mem_singleton.mpr (holds_ending ends)⟩
    exact List.forall_mem_cons.mpr ⟨trivial, children below⟩
  | attrs _ made ih =>
    obtain ⟨held, own⟩ := List.append_subset.mp among
    refine List.forall_mem_cons.mpr ⟨trivial, List.forall_mem_append.mpr ⟨ih held, ?_⟩⟩
    exact sources.holds_attrs made own
  | noCopies => exact nofun
  | moreCopies _ _ head tail =>
    obtain ⟨own, among⟩ := List.append_subset.mp among
    exact List.forall_mem_append.mpr ⟨head own, tail among⟩
  | copiedAttr _ named valued =>
    rw [Passage.raws, Sketch.plain, Node.raws] at among
    have own := (List.append_subset.mp among).1
    refine List.forall_mem_singleton.mpr ⟨?_, ?_⟩
    · exact sources.holds_operand (by decide) named own
    · exact sources.holds_operand (by decide) valued own
  | copiedControl _ _ ih =>
    rw [Passage.raws, Sketch.plain, Node.raws] at among
    exact ih among
  | ignored => exact nofun
  | childless => exact nofun
  | guarded _ opened _ ih =>
    obtain ⟨own, below⟩ := List.append_subset.mp among
    refine List.forall_mem_cons.mpr ⟨sources.holds_opening opened own, ?_⟩
    exact List.forall_mem_append.mpr ⟨ih below, List.forall_mem_singleton.mpr trivial⟩
  | switch _ ih =>
    have below := ih (List.append_subset.mp among).2
    split
    · exact List.forall_mem_append.mpr ⟨below, List.forall_mem_singleton.mpr trivial⟩
    · exact below
  | case _ tested _ ih =>
    obtain ⟨own, below⟩ := List.append_subset.mp among
    refine List.forall_mem_cons.mpr ⟨?_, ih below⟩
    split <;> exact sources.holds_operand (by decide) tested own
  | default _ _ ih =>
    have below := ih (List.append_subset.mp among).2
    split
    · exact List.forall_mem_cons.mpr ⟨trivial, below⟩
    · exact below

end Sources

end Sources

section Calm

variable {scope : Scope} {given : List String}

-- An operand made from an expression of the template.
def Operand.Calm (scope : Scope) (given : List String) : Operand → Prop
  | .computed code => code.Calm scope given
  | _ => True

-- What a line holds comes from expressions of the template.
def Line.Calm (scope : Scope) (given : List String) : Line → Prop
  | .assignAttr _ name value => name.Calm scope given ∧ value.Calm scope given
  | .expressionBlock _ _ value => value.Calm scope given
  | .parameter target value =>
    (∃ place keys, Expr.ReadsTarget scope given target place keys) ∧ value.Calm scope given
  | .assign target value => target.Calm scope given ∧ value.Calm scope given
  | .keepChildren target _ => target.Calm scope given
  | .useState target _ initial => target.Calm scope given ∧ ∀ value ∈ initial, value.Calm scope given
  | .importComponent _ path _ => path.Calm scope given
  | .openIf test => test.Calm scope given
  | .openLoop source binding =>
    source.Calm scope given ∧ (∀ key ∈ binding.key, key.Calm scope given) ∧ binding.item.Calm scope given
  | .elseIf test => test.Calm scope given
  | _ => True

theorem Operand.Holds.calm {operand : Operand} (holds : operand.Holds (Code.Calm scope given)) :
    operand.Calm scope given := by
  cases operand <;> exact holds

theorem sources_calm : Sources given (Code.Calm scope given)
    (fun code => ∃ place keys, Expr.ReadsTarget scope given code place keys) :=
  ⟨Expr.calm_emit?, Expr.readsTarget_emit?⟩

-- All lines of a passage come from its expressions.
theorem Written.calm {options : Options} {passage : Passage} {l r : Ledger} {lines : List Line}
    (written : Written options passage l lines r) (among : passage.raws ⊆ given) :
    ∀ line ∈ lines, line.Calm scope given := by
  intro line member
  have holds := (@sources_calm scope given).holds_written written among line member
  cases line with
  | assignAttr => exact ⟨holds.1.calm, holds.2.calm⟩
  | parameter => exact ⟨holds.1, holds.2.calm⟩
  | assign => exact ⟨holds.1, holds.2.calm⟩
  | useState => exact ⟨holds.1, fun value initial => (holds.2 value initial).calm⟩
  | importComponent => exact Operand.Holds.calm holds
  | openIf => exact Operand.Holds.calm holds
  | openLoop => exact ⟨holds.1.calm, holds.2⟩
  | elseIf => exact Operand.Holds.calm holds
  | _ => exact holds

end Calm

-- A numbered variable of the closure: the attributes or the children of a tag, the result of an expression or a
-- component, or an item of such a result.
inductive Slot where
  | attrs (number : Nat)
  | children (number : Nat)
  | result (number : Nat)
  | item (number : Nat)
  deriving DecidableEq

def Slot.name : Slot → String
  | .attrs number => "attrs" ++ toString number
  | .children number => "children" ++ toString number
  | .result number => "result" ++ toString number
  | .item number => "item" ++ toString number

def Slot.piece (slot : Slot) : Piece := .named slot.name

inductive Statement where
  -- A default value: the stored variable that is the target, if it is one, the keys behind it, and the value.
  | parameter (place : Option String) (keys value : Phrase)
  | assign (target value : Phrase)
  | loop (source : Phrase) (key : Option Phrase) (item : Phrase)
  | other (phrase : Phrase)

namespace Statement

def phrase : Statement → Phrase
  | .parameter place keys value =>
    let target := place.toList.map (Piece.access .data) ++ keys
    .code "<?php if (!isset(" :: target ++ .code ")) " :: target ++ .code " = " :: value ++ [.code "; ?>\n"]
  | .assign target value => .code "<?php " :: target ++ .code " = " :: value ++ [.code "; ?>\n"]
  | .loop source key item =>
    .code "<?php foreach (" :: source ++ .code " as " :: key.elim [] (· ++ [.code " => "]) ++ item ++
      [.code ") \x7b ?>\n"]
  | .other phrase => phrase

def render (statement : Statement) : String := statement.phrase.render

end Statement

-- A choice of pieces for all codes.
structure Reading (scope : Scope) (given : List String) where
  phrase : Code → Phrase
  place : Code → Option String
  keys : Code → Phrase
  reads : ∀ {code : Code}, code.Calm scope given → code.Reads scope given (phrase code)
  targets : ∀ {code : Code}, (∃ place keys, Expr.ReadsTarget scope given code place keys) →
    Expr.ReadsTarget scope given code (place code) (keys code)
  places : ∀ name, phrase (.place name) = [.access (scope.root name) name]

theorem Code.place_inj {name other : String} (same : Code.place name = Code.place other) : name = other := by
  have first : some (Chunk.root name) = some (Chunk.root other) := congrArg (fun code => code.chunks.head?) same
  cases first
  rfl

open Classical in
theorem exists_reading (scope : Scope) (given : List String) : Nonempty (Reading scope given) := by
  -- A place is read as itself, any other code in some way.
  refine ⟨⟨fun code =>
      if placed : ∃ name, code = .place name then [.access (scope.root placed.choose) placed.choose]
      else if calm : code.Calm scope given then calm.choose else [],
    fun code => if target : ∃ place keys, Expr.ReadsTarget scope given code place keys then target.choose else none,
    fun code =>
      if target : ∃ place keys, Expr.ReadsTarget scope given code place keys then target.choose_spec.choose else [],
    ?_, ?_, ?_⟩⟩
  · intro code calm
    by_cases placed : ∃ name, code = .place name
    · rw [dif_pos placed]
      have reads : (Code.place placed.choose).Reads scope given _ := Expr.reads_place placed.choose
      rwa [← placed.choose_spec] at reads
    · rw [dif_neg placed, dif_pos calm]
      exact calm.choose_spec
  · intro code target
    rw [dif_pos target, dif_pos target]
    exact target.choose_spec.choose_spec
  · intro name
    have placed : ∃ other, Code.place name = .place other := ⟨name, rfl⟩
    rw [dif_pos placed, ← Code.place_inj placed.choose_spec]

namespace Reading

variable {scope : Scope} {given : List String} (reading : Reading scope given)

def operand : Operand → Phrase
  | .text value => [.literal value]
  | .flag => [.code "false"]
  | .computed code => reading.phrase code

theorem print_operand {operand : Operand} (calm : operand.Calm scope given) :
    operand.print scope = (reading.operand operand).render := by
  cases operand with
  | text value => simp [Operand.print, Reading.operand, Piece.render]
  | flag => simp [Operand.print, Reading.operand, Piece.render]
  | computed code => exact (reading.reads calm).text

end Reading

namespace Line

variable {scope : Scope} {given : List String} (reading : Reading scope given)

def start : Piece := .code "<?php "

def stop : Piece := .code "; ?>\n"

def reset (slot : Slot) : Phrase := [start, slot.piece, .code " = []; ?>\n"]

-- The statement that a line is.
def statement : Line → Statement
  | .resetAttrs attrsOf => .other (reset (.attrs attrsOf))
  | .resetChildren identity => .other (reset (.children identity))
  | .assignAttr attrsOf name value => .other (start :: Slot.piece (.attrs attrsOf) :: .code "[" ::
      reading.operand name ++ .code "] = " :: reading.operand value ++ [stop])
  | .record sink key text => .other [start, Slot.piece (.children sink), .code "[] = [", .literal key, .code " => ",
      .literal text, .code "]; ?>\n"]
  | .scriptRecord sink attrsOf body => .other [start, Slot.piece (.children sink), .code "[] = [", .literal "script",
      .code " => [", .literal "attrs", .code " => ", Slot.piece (.attrs attrsOf), .code ", ", .literal "body",
      .code " => ", .literal body, .code "]]; ?>\n"]
  | .tagRecord sink attrsOf name childrenOf => .other ([start, Slot.piece (.children sink), .code "[] = [",
      .literal "tag",
      .code " => ", .literal name, .code ", ", .literal "attrs", .code " => ", Slot.piece (.attrs attrsOf)] ++
      childrenOf.elim [] (fun identity =>
        [.code ", ", .literal "children", .code " => ", Slot.piece (.children identity)]) ++
      [.code "]; ?>\n"])
  | .expressionBlock identity sink value => .other (start :: Slot.piece (.result identity) :: .code " = " ::
      reading.phrase value ++ [.code ";\nif (is_array(", Slot.piece (.result identity),
      .code ")) \x7b\n  if (isset(", Slot.piece (.result identity), .code "[", .literal "tag",
      .code "]) || isset(", Slot.piece (.result identity), .code "[", .literal "text",
      .code "]) || isset(", Slot.piece (.result identity), .code "[", .literal "comment",
      .code "]) || isset(", Slot.piece (.result identity), .code "[", .literal "script",
      .code "])) \x7b\n    ", Slot.piece (.children sink), .code "[] = ", Slot.piece (.result identity),
      .code ";\n  \x7d else \x7b\n    foreach (", Slot.piece (.result identity), .code " as ",
      Slot.piece (.item identity), .code ") \x7b\n      ", Slot.piece (.children sink), .code "[] = ",
      Slot.piece (.item identity), .code ";\n    \x7d\n  \x7d\n\x7d else \x7b\n  ", Slot.piece (.children sink),
      .code "[] = [", .literal "text", .code " => ", Slot.piece (.result identity), .code "];\n\x7d ?>\n"])
  | .parameter target value => .parameter (reading.place target) (reading.keys target) (reading.operand value)
  | .assign target value => .assign (reading.phrase target) (reading.operand value)
  | .keepChildren target identity => .assign (reading.phrase target) [Slot.piece (.children identity)]
  | .useState target name initial => .assign (reading.phrase target) ([.code "isset(", .named "__state", .code "[",
      .literal name, .code "]) ? ", .named "__state", .code "[", .literal name, .code "] : "] ++
      initial.elim [.code "null"] reading.operand)
  | .importComponent name path extension => .other ([start, .named "__components", .code "[", .literal name,
      .code "] = include(__DIR__ . ", .literal "/", .code " . "] ++ reading.operand path ++
      [.code " . ", .literal extension, .code "); ?>\n"])
  | .callComponent identity sink attrsOf name childrenOf => .other ([start, Slot.piece (.result identity), .code " = ",
      .named "__components", .code "[", .literal name, .code "](", Slot.piece (.attrs attrsOf), .code ", "] ++
      childrenOf.elim [.code "[]"] (fun identity => [Slot.piece (.children identity)]) ++
      [.code ", true, ", .named "__state", .code "); ?>\n<?php foreach (", Slot.piece (.result identity), .code " as ",
      Slot.piece (.item identity), .code ") \x7b ", Slot.piece (.children sink), .code "[] = ",
      Slot.piece (.item identity), .code "; \x7d ?>\n"])
  | .openIf test => .other (.code "<?php if (" :: reading.operand test ++ [.code ") \x7b ?>\n"])
  | .openLoop source binding =>
    .loop (reading.operand source) (binding.key.map reading.phrase) (reading.phrase binding.item)
  | .elseIf test => .other (.code "<?php \x7d else if (" :: reading.operand test ++ [.code ") \x7b ?>\n"])
  | .otherwise => .other [.code "<?php \x7d else \x7b ?>\n"]
  | .close => .other [.code "<?php \x7d ?>\n"]

-- The longest line by itself: the test of a result and the three ways in which it is appended.
set_option maxRecDepth 4000 in
theorem print_expressionBlock {identity sink : Nat} {value : Code} (calm : value.Calm scope given) :
    print scope (.expressionBlock identity sink value) =
      (statement reading (.expressionBlock identity sink value)).render := by
  apply String.toList_inj.mp
  simp [print, pieces, statement, Statement.render, Statement.phrase, start, Slot.piece, Slot.name, Piece.render,
    (reading.reads calm).text, Text.quoted, Text.escape, Text.needsEscape]

-- A line is printed as its statement.
theorem print_statement {line : Line} (calm : line.Calm scope given) :
    line.print scope = (line.statement reading).render := by
  apply String.toList_inj.mp
  cases line with
  | assignAttr attrsOf name value =>
    simp [print, pieces, statement, Statement.render, Statement.phrase, start, Slot.piece, Slot.name, Piece.render, stop,
      reading.print_operand calm.1, reading.print_operand calm.2]
  | scriptRecord sink attrsOf body =>
    simp [print, pieces, statement, Statement.render, Statement.phrase, start, Slot.piece, Slot.name, Piece.render,
      Text.quoted, Text.escape, Text.needsEscape]
  | tagRecord sink attrsOf name childrenOf =>
    cases childrenOf <;>
      simp [print, pieces, statement, Statement.render, Statement.phrase, start, Slot.piece, Slot.name, Piece.render,
        Text.quoted, Text.escape, Text.needsEscape]
  | expressionBlock identity sink value => exact congrArg String.toList (print_expressionBlock reading calm)
  | parameter target value =>
    simp [print, pieces, statement, Statement.render, Statement.phrase, Piece.render, (reading.targets calm.1).text,
      reading.print_operand calm.2]
  | assign target value =>
    simp [print, pieces, statement, Statement.render, Statement.phrase, Piece.render, (reading.reads calm.1).text,
      reading.print_operand calm.2]
  | keepChildren target identity =>
    simp [print, pieces, statement, Statement.render, Statement.phrase, Slot.piece, Slot.name, Piece.render,
      (reading.reads calm).text]
  | useState target name initial =>
    cases initial with
    | none =>
      simp [print, pieces, statement, Statement.render, Statement.phrase, Piece.render, (reading.reads calm.1).text]
    | some value =>
      simp [print, pieces, statement, Statement.render, Statement.phrase, Piece.render, (reading.reads calm.1).text,
        reading.print_operand (calm.2 value rfl)]
  | importComponent name path extension =>
    simp [print, pieces, statement, Statement.render, Statement.phrase, start, Piece.render, reading.print_operand calm,
      Text.quoted, Text.escape, Text.needsEscape]
  | callComponent identity sink attrsOf name childrenOf =>
    cases childrenOf <;>
      simp [print, pieces, statement, Statement.render, Statement.phrase, start, Slot.piece, Slot.name, Piece.render]
  | openIf test =>
    simp [print, pieces, statement, Statement.render, Statement.phrase, Piece.render, reading.print_operand calm]
  | openLoop source binding =>
    obtain ⟨key, item⟩ := binding
    cases key with
    | none =>
      simp [print, pieces, Binding.print, statement, Statement.render, Statement.phrase, Piece.render,
        reading.print_operand calm.1, (reading.reads calm.2.2).text]
    | some key =>
      simp [print, pieces, Binding.print, statement, Statement.render, Statement.phrase, Piece.render,
        reading.print_operand calm.1, (reading.reads (calm.2.1 key rfl)).text, (reading.reads calm.2.2).text]
  | elseIf test =>
    simp [print, pieces, statement, Statement.render, Statement.phrase, Piece.render, reading.print_operand calm]
  | _ =>
    simp [print, pieces, statement, Statement.render, Statement.phrase, start, Slot.piece, Slot.name, Piece.render, reset]

end Line

end Stencil
