import Stencil.Proofs.Loads
import Stencil.Proofs.Statement

-- The lists that generated code builds: the attributes of a tag, and the children of a node. Line by line, each of them
-- is made empty once, before it is used, in a block that is still open wherever it is used.

namespace Stencil

namespace Line

-- The lists that a line uses. A line that makes a list empty does not use it.
def mentions : Line → List Slot
  | .assignAttr attrsOf _ _ => [.attrs attrsOf]
  | .record sink _ _ => [.children sink]
  | .scriptRecord sink attrsOf _ => [.children sink, .attrs attrsOf]
  | .tagRecord sink attrsOf _ childrenOf => .children sink :: .attrs attrsOf :: childrenOf.toList.map .children
  | .expressionBlock _ sink _ => [.children sink]
  | .keepChildren _ identity => [.children identity]
  | .callComponent _ sink attrsOf _ childrenOf => .children sink :: .attrs attrsOf :: childrenOf.toList.map .children
  | _ => []

-- The list that a line makes empty.
def reset? : Line → Option Slot
  | .resetAttrs attrsOf => some (.attrs attrsOf)
  | .resetChildren identity => some (.children identity)
  | _ => none

-- How many blocks are open behind a line, counted from somewhere in front of it, if none is closed that was open
-- there.
def level : Line → Nat → Option Nat
  | .openIf _, depth => some (depth + 1)
  | .openLoop _ _, depth => some (depth + 1)
  | .elseIf _, depth => if depth = 0 then none else some depth
  | .otherwise, depth => if depth = 0 then none else some depth
  | .close, depth => if depth = 0 then none else some (depth - 1)
  | _, depth => some depth

def levels : List Line → Nat → Option Nat
  | [], depth => some depth
  | line :: rest, depth => (line.level depth).bind (levels rest)

theorem levels_append (front back : List Line) (depth : Nat) :
    levels (front ++ back) depth = (levels front depth).bind (levels back) := by
  induction front generalizing depth with
  | nil => rfl
  | cons line rest ih =>
    rw [List.cons_append, levels, levels]
    cases line.level depth with
    | none => rfl
    | some next => exact ih next

-- A line without lists, on one level.
structure IsPlain (line : Line) : Prop where
  mentions : line.mentions = []
  reset : line.reset? = none
  level : ∀ depth, line.level depth = some depth

-- The lines lead from one number of open blocks to another, however many more are open around them.
def Moves (lines : List Line) (start stop : Nat) : Prop := ∀ base, levels lines (base + start) = some (base + stop)

namespace Moves

theorem nil (depth : Nat) : Moves [] depth depth := fun _ => rfl

theorem append {front back : List Line} {start middle stop : Nat} (first : Moves front start middle)
    (second : Moves back middle stop) : Moves (front ++ back) start stop := by
  intro base
  rw [levels_append, first base, Option.bind_some, second base]

theorem lift {lines : List Line} {start stop : Nat} (moves : Moves lines start stop) (depth : Nat) :
    Moves lines (depth + start) (depth + stop) := by
  intro base
  rw [← Nat.add_assoc, ← Nat.add_assoc]
  exact moves (base + depth)

theorem line {line : Line} (flat : ∀ depth, line.level depth = some depth) (depth : Nat) :
    Moves [line] depth depth := by
  intro base
  rw [levels, flat]
  rfl

theorem flat {lines : List Line} (flat : ∀ line ∈ lines, ∀ depth, line.level depth = some depth) (depth : Nat) :
    Moves lines depth depth := by
  induction lines with
  | nil => exact nil depth
  | cons first rest ih =>
    obtain ⟨own, others⟩ := List.forall_mem_cons.mp flat
    exact (line own depth).append (ih others)

theorem opening {line : Line} (opens : ∀ depth, line.level depth = some (depth + 1)) (depth : Nat) :
    Moves [line] depth (depth + 1) := by
  intro base
  rw [levels, opens]
  rfl

theorem closing (depth : Nat) : Moves [.close] (depth + 1) depth := fun _ => rfl

theorem chaining {line : Line} (chains : ∀ depth, line.level (depth + 1) = some (depth + 1)) (depth : Nat) :
    Moves [line] (depth + 1) (depth + 1) := by
  intro base
  rw [← Nat.add_assoc, levels, chains]
  rfl

theorem isSome {lines : List Line} (moves : Moves lines 0 0) : (levels lines 0).isSome = true := by
  have stays : levels lines 0 = some 0 := moves 0
  rw [stays]
  rfl

end Moves

end Line

theorem Tag.isPlain_statement? {options : Options} {tag : Tag} {kind : TagKind} {lines : List Line}
    (stated : tag.statement? options kind = some lines) : ∀ line ∈ lines, line.IsPlain := by
  cases kind with
  | parameter =>
    simp only [statement?, Option.bind_eq_bind, Option.bind_eq_some_iff, Option.some.injEq] at stated
    obtain ⟨_, _, _, _, rfl⟩ := stated
    exact List.forall_mem_singleton.mpr ⟨rfl, rfl, fun _ => rfl⟩
  | assignment =>
    simp only [statement?, Option.bind_eq_bind, Option.bind_eq_some_iff, Option.some.injEq] at stated
    obtain ⟨_, _, _, _, rfl⟩ := stated
    exact List.forall_mem_singleton.mpr ⟨rfl, rfl, fun _ => rfl⟩
  | attr flow =>
    cases flow with
    | content => cases stated; exact List.forall_mem_nil _
    | applied => cases stated
  | importing =>
    simp only [statement?, Option.bind_eq_bind, Option.bind_eq_some_iff, Option.some.injEq] at stated
    obtain ⟨_, _, _, _, rfl⟩ := stated
    exact List.forall_mem_singleton.mpr ⟨rfl, rfl, fun _ => rfl⟩
  | state =>
    simp only [statement?, Option.bind_eq_bind, Option.bind_eq_some_iff, Option.some.injEq] at stated
    obtain ⟨_, _, _, _, _, _, rfl⟩ := stated
    exact List.forall_mem_singleton.mpr ⟨rfl, rfl, fun _ => rfl⟩
  | _ => cases stated

theorem Attr.eq_of_mem_lines? {attrsOf : Nat} {attrs : List Attr} {lines : List Line}
    (made : lines? attrsOf attrs = some lines) :
    ∀ line ∈ lines, ∃ name value, line = .assignAttr attrsOf name value := by
  induction attrs generalizing lines with
  | nil =>
    cases made
    exact nofun
  | cons attr rest ih =>
    simp only [lines?, List.mapM_cons, Option.bind_eq_bind, Option.bind_eq_some_iff, Option.pure_def,
      Option.some.injEq] at made
    obtain ⟨first, own, others, rest, rfl⟩ := made
    refine List.forall_mem_cons.mpr ⟨?_, ih rest⟩
    simp only [line?, Option.bind_eq_bind, Option.bind_eq_some_iff] at own
    obtain ⟨name, _, own⟩ := own
    cases valued : attr.value with
    | none =>
      simp only [valued, Option.some.injEq] at own
      exact ⟨name, .flag, own.symm⟩
    | some value =>
      simp only [valued, Option.bind_eq_some_iff, Option.some.injEq] at own
      obtain ⟨operand, _, rfl⟩ := own
      exact ⟨name, operand, rfl⟩

theorem Attr.moves_lines? {attrsOf : Nat} {attrs : List Attr} {lines : List Line}
    (made : lines? attrsOf attrs = some lines) (depth : Nat) : Line.Moves lines depth depth := by
  refine .flat (fun line member => ?_) depth
  obtain ⟨_, _, rfl⟩ := eq_of_mem_lines? made line member
  exact fun _ => rfl

theorem Tag.level_opening? {tag : Tag} {kind : Control} {opening : Line} (opened : tag.opening? kind = some opening) :
    opening.mentions = [] ∧ opening.reset? = none ∧ ∀ depth, opening.level depth = some (depth + 1) := by
  cases kind with
  | conditional =>
    obtain ⟨_, _, rfl⟩ := Option.map_eq_some_iff.mp opened
    exact ⟨rfl, rfl, fun _ => rfl⟩
  | loop =>
    simp only [opening?, Option.bind_eq_bind, Option.bind_eq_some_iff, Option.some.injEq] at opened
    obtain ⟨_, _, _, _, rfl⟩ := opened
    exact ⟨rfl, rfl, fun _ => rfl⟩
  | _ => cases opened

-- Inside a chain of cases one block is open.
def Ledger.depth (l : Ledger) : Nat := l.isChained.toNat

@[simp] theorem Ledger.depth_inside_none (l : Ledger) : (l.inside none).depth = 0 := rfl

theorem Ledger.depth_eq {l r : Ledger} (same : r.branch = l.branch) : r.depth = l.depth := by
  rw [depth, isChained, same]
  rfl

namespace Written

variable {options : Options} {passage : Passage} {l r : Ledger} {lines : List Line}

-- Nothing goes on to stand outside of a switch, or inside of one.
theorem isSome_branch (written : Written options passage l lines r) : r.branch.isSome = l.branch.isSome := by
  induction written with
  | noNodes => rfl
  | moreNodes _ _ head tail => exact tail.trans head
  | file _ ih => exact ih
  | blank => rfl
  | field => rfl
  | value => rfl
  | script _ ih => exact ih
  | statement _ _ marks => rw [marks.branch]
  | template => rfl
  | controlled _ _ ih => exact ih
  | closed _ _ _ _ ih => exact ih
  | single _ _ _ _ _ _ _ ih => exact ih
  | full _ _ _ _ _ _ _ ih => exact ih
  | attrs => rfl
  | noCopies => rfl
  | moreCopies _ _ head tail => exact tail.trans head
  | copiedAttr => rfl
  | copiedControl _ _ ih => exact ih
  | ignored => rfl
  | childless => rfl
  | guarded => rfl
  | switch => rfl
  | case around => rw [around]; rfl
  | default around => rw [around]; rfl

theorem depth_outside (written : Written options passage (l.inside none) lines r) : r.depth = 0 := by
  have same : r.branch.isSome = false := written.isSome_branch
  have outside : r.branch = none := by
    cases found : r.branch with
    | none => rfl
    | some state => simp [found] at same
  simp [Ledger.depth, Ledger.isChained, outside]

theorem level_ending {identity sink attrsOf : Nat} {name : String} {childrenOf : Option Nat} {last : Line}
    (ending : Ending identity sink attrsOf name childrenOf last) (depth : Nat) : last.level depth = some depth := by
  cases ending <;> rfl

-- Every block that the lines open is closed again, but for that of a chain of cases.
theorem moves (written : Written options passage l lines r) : Line.Moves lines l.depth r.depth := by
  induction written with
  | noNodes => exact .nil _
  | moreNodes _ _ head tail => exact head.append tail
  | file _ ih => exact ih
  | blank => exact .nil _
  | field => exact .line (fun _ => rfl) _
  | value => exact .line (fun _ => rfl) _
  | script _ ih => exact ih.append (.line (fun _ => rfl) _)
  | statement _ stated marks =>
    rw [Ledger.depth_eq marks.branch]
    exact .flat (fun line member => (Tag.isPlain_statement? stated line member).level) _
  | template _ _ inner ih =>
    rw [Ledger.depth_inside_none, inner.depth_outside] at ih
    exact (Line.Moves.line (fun _ => rfl) _).append ((ih.lift _).append (.line (fun _ => rfl) _))
  | controlled _ _ ih => exact ih
  | closed _ _ _ ending ih => exact ih.append (.line (level_ending ending) _)
  | single _ _ _ _ _ ending _ ih => exact ih.append (.line (level_ending ending) _)
  | @full _ identity _ _ _ _ _ r _ _ _ _ _ _ _ inner _ ending below ih =>
    rw [Ledger.depth_inside_none, inner.depth_outside] at below
    have reset : Line.Moves [.resetChildren identity] r.depth r.depth := .line (fun _ => rfl) _
    exact (ih.append (reset.append (below.lift _))).append (.line (level_ending ending) _)
  | attrs inner made ih =>
    rw [Ledger.depth_inside_none, inner.depth_outside] at ih
    exact (Line.Moves.line (fun _ => rfl) _).append ((ih.lift _).append (Attr.moves_lines? made _))
  | noCopies => exact .nil _
  | moreCopies _ _ head tail => exact head.append tail
  | copiedAttr => exact .line (fun _ => rfl) _
  | copiedControl _ _ ih => exact ih
  | ignored => exact .nil _
  | childless => exact .nil _
  | guarded _ opened inner ih =>
    rw [Ledger.depth_inside_none, inner.depth_outside] at ih
    exact (Line.Moves.opening (Tag.level_opening? opened).2.2 _).append ((ih.lift _).append (.closing _))
  | @switch tag body l m lines inner ih =>
    have begun : (l.inside (some Switches.fresh)).depth = 0 := rfl
    rw [begun, Ledger.depth] at ih
    cases chained : m.isChained with
    | true =>
      rw [chained] at ih
      exact (ih.lift l.depth).append (.closing _)
    | false =>
      rw [chained] at ih
      exact ih.lift l.depth
  | @case tag body l m lines hasCase test around _ inner ih =>
    rw [Ledger.depth_inside_none, inner.depth_outside] at ih
    have begun : l.depth = hasCase.toNat := by simp [Ledger.depth, Ledger.isChained, around]
    rw [begun]
    cases hasCase with
    | true => exact (Line.Moves.chaining (fun _ => rfl) 0).append (ih.lift 1)
    | false => exact (Line.Moves.opening (fun _ => rfl) 0).append (ih.lift 1)
  | @default tag body l m lines state around inner ih =>
    rw [Ledger.depth_inside_none, inner.depth_outside] at ih
    have begun : l.depth = state.hasCase.toNat := by simp [Ledger.depth, Ledger.isChained, around]
    have ended : (m.inside (some { state with hasDefault := true })).depth = state.hasCase.toNat := rfl
    rw [begun, ended]
    cases state.hasCase with
    | true => exact (Line.Moves.chaining (fun _ => rfl) 0).append (ih.lift 1)
    | false => exact ih

end Written

-- Each list that the lines use is free, or made empty before, where no block was closed since that was open there.
def Tidy (free : List Slot) (lines : List Line) : Prop :=
  ∀ before line after, lines = before ++ line :: after → ∀ slot ∈ line.mentions, slot ∈ free ∨
    ∃ front opening back, before = front ++ opening :: back ∧ opening.reset? = some slot ∧
      (Line.levels back 0).isSome = true

namespace Tidy

variable {free : List Slot} {line : Line} {lines others : List Line} {slot : Slot}

theorem known (all : ∀ line ∈ lines, ∀ slot ∈ line.mentions, slot ∈ free) : Tidy free lines := by
  intro before line after split slot used
  exact .inl (all line (by simp [split]) slot used)

theorem nil : Tidy free [] := known nofun

theorem single (listed : ∀ slot ∈ line.mentions, slot ∈ free) : Tidy free [line] :=
  known (List.forall_mem_singleton.mpr listed)

theorem unused (plain : ∀ line ∈ lines, line.mentions = []) : Tidy free lines := by
  refine known fun line member slot used => ?_
  rw [plain line member] at used
  cases used

theorem append (first : Tidy free lines) (second : Tidy free others) : Tidy free (lines ++ others) := by
  intro before line after split slot used
  rcases List.append_eq_append_iff.mp split with ⟨more, rfl, rest⟩ | ⟨more, rfl, rest⟩
  · rcases second more line after rest slot used with known | ⟨front, opening, back, rfl, reset, still⟩
    · exact .inl known
    · exact .inr ⟨lines ++ front, opening, back, by simp, reset, still⟩
  · cases more with
    | nil =>
      rcases second [] line after rest.symm slot used with known | ⟨front, _, _, found, _⟩
      · exact .inl known
      · cases front <;> cases found
    | cons here more =>
      cases rest
      exact first before line more rfl slot used

theorem cons (plain : line.mentions = []) (tidy : Tidy free lines) : Tidy free (line :: lines) :=
  append (unused (List.forall_mem_singleton.mpr plain)) tidy

theorem mono {also : List Slot} (tidy : Tidy free lines) (weaker : ∀ slot ∈ free, slot ∈ also) : Tidy also lines := by
  intro before line after split slot used
  exact (tidy before line after split slot used).imp_left (weaker slot)

theorem alone (tidy : Tidy [slot] lines) (free : List Slot) : Tidy (slot :: free) lines := by
  refine tidy.mono fun other listed => ?_
  cases List.mem_singleton.mp listed
  exact List.mem_cons_self

-- A list that is made empty is free for the lines behind, as long as no block around it is closed.
theorem reset (tidy : Tidy (slot :: free) lines) (resets : line.reset? = some slot) (unused : line.mentions = [])
    (level : (Line.levels lines 0).isSome = true) : Tidy free (line :: lines) := by
  intro before other after split target used
  cases before with
  | nil =>
    cases split
    rw [unused] at used
    cases used
  | cons first rest =>
    obtain ⟨rfl, rfl⟩ : line = first ∧ lines = rest ++ other :: after := List.cons.inj split
    rcases tidy rest other after rfl target used with known | ⟨front, opening, back, rfl, found, still⟩
    · rcases List.mem_cons.mp known with rfl | known
      · refine .inr ⟨[], line, rest, rfl, resets, ?_⟩
        rw [Line.levels_append] at level
        cases inside : Line.levels rest 0 with
        | none => simp [inside] at level
        | some depth => rfl
      · exact .inl known
    · exact .inr ⟨line :: front, opening, back, rfl, found, still⟩

-- Behind the line that makes a free list empty, the list is free all the same.
theorem behind (tidy : Tidy (slot :: free) (line :: lines)) (resets : line.reset? = some slot) :
    Tidy (slot :: free) lines := by
  intro before other after split target used
  have around : line :: lines = (line :: before) ++ other :: after := by rw [split]; rfl
  rcases tidy _ other after around target used with known | ⟨front, opening, back, same, found, still⟩
  · exact .inl known
  · cases front with
    | nil =>
      cases same
      rw [resets] at found
      cases found
      exact .inl List.mem_cons_self
    | cons first rest =>
      cases same
      exact .inr ⟨rest, opening, back, rfl, found, still⟩

end Tidy

-- The lists that the lines of a passage may use from outside.
def Passage.free : Passage → List Slot
  | .node sink _ => [.children sink]
  | .nodes sink _ => [.children sink]
  | .copy attrsOf _ => [.attrs attrsOf]
  | .copies attrsOf _ => [.attrs attrsOf]
  | .control _ _ body => body.free
  | .attrs attrsOf _ _ => [.attrs attrsOf]

theorem Ending.mentions {identity sink attrsOf : Nat} {name : String} {childrenOf : Option Nat} {last : Line}
    (ending : Ending identity sink attrsOf name childrenOf last) :
    last.mentions = .children sink :: .attrs attrsOf :: childrenOf.toList.map .children := by
  cases ending <;> rfl

namespace Written

variable {options : Options} {passage : Passage} {l r : Ledger} {lines : List Line}

-- The attributes of a tag come first, and what follows may use them.
theorem tidy_attributed {attrsOf : Nat} {held : List Sketch} {attrs : List Attr} {free : List Slot} {rest : List Line}
    (written : Written options (.attrs attrsOf held attrs) l lines r) (tidy : Tidy [.attrs attrsOf] lines)
    (others : Tidy (.attrs attrsOf :: free) rest) (level : Line.Moves rest 0 0) : Tidy free (lines ++ rest) := by
  cases written with
  | attrs inner made =>
    have begun := inner.moves
    rw [Ledger.depth_inside_none, inner.depth_outside] at begun
    refine (((tidy.behind rfl).alone free).append others).reset rfl rfl ?_
    exact ((begun.append (Attr.moves_lines? made 0)).append level).isSome

-- Lists are made empty before they are used.
theorem tidy (written : Written options passage l lines r) : Tidy passage.free lines := by
  induction written with
  | noNodes => exact .nil
  | moreNodes _ _ head tail => exact head.append tail
  | file _ ih => exact ih
  | blank => exact .nil
  | field => exact .single fun _ => id
  | value => exact .single fun _ => id
  | script block ih =>
    refine block.tidy_attributed ih (.single ?_) (.line (fun _ => rfl) 0)
    simp [Line.mentions, Passage.free]
  | statement _ stated => exact .unused fun line member => (Tag.isPlain_statement? stated line member).mentions
  | template _ _ inner ih =>
    have level := inner.moves
    rw [Ledger.depth_inside_none, inner.depth_outside] at level
    refine ((ih.alone _).append (.single ?_)).reset rfl rfl ?_
    · simp [Line.mentions]
    · exact (level.append (.line (fun _ => rfl) 0)).isSome
  | controlled _ _ ih => exact ih
  | closed _ _ block ending ih =>
    refine block.tidy_attributed ih (.single ?_) (.line (level_ending ending) 0)
    simp [ending.mentions, Passage.free]
  | single _ _ _ _ block ending _ ih =>
    refine block.tidy_attributed ih (.single ?_) (.line (level_ending ending) 0)
    simp [ending.mentions, Passage.free]
  | @full sink identity _ _ _ l _ _ lines _ last _ _ _ _ inner block ending below ih =>
    have level := inner.moves
    rw [Ledger.depth_inside_none, inner.depth_outside] at level
    have ends : Line.Moves (lines ++ [last]) 0 0 := level.append (.line (level_ending ending) 0)
    have children : Tidy (.children identity :: .attrs l.nextFragment :: [.children sink]) (lines ++ [last]) := by
      refine Tidy.append (Tidy.alone below _) (.single ?_)
      simp [ending.mentions]
    have whole : Tidy (.attrs l.nextFragment :: [.children sink]) (.resetChildren identity :: (lines ++ [last])) :=
      children.reset rfl rfl ends.isSome
    rw [List.append_assoc]
    exact block.tidy_attributed ih whole ((Line.Moves.line (fun _ => rfl) 0).append ends)
  | attrs _ made ih =>
    refine (Tidy.cons rfl ih).append (.known fun line member => ?_)
    obtain ⟨_, _, rfl⟩ := Attr.eq_of_mem_lines? made line member
    exact fun _ => id
  | noCopies => exact .nil
  | moreCopies _ _ head tail => exact head.append tail
  | copiedAttr => exact .single fun _ => id
  | copiedControl _ _ ih => exact ih
  | ignored => exact .nil
  | childless => exact .nil
  | guarded _ opened _ ih =>
    exact (Tidy.cons (Tag.level_opening? opened).1 ih).append (.cons rfl .nil)
  | switch _ ih =>
    split
    · exact ih.append (.cons rfl .nil)
    · exact ih
  | case _ _ _ ih =>
    refine Tidy.cons ?_ ih
    split <;> rfl
  | default _ _ ih =>
    split
    · exact Tidy.cons rfl ih
    · exact ih

end Written

def Slot.attrs? : Slot → Option Nat
  | .attrs number => some number
  | _ => none

def Slot.children? : Slot → Option Nat
  | .children number => some number
  | _ => none

namespace Line

-- The numbers of the lists that are made empty, in order.

def attrResets (lines : List Line) : List Nat := lines.filterMap fun line => line.reset?.bind Slot.attrs?

def childResets (lines : List Line) : List Nat := lines.filterMap fun line => line.reset?.bind Slot.children?

@[simp] theorem attrResets_append (front back : List Line) :
    attrResets (front ++ back) = attrResets front ++ attrResets back := List.filterMap_append

@[simp] theorem childResets_append (front back : List Line) :
    childResets (front ++ back) = childResets front ++ childResets back := List.filterMap_append

theorem attrResets_plain {lines : List Line} (plain : ∀ line ∈ lines, line.reset? = none) : attrResets lines = [] :=
  List.filterMap_eq_nil_iff.mpr fun line member => by rw [plain line member]; rfl

theorem childResets_plain {lines : List Line} (plain : ∀ line ∈ lines, line.reset? = none) : childResets lines = [] :=
  List.filterMap_eq_nil_iff.mpr fun line member => by rw [plain line member]; rfl

theorem attrResets_cons {line : Line} (plain : line.reset? = none) (rest : List Line) :
    attrResets (line :: rest) = attrResets rest := by
  simp [attrResets, plain]

theorem childResets_cons {line : Line} (plain : line.reset? = none) (rest : List Line) :
    childResets (line :: rest) = childResets rest := by
  simp [childResets, plain]

end Line

theorem Attr.reset_lines? {attrsOf : Nat} {attrs : List Attr} {lines : List Line}
    (made : lines? attrsOf attrs = some lines) : ∀ line ∈ lines, line.reset? = none := by
  intro line member
  obtain ⟨_, _, rfl⟩ := eq_of_mem_lines? made line member
  rfl

theorem Ending.reset {identity sink attrsOf : Nat} {name : String} {childrenOf : Option Nat} {last : Line}
    (ending : Ending identity sink attrsOf name childrenOf last) : last.reset? = none := by
  cases ending <;> rfl

namespace Passage

def identities : Passage → List Nat
  | .node _ outline => Sketch.allIdentities (Outline.flat outline)
  | .nodes _ outlines => Sketch.allIdentities (Outline.flatten outlines)
  | .control _ _ body => body.identities
  | _ => []

theorem identities_node {sink : Nat} {item : Item} {children : List Outline} :
    identities (.node sink (.node item children)) =
      item.identity :: Sketch.allIdentities (Outline.flatten children) := by
  simp [identities, Outline.flat, Sketch.allIdentities, Sketch.identities]

-- The list of attributes that a passage makes empty at its beginning.
def opened : Passage → List Nat
  | .attrs attrsOf _ _ => [attrsOf]
  | .control _ _ body => body.opened
  | _ => []

theorem opened_of_isEmpty {passage : Passage} (empty : passage.isEmpty = true) : passage.opened = [] := by
  cases passage with
  | nodes sink outlines => rfl
  | copies attrsOf sketches => rfl
  | _ => cases empty

end Passage

-- Numbers that were taken one after another, behind those of a passage itself.
structure Numbered (own : List Nat) (start stop : Nat) (found taken : List Nat) : Prop where
  grows : start ≤ stop
  found : found = own ++ taken
  distinct : taken.Nodup
  among : ∀ number ∈ taken, start ≤ number ∧ number < stop

namespace Numbered

variable {own found others taken more : List Nat} {start middle stop : Nat}

theorem nil (number : Nat) : Numbered [] number number [] [] := ⟨Nat.le_refl _, rfl, List.nodup_nil, nofun⟩

theorem append (first : Numbered own start middle found taken) (second : Numbered [] middle stop others more) :
    Numbered own start stop (found ++ others) (taken ++ more) := by
  obtain ⟨grows, rfl, distinct, among⟩ := first
  obtain ⟨later, rfl, apart, behind⟩ := second
  refine ⟨Nat.le_trans grows later, by simp, List.nodup_append.mpr ⟨distinct, apart, ?_⟩, ?_⟩
  · intro one left other right same
    have below := among one left
    have above := behind other right
    omega
  · intro number member
    rcases List.mem_append.mp member with left | right
    · have below := among number left
      omega
    · have above := behind number right
      omega

-- A tag takes its number before its children take theirs, and its attributes are written after them.
theorem tag {number : Nat} (block : Numbered [number] middle stop found taken)
    (below : Numbered [] (number + 1) middle others more) :
    Numbered [] number stop (found ++ others) (number :: taken ++ more) := by
  obtain ⟨later, rfl, distinct, among⟩ := block
  obtain ⟨grows, rfl, apart, behind⟩ := below
  refine ⟨by omega, by simp, ?_, ?_⟩
  · refine List.nodup_cons.mpr ⟨?_, List.nodup_append.mpr ⟨distinct, apart, ?_⟩⟩
    · intro member
      rcases List.mem_append.mp member with left | right
      · have above := among number left
        omega
      · have above := behind number right
        omega
    · intro one left other right same
      have above := among one left
      have below := behind other right
      omega
  · intro other member
    rcases List.mem_cons.mp member with rfl | member
    · omega
    · rcases List.mem_append.mp member with left | right
      · have above := among other left
        omega
      · have above := behind other right
        omega

end Numbered

namespace Written

variable {options : Options} {passage : Passage} {l r : Ledger} {lines : List Line}

-- Only nodes make lists of children empty, each at most its own.
theorem childResets (written : Written options passage l lines r) :
    (Line.childResets lines).Sublist passage.identities := by
  induction written with
  | noNodes => exact List.nil_sublist _
  | moreNodes _ _ head tail =>
    rw [Line.childResets_append, Passage.identities, Outline.flatten, Sketch.allIdentities_append]
    exact head.append tail
  | file _ ih => exact ih
  | blank => exact List.nil_sublist _
  | field => exact List.nil_sublist _
  | value => exact List.nil_sublist _
  | script _ ih =>
    rw [Line.childResets_append, List.sublist_nil.mp ih]
    exact List.nil_sublist _
  | statement _ stated =>
    rw [Line.childResets_plain fun line member => (Tag.isPlain_statement? stated line member).reset]
    exact List.nil_sublist _
  | @template _ identity _ _ _ _ _ lines _ _ _ _ ih =>
    rw [Line.childResets_append, Passage.identities_node]
    show (identity :: Line.childResets lines ++ []).Sublist _
    rw [List.append_nil]
    exact ih.cons_cons _
  | controlled _ _ ih =>
    rw [Passage.identities_node]
    exact ih.cons _
  | closed _ _ _ ending ih =>
    rw [Line.childResets_append, List.sublist_nil.mp ih, Line.childResets_cons ending.reset]
    exact List.nil_sublist _
  | single _ _ _ _ _ ending _ ih =>
    rw [Line.childResets_append, List.sublist_nil.mp ih, Line.childResets_cons ending.reset]
    exact List.nil_sublist _
  | @full _ identity _ _ _ _ _ _ lines _ _ _ _ _ _ _ _ ending below ih =>
    rw [Line.childResets_append, Line.childResets_append, List.sublist_nil.mp ih, Line.childResets_cons ending.reset,
      Passage.identities_node]
    show (identity :: Line.childResets lines ++ []).Sublist _
    rw [List.append_nil]
    exact below.cons_cons _
  | attrs _ made ih =>
    rw [Line.childResets_append, Line.childResets_plain (Attr.reset_lines? made), List.append_nil]
    exact ih
  | noCopies => exact List.nil_sublist _
  | moreCopies _ _ head tail =>
    rw [Line.childResets_append]
    exact head.append tail
  | copiedAttr => exact List.nil_sublist _
  | copiedControl _ _ ih => exact ih
  | ignored => exact List.nil_sublist _
  | childless => exact List.nil_sublist _
  | guarded _ opened _ ih =>
    rw [Line.childResets_append, Line.childResets_cons (Tag.level_opening? opened).2.1]
    exact (List.append_nil _).symm ▸ ih
  | switch _ ih =>
    split
    · rw [Line.childResets_append]
      exact (List.append_nil _).symm ▸ ih
    · exact ih
  | case _ _ _ ih =>
    rw [Line.childResets_cons (by split <;> rfl)]
    exact ih
  | default _ _ ih =>
    split
    · exact ih
    · exact ih

-- Each list of attributes that is made empty has a number of its own.
theorem attrResets (written : Written options passage l lines r) :
    ∃ taken, Numbered passage.opened l.nextFragment r.nextFragment (Line.attrResets lines) taken := by
  induction written with
  | noNodes => exact ⟨[], .nil _⟩
  | moreNodes _ _ head tail =>
    obtain ⟨one, first⟩ := head
    obtain ⟨two, second⟩ := tail
    rw [Line.attrResets_append]
    exact ⟨_, first.append second⟩
  | file _ ih => exact ih
  | blank => exact ⟨[], .nil _⟩
  | field => exact ⟨[], .nil _⟩
  | value => exact ⟨[], .nil _⟩
  | script _ ih =>
    obtain ⟨taken, block⟩ := ih
    rw [Line.attrResets_append]
    exact ⟨_, block.tag (.nil _)⟩
  | statement _ stated marks =>
    rw [Line.attrResets_plain fun line member => (Tag.isPlain_statement? stated line member).reset, marks.nextFragment]
    exact ⟨[], .nil _⟩
  | template _ _ _ ih =>
    obtain ⟨taken, below⟩ := ih
    rw [Line.attrResets_append]
    exact ⟨_, below.append (.nil _)⟩
  | controlled _ _ ih => exact ih
  | closed _ _ _ ending ih =>
    obtain ⟨taken, block⟩ := ih
    rw [Line.attrResets_append, Line.attrResets_cons ending.reset]
    exact ⟨_, block.tag (.nil _)⟩
  | single _ _ _ _ _ ending below ih =>
    obtain ⟨taken, block⟩ := ih
    obtain ⟨_, under⟩ := below
    rw [Line.attrResets_append, Line.attrResets_cons ending.reset]
    exact ⟨_, block.tag ⟨under.grows, rfl, List.nodup_nil, nofun⟩⟩
  | full _ _ _ _ _ ending below ih =>
    obtain ⟨taken, block⟩ := ih
    obtain ⟨more, under⟩ := below
    rw [Line.attrResets_append, Line.attrResets_append, Line.attrResets_cons ending.reset]
    exact ⟨_, (block.tag under).append (.nil _)⟩
  | attrs _ made ih =>
    obtain ⟨taken, held⟩ := ih
    rw [Line.attrResets_append, Line.attrResets_plain (Attr.reset_lines? made), List.append_nil]
    exact ⟨taken, held.grows, congrArg (_ :: ·) held.found, held.distinct, held.among⟩
  | noCopies => exact ⟨[], .nil _⟩
  | moreCopies _ _ head tail =>
    obtain ⟨one, first⟩ := head
    obtain ⟨two, second⟩ := tail
    rw [Line.attrResets_append]
    exact ⟨_, first.append second⟩
  | copiedAttr => exact ⟨[], .nil _⟩
  | copiedControl _ _ ih => exact ih
  | ignored => exact ⟨[], .nil _⟩
  | childless empty _ _ ih =>
    obtain ⟨_, below⟩ := ih
    rw [Passage.opened, Passage.opened_of_isEmpty empty]
    exact ⟨[], below.grows, rfl, List.nodup_nil, nofun⟩
  | guarded _ opened _ ih =>
    obtain ⟨taken, below⟩ := ih
    rw [Line.attrResets_append, Line.attrResets_cons (Tag.level_opening? opened).2.1]
    exact ⟨_, below.append (.nil _)⟩
  | switch _ ih =>
    obtain ⟨taken, below⟩ := ih
    split
    · rw [Line.attrResets_append]
      exact ⟨_, below.append (.nil _)⟩
    · exact ⟨taken, below⟩
  | case _ _ _ ih =>
    rw [Line.attrResets_cons (by split <;> rfl)]
    exact ih
  | default _ _ ih =>
    split
    · exact ih
    · exact ih

end Written

end Stencil
