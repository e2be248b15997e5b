import Stencil.Proofs.Inlining
import Stencil.Proofs.WellFormed
import Stencil.Proofs.Written

-- The names that a template assigns, read off its nodes. The scope at the end of a compilation holds exactly these
-- names, in whatever order the walk comes to them: what a fragment assigns is assigned by the nodes that it copies.

namespace Stencil

namespace Scope

theorem isLocal_foldl (names : List String) (s : Scope) (name : String) :
    (names.foldl promote s).isLocal name = true ↔ s.isLocal name = true ∨ name ∈ names := by
  induction names generalizing s with
  | nil => simp
  | cons first rest ih =>
    rw [List.foldl_cons, ih, isLocal_promote, Bool.or_eq_true, beq_iff_eq, List.mem_cons]
    rw [or_assoc, or_left_comm]

end Scope

theorem Tag.isEntered_control {tag : Tag} {kind : Control} {flow : Flow}
    (named : TagKind.ofName? tag.name = some (.control kind flow)) : tag.isEntered = true := by
  simp [isEntered, named]

namespace Node

mutual

-- The names that a node assigns, with those of the nodes below it that are visited.
def assigned : Node → List String
  | .leaf _ _ _ => []
  | .tag _ own children _ => own.assigned children.isEmpty ++ if own.isEntered then allAssigned children else []

def allAssigned : List Node → List String
  | [] => []
  | first :: rest => assigned first ++ allAssigned rest

end

theorem allAssigned_append (front back : List Node) :
    allAssigned (front ++ back) = allAssigned front ++ allAssigned back := by
  induction front with
  | nil => rfl
  | cons first rest ih => rw [List.cons_append, allAssigned, ih, allAssigned, List.append_assoc]

end Node

namespace Sketch

mutual

-- The names that a copy in a fragment binds.
def bindings : Sketch → List String
  | .node ⟨_, .tag tag, _⟩ children =>
    match TagKind.ofName? tag.name with
    | some (.control kind .applied) => (if children.isEmpty then [] else tag.binds kind) ++ allBindings children
    | _ => []
  | .node ⟨_, .leaf _, _⟩ _ => []

def allBindings : List Sketch → List String
  | [] => []
  | first :: rest => bindings first ++ allBindings rest

end

theorem allBindings_append (front back : List Sketch) :
    allBindings (front ++ back) = allBindings front ++ allBindings back := by
  induction front with
  | nil => rfl
  | cons first rest ih => rw [List.cons_append, allBindings, ih, allBindings, List.append_assoc]

theorem bindings_of_not_applied {identity : Nat} {tag : Tag} {location : Location} {children : List Sketch}
    (other : tag.isApplied = false) : bindings (.node ⟨identity, .tag tag, location⟩ children) = [] := by
  unfold bindings
  split
  · simp_all [Tag.isApplied]
  · rfl

theorem isEmpty_plains (sketches : List Sketch) : (plains sketches).isEmpty = sketches.isEmpty := by
  cases sketches <;> rfl

mutual

-- A fragment binds no name that the nodes it copies do not assign.
theorem bindings_copy : ∀ {sketch : Sketch} {name : String},
    name ∈ allBindings (copy sketch) → name ∈ Node.assigned (plain sketch)
  | .node ⟨identity, .tag tag, location⟩ children, name, bound => by
    unfold copy at bound
    split at bound
    · rename_i kind control
      have applied := TagKind.ofName?_applied_control control
      simp only [allBindings, bindings, applied, List.append_nil, List.mem_append] at bound
      simp only [plain, Node.assigned, Tag.assigned, control, Tag.isEntered_control control, if_true, List.mem_append,
        isEmpty_plains]
      rcases bound with own | below
      · cases children with
        | nil => simp [copies] at own
        | cons first rest =>
          left
          split at own
          · cases own
          · exact own
      · exact .inr (bindings_copies below)
    · rename_i kind control
      simp only [plain, Node.assigned, Tag.isEntered_control control, if_true, List.mem_append]
      exact .inr (bindings_copies bound)
    · rename_i control
      have applied := TagKind.ofName?_applied_attr control
      simp [allBindings, bindings, applied] at bound
    · simp [allBindings] at bound
  | .node ⟨_, .leaf _, _⟩ _, _, bound => by simp [copy, allBindings] at bound

theorem bindings_copies : ∀ {sketches : List Sketch} {name : String},
    name ∈ allBindings (copies sketches) → name ∈ Node.allAssigned (plains sketches)
  | [], _, bound => by simp [copies, allBindings] at bound
  | first :: rest, name, bound => by
    rw [copies, allBindings_append, List.mem_append] at bound
    rw [plains, Node.allAssigned, List.mem_append]
    exact bound.imp (bindings_copy) (bindings_copies)

end

end Sketch

namespace Passage

-- The names that a passage assigns.
def assigned : Passage → List String
  | .node _ outline => Node.allAssigned (Sketch.plains (Outline.flat outline))
  | .nodes _ outlines => Node.allAssigned (Sketch.plains (Outline.flatten outlines))
  | .copy _ sketch => sketch.bindings
  | .copies _ sketches => Sketch.allBindings sketches
  | .control kind tag body => (if body.isEmpty then [] else tag.binds kind) ++ body.assigned
  | .attrs _ held _ => Sketch.allBindings held

theorem assigned_tag {sink identity : Nat} {tag : Tag} {location : Location}
    {children : List Outline} : assigned (.node sink (.node ⟨identity, .tag tag, location⟩ children)) =
      tag.assigned (Outline.flatten children).isEmpty ++
        if tag.isEntered then Node.allAssigned (Sketch.plains (Outline.flatten children)) else [] := by
  simp [assigned, Outline.flat, Sketch.plains, Sketch.plain, Node.allAssigned, Node.assigned, Sketch.isEmpty_plains]

end Passage

-- The fragment of a tag assigns nothing that its children do not.
theorem Passage.isLocal_open {sink identity attrsOf : Nat} {tag : Tag} {location : Location} {children : List Outline}
    {name : String} {before middle after : Prop} (named : TagKind.ofName? tag.name = none)
    (opened : tag.selfClosing = false)
    (below : middle ↔ before ∨ name ∈ (Passage.nodes identity children).assigned)
    (block : after ↔ middle ∨
      name ∈ (Passage.attrs attrsOf (Sketch.copies (Outline.flatten children)) tag.attrs).assigned) :
    after ↔ before ∨ name ∈ (Passage.node sink (.node ⟨identity, .tag tag, location⟩ children)).assigned := by
  have entered : tag.isEntered = true := by simp [Tag.isEntered, named, opened]
  rw [block, below, Passage.assigned_tag, entered]
  simp only [Passage.assigned, Tag.assigned, named, if_true, List.nil_append]
  constructor
  · rintro ((known | assigned) | bound)
    · exact .inl known
    · exact .inr assigned
    · exact .inr (Sketch.bindings_copies bound)
  · exact .inl

-- The scope grows by the names that are assigned.
theorem Written.isLocal {options : Options} {passage : Passage} {l r : Ledger} {lines : List Line}
    (written : Written options passage l lines r) (name : String) :
    r.scope.isLocal name = true ↔ l.scope.isLocal name = true ∨ name ∈ passage.assigned := by
  induction written with
  | noNodes => simp [Passage.assigned, Outline.flatten, Sketch.plains, Node.allAssigned]
  | moreNodes _ _ head tail =>
    rw [tail, head]
    simp [Passage.assigned, Outline.flatten, Sketch.plains_append, Node.allAssigned_append, or_assoc]
  | file _ ih => exact ih
  | blank => simp [Passage.assigned, Outline.flat, Sketch.plains, Sketch.plain, Node.allAssigned, Node.assigned]
  | field => simp [Passage.assigned, Outline.flat, Sketch.plains, Sketch.plain, Node.allAssigned, Node.assigned]
  | value => simp [Passage.assigned, Outline.flat, Sketch.plains, Sketch.plain, Node.allAssigned, Node.assigned]
  | script _ ih =>
    rw [ih]
    simp [Passage.assigned, Outline.flat, Sketch.plains, Sketch.plain, Node.allAssigned, Node.assigned,
      Sketch.allBindings, Ledger.taken]
  | @statement _ _ tag _ _ _ _ _ kind named stated marks =>
    have closed : tag.isEntered = false := by
      cases kind <;> simp_all [Tag.isEntered, Tag.statement?]
    rw [marks.scope, Ledger.assign, Scope.isLocal_foldl, Passage.assigned_tag, closed]
    simp
  | @template _ _ tag _ _ _ _ _ _ named _ _ ih =>
    have entered : tag.isEntered = true := by simp [Tag.isEntered, named]
    rw [Ledger.assign, Scope.isLocal_foldl, Passage.assigned_tag, entered]
    simp only [Ledger.inside] at ih ⊢
    rw [ih]
    simp only [Tag.assigned, named, Passage.assigned, if_true, List.mem_append]
    rw [or_assoc, or_comm (a := name ∈ tag.bound _)]
  | controlled named _ ih =>
    rw [ih, Passage.assigned_tag]
    simp [Passage.assigned, Passage.isEmpty, Tag.assigned, Tag.isEntered, named]
  | closed named closing _ _ ih => 
    rw [ih, Passage.assigned_tag]
    simp [Passage.assigned, Tag.assigned, Tag.isEntered, named, closing, Sketch.allBindings, Ledger.taken]
  | single named closing _ _ _ _ below block => exact Passage.isLocal_open named closing below block
  | full named closing _ _ _ _ below block => exact Passage.isLocal_open named closing below block
  | attrs _ _ ih => exact ih
  | noCopies => simp [Passage.assigned, Sketch.allBindings]
  | moreCopies _ _ head tail =>
    rw [tail, head]
    simp [Passage.assigned, Sketch.allBindings, or_assoc]
  | copiedAttr named => simp [Passage.assigned, Sketch.bindings, named]
  | copiedControl named _ ih =>
    rw [ih]
    simp [Passage.assigned, Passage.isEmpty, Sketch.bindings, named]
  | @ignored _ _ content _ _ _ other =>
    cases content with
    | leaf leaf => simp [Passage.assigned, Sketch.bindings]
    | tag tag =>
      simp [Passage.assigned, Sketch.bindings_of_not_applied (other tag rfl)]
  | childless empty _ _ ih =>
    simp only [Ledger.inside, Passage.assigned, empty] at ih ⊢
    simpa using ih
  | guarded full _ _ ih =>
    rw [Ledger.assign, Scope.isLocal_foldl]
    simp only [Ledger.inside, Passage.assigned, full] at ih ⊢
    rw [ih]
    simp only [Bool.false_eq_true, if_false, List.mem_append]
    rw [or_assoc, or_comm (a := name ∈ Passage.assigned _)]
  | switch _ ih =>
    simp only [Ledger.inside, Passage.assigned, Tag.binds] at ih ⊢
    simpa using ih
  | case _ _ _ ih =>
    simp only [Ledger.inside, Passage.assigned, Tag.binds] at ih ⊢
    simpa using ih
  | default _ _ ih =>
    simp only [Ledger.inside, Passage.assigned, Tag.binds] at ih ⊢
    simpa using ih

-- The place where a stored variable lies.
def Code.place (name : String) : Code := Code.concat [Code.root name, "[", Text.quoted name, "]"]

def Line.Assigns (name : String) : Line → Prop
  | .assign target _ => target = .place name
  | .keepChildren target _ => target = .place name
  | .useState target _ _ => target = .place name
  | .openLoop _ binding => binding.key = some (.place name) ∨ binding.item = .place name
  | _ => False

theorem Expr.varCode_bare {root : Code} {name : String} (stored : Expr.isReserved name = false) :
    varCode root name [] = Code.concat [root, "[", Text.quoted name, "]"] := by
  simp only [isReserved, Bool.or_eq_false_iff, decide_eq_false_iff_not] at stored
  obtain ⟨⟨children, yes⟩, no⟩ := stored
  simp [varCode, children, yes, no]

-- A part that makes a name local is the place of the variable of that name.
theorem Part.place_of_bound? {p : Part} {name : String} {code : Code} (bound : p.bound? = some name)
    (emitted : p.asTarget.emit? (.target true) = some code) : code = .place name := by
  have bare : p.asTarget = .var name [] ∧ Expr.isReserved name = false := by
    rw [← promoted?_asTarget] at bound
    unfold Expr.promoted? at bound
    split at bound
    · rename_i found
      split at bound
      · cases bound
      · cases bound
        exact ⟨Expr.eq_of_bare? found, Bool.eq_false_iff.mpr ‹_›⟩
    · cases bound
  rw [bare.1] at emitted
  simp only [Expr.emit?, Expr.code?, Expr.codes?, Option.bind_eq_bind, Option.bind_some,
    Option.some.injEq, Expr.varCode_bare bare.2] at emitted
  exact emitted.symm

namespace Tag

-- A single tag that is not self-closing: its children are visited, but their lines are not written.
def isDropped (options : Options) (tag : Tag) : Bool :=
  (TagKind.ofName? tag.name).isNone && !tag.selfClosing && Walk.isSingle options tag

theorem place_of_mem_bound {tag : Tag} {param name : String} {code : Code} (bound : name ∈ tag.bound [param])
    (placed : tag.place? (.target true) param = some code) : code = .place name := by
  obtain ⟨p, named, emitted⟩ := Option.bind_eq_some_iff.mp placed
  rw [bound_singleton named, Option.mem_toList] at bound
  exact Part.place_of_bound? bound emitted

-- The opening line of a loop assigns what the loop binds.
theorem opening?_assigns {tag : Tag} {kind : Control} {opening : Line} {name : String}
    (opened : tag.opening? kind = some opening) (bound : name ∈ tag.binds kind) : opening.Assigns name := by
  cases kind with
  | loop =>
    simp only [opening?, Option.bind_eq_bind, Option.bind_eq_some_iff, Option.some.injEq] at opened
    obtain ⟨source, _, binding, found, rfl⟩ := opened
    simp only [binding?, Option.bind_eq_bind, Option.bind_eq_some_iff] at found
    obtain ⟨item, placed, found⟩ := found
    simp only [binds, Tag.bound, List.flatMap_cons, List.flatMap_nil, List.append_nil, List.mem_append] at bound
    cases key : tag.param? "key" with
    | none =>
      simp only [key, Option.some.injEq] at found bound
      subst found
      refine .inr (place_of_mem_bound ?_ placed)
      simpa [Tag.bound] using bound
    | some part =>
      simp only [key, Option.bind_eq_some_iff, Option.some.injEq] at found bound
      obtain ⟨code, emitted, rfl⟩ := found
      rcases bound with first | second
      · exact .inl (congrArg some (Part.place_of_bound? (Option.mem_toList.mp first) emitted))
      · refine .inr (place_of_mem_bound ?_ placed)
        simpa [Tag.bound] using second
  | _ => cases bound

theorem statement?_assigns {options : Options} {tag : Tag} {kind : TagKind} {isChildless : Bool} {lines : List Line}
    {name : String} (named : TagKind.ofName? tag.name = some kind) (stated : tag.statement? options kind = some lines)
    (assigned : name ∈ tag.assigned isChildless) : ∃ line ∈ lines, line.Assigns name := by
  cases kind with
  | assignment =>
    simp only [statement?, Option.bind_eq_bind, Option.bind_eq_some_iff, Option.some.injEq] at stated
    obtain ⟨target, placed, value, _, rfl⟩ := stated
    simp only [Tag.assigned, named] at assigned
    exact ⟨_, List.mem_singleton_self _, place_of_mem_bound assigned placed⟩
  | state =>
    simp only [statement?, Option.bind_eq_bind, Option.bind_eq_some_iff, Option.some.injEq] at stated
    obtain ⟨target, placed, stored, _, initial, _, rfl⟩ := stated
    simp only [Tag.assigned, named] at assigned
    split at assigned
    · exact ⟨_, List.mem_singleton_self _, place_of_mem_bound assigned placed⟩
    · cases assigned
  | attr flow => simp [Tag.assigned, named] at assigned
  | control control flow => cases stated
  | _ => simp [Tag.assigned, named, statement?] at assigned stated

end Tag

namespace Sketch

mutual

-- The names that are assigned where the lines are written. Of the children of a single tag only the fragment is.
def kept (options : Options) : Sketch → List String
  | .node ⟨_, .tag tag, _⟩ children =>
    tag.assigned children.isEmpty ++
      if tag.isDropped options then allBindings (copies children)
      else if tag.isEntered then allKept options children else []
  | .node ⟨_, .leaf _, _⟩ _ => []

def allKept (options : Options) : List Sketch → List String
  | [] => []
  | first :: rest => kept options first ++ allKept options rest

end

theorem allKept_append (options : Options) (front back : List Sketch) :
    allKept options (front ++ back) = allKept options front ++ allKept options back := by
  induction front with
  | nil => rfl
  | cons first rest ih => rw [List.cons_append, allKept, ih, allKept, List.append_assoc]

end Sketch

namespace Passage

def kept (options : Options) : Passage → List String
  | .node _ outline => Sketch.allKept options (Outline.flat outline)
  | .nodes _ outlines => Sketch.allKept options (Outline.flatten outlines)
  | .control kind tag body => (if body.isEmpty then [] else tag.binds kind) ++ body.kept options
  | .copy _ sketch => sketch.bindings
  | .copies _ sketches => Sketch.allBindings sketches
  | .attrs _ held _ => Sketch.allBindings held

theorem kept_of_isEmpty {options : Options} {passage : Passage} (empty : passage.isEmpty = true) :
    passage.kept options = [] := by
  cases passage with
  | nodes sink outlines =>
    rw [isEmpty, List.isEmpty_iff] at empty
    rw [kept, empty]
    rfl
  | copies attrsOf sketches =>
    rw [isEmpty, List.isEmpty_iff] at empty
    rw [kept, empty]
    rfl
  | _ => cases empty

theorem kept_tag {options : Options} {sink identity : Nat} {tag : Tag} {location : Location}
    {children : List Outline} : kept options (.node sink (.node ⟨identity, .tag tag, location⟩ children)) =
      tag.assigned (Outline.flatten children).isEmpty ++
        if tag.isDropped options then Sketch.allBindings (Sketch.copies (Outline.flatten children))
        else if tag.isEntered then Sketch.allKept options (Outline.flatten children) else [] := by
  simp [kept, Outline.flat, Sketch.allKept, Sketch.kept]

end Passage

-- Some line assigns the name.
def Line.Assigned (name : String) (lines : List Line) : Prop := ∃ line ∈ lines, line.Assigns name

theorem Line.Assigned.mono {name : String} {lines others : List Line} (assigned : Assigned name lines)
    (all : lines ⊆ others) : Assigned name others := by
  obtain ⟨line, member, assigns⟩ := assigned
  exact ⟨line, all member, assigns⟩

-- A name that is assigned where the lines are written is assigned by one of the lines.
theorem Written.assigns {options : Options} {passage : Passage} {l r : Ledger} {lines : List Line} {name : String}
    (written : Written options passage l lines r) (assigned : name ∈ passage.kept options) :
    Line.Assigned name lines := by
  induction written with
  | noNodes => cases assigned
  | moreNodes _ _ head tail =>
    simp only [Passage.kept, Outline.flatten, Sketch.allKept_append, List.mem_append] at assigned
    rcases assigned with first | others
    · exact (head first).mono (List.subset_append_left _ _)
    · exact (tail others).mono (List.subset_append_right _ _)
  | file _ ih => exact ih assigned
  | blank => cases assigned
  | field => cases assigned
  | value => cases assigned
  | script => cases assigned
  | @statement _ _ tag _ _ _ _ _ kind named stated marks =>
    have written : tag.isDropped options = false := by simp [Tag.isDropped, named]
    have closed : tag.isEntered = false := by
      cases kind <;> simp_all [Tag.isEntered, Tag.statement?]
    rw [Passage.kept_tag, written, closed] at assigned
    simp only [Bool.false_eq_true, if_false, List.append_nil] at assigned
    exact Tag.statement?_assigns named stated assigned
  | @template _ identity tag _ _ _ _ _ target named placed _ ih =>
    have written : tag.isDropped options = false := by simp [Tag.isDropped, named]
    have entered : tag.isEntered = true := by simp [Tag.isEntered, named]
    rw [Passage.kept_tag, written, entered] at assigned
    simp only [Tag.assigned, named, Bool.false_eq_true, if_false, if_true, List.mem_append] at assigned
    rcases assigned with own | below
    · exact ⟨.keepChildren target identity, by simp, Tag.place_of_mem_bound own placed⟩
    · exact (ih below).mono (by simp)
  | controlled named _ ih =>
    refine ih ?_
    rw [Passage.kept_tag] at assigned
    simpa [Passage.kept, Passage.isEmpty, Tag.assigned, Tag.isDropped, Tag.isEntered, named] using assigned
  | closed named closing =>
    rw [Passage.kept_tag] at assigned
    simp [Tag.assigned, Tag.isDropped, Tag.isEntered, named, closing] at assigned
  | single named opened single _ _ _ _ block =>
    rw [Passage.kept_tag] at assigned
    simp only [Tag.assigned, Tag.isDropped, named, opened, single, List.nil_append] at assigned
    exact (block assigned).mono (List.subset_append_left _ _)
  | full named opened single _ _ _ below =>
    rw [Passage.kept_tag] at assigned
    refine (below ?_).mono fun line member => by simp [member]
    simpa [Passage.kept, Tag.assigned, Tag.isDropped, Tag.isEntered, named, opened, single] using assigned
  | attrs _ _ ih => exact (ih assigned).mono (by simp)
  | noCopies => cases assigned
  | moreCopies _ _ head tail =>
    simp only [Passage.kept, Sketch.allBindings, List.mem_append] at assigned
    rcases assigned with first | others
    · exact (head first).mono (List.subset_append_left _ _)
    · exact (tail others).mono (List.subset_append_right _ _)
  | copiedAttr named => simp [Passage.kept, Sketch.bindings, named] at assigned
  | copiedControl named _ ih =>
    refine ih ?_
    simpa [Passage.kept, Passage.isEmpty, Sketch.bindings, named] using assigned
  | @ignored _ _ content _ _ _ other =>
    cases content with
    | leaf leaf => cases assigned
    | tag tag =>
      rw [Passage.kept, Sketch.bindings_of_not_applied (other tag rfl)] at assigned
      cases assigned
  | childless empty =>
    rw [Passage.kept, empty, Passage.kept_of_isEmpty empty] at assigned
    cases assigned
  | guarded filled opened _ ih =>
    rw [Passage.kept, filled] at assigned
    rcases List.mem_append.mp assigned with own | below
    · exact ⟨_, List.mem_cons_self, Tag.opening?_assigns opened own⟩
    · exact (ih below).mono (by simp)
  | switch _ ih =>
    rw [Passage.kept] at assigned
    refine (ih (by simpa [Tag.binds] using assigned)).mono ?_
    split <;> simp
  | case _ _ _ ih =>
    rw [Passage.kept] at assigned
    exact (ih (by simpa [Tag.binds] using assigned)).mono (List.subset_cons_self _ _)
  | default _ _ ih =>
    rw [Passage.kept] at assigned
    refine (ih (by simpa [Tag.binds] using assigned)).mono ?_
    split <;> simp

end Stencil
