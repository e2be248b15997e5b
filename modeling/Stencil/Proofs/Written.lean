import Stencil.Proofs.Refinement

-- What a draft that succeeds has written. A draft is taken apart once, into rules that say for each construct which
-- lines it writes from which, and how it leaves the ledger. Properties of the generated code are proved by induction on
-- these rules.

namespace Stencil

namespace Part

-- The expression that a part stands for as a target: fixed text means the variable of that name.
def asTarget : Part → Expr
  | .literal text => .var text []
  | .expression e => e

-- The name that a part makes local as the target of an assignment: fixed text, or a variable without keys.
def bound? : Part → Option String
  | .literal text => if Expr.isReserved text then none else some text
  | .expression e => e.bare?.filter fun name => !Expr.isReserved name

theorem promoted?_asTarget (p : Part) : p.asTarget.promoted? (.target true) = p.bound? := by
  cases p with
  | literal text => rfl
  | expression e =>
    simp only [asTarget, Expr.promoted?, bound?]
    cases e.bare? with
    | none => rfl
    | some name => cases reserved : Expr.isReserved name <;> simp [reserved, Option.filter]

def operand? (context : Expr.Context) : Part → Option Operand
  | .literal text => some (.text text)
  | .expression e => (e.emit? context).map .computed

end Part

namespace Tag

def param? (tag : Tag) (name : String) : Option Part := Attr.param? tag.attrs name

theorem mem_of_param? {tag : Tag} {name : String} {p : Part} (found : tag.param? name = some p) :
    ∃ attr ∈ tag.attrs, attr.value = some p := by
  obtain ⟨attr, listed, valued⟩ := Option.bind_eq_some_iff.mp found
  exact ⟨attr, List.mem_reverse.mp (List.mem_of_find?_eq_some listed), valued⟩

def operand? (tag : Tag) (context : Expr.Context) (name : String) : Option Operand :=
  (tag.param? name).bind (Part.operand? context)

-- The place that a parameter names.
def place? (tag : Tag) (context : Expr.Context) (name : String) : Option Code :=
  (tag.param? name).bind fun p => p.asTarget.emit? context

-- The local names among the places that some parameters name.
def bound (tag : Tag) (names : List String) : List String :=
  names.flatMap fun name => ((tag.param? name).bind Part.bound?).toList

theorem bound_singleton {tag : Tag} {name : String} {p : Part} (named : tag.param? name = some p) :
    tag.bound [name] = p.bound?.toList := by
  simp [bound, named]

def binding? (tag : Tag) : Option Binding := do
  let item ← tag.place? (.target true) "item"
  match tag.param? "key" with
  | some key => some ⟨some (← key.asTarget.emit? (.target true)), item⟩
  | none => some ⟨none, item⟩

-- The line that opens the block of a condition or a loop.
def opening? (tag : Tag) : Control → Option Line
  | .conditional => (tag.operand? .condition "test").map .openIf
  | .loop => do some (.openLoop (← tag.operand? .value "from") (← tag.binding?))
  | _ => none

-- The names that control flow binds around its children.
def binds (tag : Tag) : Control → List String
  | .loop => tag.bound ["key", "item"]
  | _ => []

def importName? (tag : Tag) : Option String :=
  ((tag.param? "name").bind Part.fixed?).filter fun name => name.toList.contains '-'

-- The component that a tag of some kind makes known.
def imported? (tag : Tag) (kind : TagKind) : Option String := if kind = .importing then tag.importName? else none

-- The first value of a state variable, if the tag gives one.
def initial? (tag : Tag) : Option (Option Operand) :=
  match tag.param? "value" with
  | some value => (value.operand? .value).map some
  | none => some none

-- The lines of a tag that is a statement by itself. An attribute has none: it is written with the tag that takes it.
def statement? (options : Options) (tag : Tag) : TagKind → Option (List Line)
  | .parameter => do some [.parameter (← tag.place? .dataTarget "name") (← tag.operand? .value "value")]
  | .assignment => do some [.assign (← tag.place? (.target true) "name") (← tag.operand? .value "value")]
  | .attr .content => some []
  | .importing => do
    some [.importComponent (← tag.importName?) (← tag.operand? .value "from") options.componentExtension]
  | .state => do
    some [.useState (← tag.place? (.target true) "name") (← (tag.param? "name").bind Walk.stateName?) (← tag.initial?)]
  | _ => none

-- The names that a tag itself assigns. A loop around nothing is not written.
def assigned (tag : Tag) (isChildless : Bool) : List String :=
  match TagKind.ofName? tag.name with
  | some .assignment => tag.bound ["name"]
  | some .template => tag.bound ["name"]
  | some .state => if ((tag.param? "name").bind Walk.stateName?).isSome then tag.bound ["name"] else []
  | some (.control kind _) => if isChildless then [] else tag.binds kind
  | _ => []

end Tag

namespace Attr

def line? (attrsOf : Nat) (attr : Attr) : Option Line := do
  let name ← attr.name.operand? .value
  match attr.value with
  | some value => some (.assignAttr attrsOf name (← value.operand? .value))
  | none => some (.assignAttr attrsOf name .flag)

def lines? (attrsOf : Nat) (attrs : List Attr) : Option (List Line) := attrs.mapM (line? attrsOf)

end Attr

namespace Leaf

-- The record of a leaf with fixed text.
def field? : Leaf → Option (String × String)
  | .text value => some ("text", value)
  | .comment value => some ("comment", value)
  | .string value => some ("text", value)
  | _ => none

def expr? : Leaf → Option Expr
  | .slot e => some e
  | .block e => some e
  | _ => none

end Leaf

namespace Ledger

def inside (l : Ledger) (branch : Option Switch) : Ledger := { l with branch := branch }

def assign (l : Ledger) (names : List String) : Ledger := { l with scope := names.foldl Scope.promote l.scope }

-- Whether a name is that of a component.
def knows (l : Ledger) (name : String) : Bool := l.registry.contains l.shared name

-- The ledger after some names were assigned, and maybe a component was imported.
structure Marks (l : Ledger) (names : List String) (imported : Option String) (r : Ledger) : Prop where
  scope : r.scope = (l.assign names).scope
  branch : r.branch = l.branch
  nextFragment : r.nextFragment = l.nextFragment
  knows : ∀ name, r.knows name = (l.knows name || decide (imported = some name))

-- The ledger after a component was made known.
def register (l : Ledger) (name : String) : Ledger :=
  { l with
    registry := (l.registry.register l.shared name).1
    shared := (l.registry.register l.shared name).2 }

theorem knows_register (l : Ledger) (added name : String) :
    (l.register added).knows name = (l.knows name || decide (some added = some name)) := by
  simp only [Option.some.injEq]
  have joined (names : Names) :
      (names.add added).contains name = (List.contains names name || decide (added = name)) := by
    unfold Names.add
    split
    · rename_i member
      by_cases same : added = name
      · rw [← same, List.contains_iff_mem.mpr member, Bool.true_or]
      · simp [same]
    · rw [List.contains_cons, Bool.or_comm]
      congr 1
      by_cases same : added = name
      · simp [same]
      · simp [same, Ne.symm same]
  cases scope : l.registry.scope with
  | process => simpa [knows, register, Registry.register, Registry.contains, scope] using joined l.shared
  | session => simpa [knows, register, Registry.register, Registry.contains, scope] using joined l.registry.own

-- The ledger after a number for the attributes of a tag was taken.
def taken (l : Ledger) : Ledger := { l with nextFragment := l.nextFragment + 1 }

-- Whether a chain of cases is open.
def isChained (l : Ledger) : Bool := (l.branch.map Switch.hasCase).getD false

end Ledger

-- A part of a template that lines are written for: nodes, for an accumulator; copies in a fragment, and all
-- attributes of a tag, for a variable; and control flow around either.
inductive Passage where
  | node (sink : Nat) (outline : Outline)
  | nodes (sink : Nat) (outlines : List Outline)
  | copy (attrsOf : Nat) (sketch : Sketch)
  | copies (attrsOf : Nat) (sketches : List Sketch)
  | control (kind : Control) (tag : Tag) (body : Passage)
  | attrs (attrsOf : Nat) (copies : List Sketch) (attrs : List Attr)

-- Whether control flow around a passage has no children.
def Passage.isEmpty : Passage → Bool
  | .nodes _ outlines => (Outline.flatten outlines).isEmpty
  | .copies _ sketches => sketches.isEmpty
  | _ => false

-- The component that a line calls.
def Line.called? : Line → Option String
  | .callComponent _ _ _ name _ => some name
  | _ => none

-- A line is a call of a name if that is the name of a component, and no call otherwise.
def Line.Calls (line : Line) (l : Ledger) (name : String) : Prop :=
  line.called? = if l.knows name then some name else none

-- The line that ends a tag: its record, or the call of the component that it names.
inductive Ending (identity sink attrsOf : Nat) (name : String) (childrenOf : Option Nat) : Line → Prop where
  | record : Ending identity sink attrsOf name childrenOf (.tagRecord sink attrsOf name childrenOf)
  | call : Ending identity sink attrsOf name childrenOf (.callComponent identity sink attrsOf name childrenOf)

inductive Written (options : Options) : Passage → Ledger → List Line → Ledger → Prop where
  | noNodes {sink l} : Written options (.nodes sink []) l [] l
  | moreNodes {sink first rest l m r lines others} :
    Written options (.node sink first) l lines m → Written options (.nodes sink rest) m others r →
    Written options (.nodes sink (first :: rest)) l (lines ++ others) r
  | file {sink path nodes l r lines} : Written options (.nodes sink nodes) l lines r →
    Written options (.node sink (.file path nodes)) l lines r
  | blank {sink identity value location children l} : l.branch.isSome = true → Text.isAllBlank value = true →
    Written options (.node sink (.node ⟨identity, .leaf (.text value), location⟩ children)) l [] l
  -- In a switch, text is blank or refused.
  | field {sink identity leaf location children l key value} : leaf.field? = some (key, value) →
    (l.branch.isSome = true → ∀ text, leaf ≠ .text text) →
    Written options (.node sink (.node ⟨identity, .leaf leaf, location⟩ children)) l [.record sink key value] l
  | value {sink identity leaf location children l e code} : leaf.expr? = some e → e.emit? .value = some code →
    Written options (.node sink (.node ⟨identity, .leaf leaf, location⟩ children)) l
      [.expressionBlock identity sink code] l
  | script {sink identity attrs body location children l r block} :
    Written options (.attrs l.nextFragment [] attrs) l.taken block r →
    Written options (.node sink (.node ⟨identity, .leaf (.script attrs body), location⟩ children)) l
      (block ++ [.scriptRecord sink l.nextFragment body]) r
  | statement {sink identity tag location children l r lines kind} :
    TagKind.ofName? tag.name = some kind → tag.statement? options kind = some lines →
    l.Marks (tag.assigned (Outline.flatten children).isEmpty) (tag.imported? kind) r →
    Written options (.node sink (.node ⟨identity, .tag tag, location⟩ children)) l lines r
  | template {sink identity tag location children l m lines target} :
    TagKind.ofName? tag.name = some .template → tag.place? (.target true) "name" = some target →
    Written options (.nodes identity children) (l.inside none) lines m →
    Written options (.node sink (.node ⟨identity, .tag tag, location⟩ children)) l
      (.resetChildren identity :: lines ++ [.keepChildren target identity])
      ((m.inside l.branch).assign (tag.bound ["name"]))
  | controlled {sink identity tag location children l r lines kind flow} :
    TagKind.ofName? tag.name = some (.control kind flow) →
    Written options (.control kind tag (.nodes sink children)) l lines r →
    Written options (.node sink (.node ⟨identity, .tag tag, location⟩ children)) l lines r
  -- A tag whose name is that of a component when the walk comes to it is a call. Its children may import more.
  | closed {sink identity tag location children l r block last} {call : last.Calls l tag.name} :
    TagKind.ofName? tag.name = none → tag.selfClosing = true →
    Written options (.attrs l.nextFragment [] tag.attrs) l.taken block r →
    Ending identity sink l.nextFragment tag.name none last →
    Written options (.node sink (.node ⟨identity, .tag tag, location⟩ children)) l (block ++ [last]) r
  -- The children of a single tag count, but they are not written.
  | single {sink identity tag location children l m r lines block last} {call : last.Calls l tag.name} :
    TagKind.ofName? tag.name = none → tag.selfClosing = false → Walk.isSingle options tag = true →
    Written options (.nodes identity children) (l.taken.inside none) lines m →
    Written options (.attrs l.nextFragment (Sketch.copies (Outline.flatten children)) tag.attrs) (m.inside l.branch)
      block r →
    Ending identity sink l.nextFragment tag.name none last →
    Written options (.node sink (.node ⟨identity, .tag tag, location⟩ children)) l (block ++ [last]) r
  | full {sink identity tag location children l m r lines block last} {call : last.Calls l tag.name} :
    TagKind.ofName? tag.name = none → tag.selfClosing = false → Walk.isSingle options tag = false →
    Written options (.nodes identity children) (l.taken.inside none) lines m →
    Written options (.attrs l.nextFragment (Sketch.copies (Outline.flatten children)) tag.attrs) (m.inside l.branch)
      block r →
    Ending identity sink l.nextFragment tag.name (some identity) last →
    Written options (.node sink (.node ⟨identity, .tag tag, location⟩ children)) l
      (block ++ .resetChildren identity :: lines ++ [last]) r
  | attrs {attrsOf copies attrs l m lines own} :
    Written options (.copies attrsOf copies) (l.inside none) lines m → Attr.lines? attrsOf attrs = some own →
    Written options (.attrs attrsOf copies attrs) l (.resetAttrs attrsOf :: lines ++ own) (m.inside l.branch)
  | noCopies {attrsOf l} : Written options (.copies attrsOf []) l [] l
  | moreCopies {attrsOf first rest l m r lines others} :
    Written options (.copy attrsOf first) l lines m → Written options (.copies attrsOf rest) m others r →
    Written options (.copies attrsOf (first :: rest)) l (lines ++ others) r
  | copiedAttr {attrsOf identity tag location children l name value} :
    TagKind.ofName? tag.name = some (.attr .applied) →
    tag.operand? .value "name" = some name → tag.operand? .value "value" = some value →
    Written options (.copy attrsOf (.node ⟨identity, .tag tag, location⟩ children)) l [.assignAttr attrsOf name value] l
  | copiedControl {attrsOf identity tag location children l r lines kind} :
    TagKind.ofName? tag.name = some (.control kind .applied) →
    Written options (.control kind tag (.copies attrsOf children)) l lines r →
    Written options (.copy attrsOf (.node ⟨identity, .tag tag, location⟩ children)) l lines r
  -- Nothing else stands in a fragment.
  | ignored {attrsOf identity content location children l} :
    (∀ tag, content = .tag tag → tag.isApplied = false) →
    Written options (.copy attrsOf (.node ⟨identity, content, location⟩ children)) l [] l
  -- Only these two look at whether they have children.
  | childless {kind tag body l m lines} : body.isEmpty = true → Written options body (l.inside none) lines m →
    kind = .conditional ∨ kind = .loop → Written options (.control kind tag body) l [] (m.inside l.branch)
  | guarded {kind tag body l m lines opening} : body.isEmpty = false → tag.opening? kind = some opening →
    Written options body (l.inside none) lines m →
    Written options (.control kind tag body) l (opening :: lines ++ [.close])
      ((m.inside l.branch).assign (tag.binds kind))
  | switch {tag body l m lines} : Written options body (l.inside (some Switches.fresh)) lines m →
    Written options (.control .switch tag body) l (if m.isChained then lines ++ [.close] else lines)
      (m.inside l.branch)
  | case {tag body l m lines hasCase test} : l.branch = some ⟨hasCase, false⟩ →
    tag.operand? .condition "test" = some test → Written options body (l.inside none) lines m →
    Written options (.control .case tag body) l ((if hasCase then .elseIf test else .openIf test) :: lines)
      (m.inside (some ⟨true, false⟩))
  | default {tag body l m lines state} : l.branch = some state → Written options body (l.inside none) lines m →
    Written options (.control .default tag body) l (if state.hasCase then .otherwise :: lines else lines)
      (m.inside (some { state with hasDefault := true }))

-- The outline of a tag with its children.
abbrev Header.outline (h : Header) (children : List Outline) : Outline :=
  .node ⟨h.identity, .tag h.tag, h.location⟩ children

-- A draft succeeds.
def Draft.Gives {α : Type} (draft : Draft α) (l : Ledger) (a : α) (r : Ledger) : Prop := draft.run.run l = (.ok a, r)

namespace Draft

section Gives

variable {α β : Type} {l r : Ledger} {file : Path} {h : Header}

@[simp] theorem gives_pure {a b : α} : (pure a : Draft α).Gives l b r ↔ a = b ∧ l = r := by
  show ((Except.ok a : Except CompileError α), l) = (Except.ok b, r) ↔ _
  simp

@[simp] theorem gives_bind {draft : Draft α} {next : α → Draft β} {b : β} :
    (draft >>= next).Gives l b r ↔ ∃ a m, draft.Gives l a m ∧ (next a).Gives m b r := by
  unfold Gives
  rw [run_bind]
  rcases draft.run.run l with ⟨e | a, m⟩
  · exact ⟨nofun, fun ⟨_, _, failed, _⟩ => nomatch failed⟩
  · refine ⟨fun ran => ⟨a, m, rfl, ran⟩, ?_⟩
    rintro ⟨_, _, ⟨rfl, rfl⟩, ran⟩
    exact ran

@[simp] theorem gives_map {draft : Draft α} {f : α → β} {b : β} :
    (f <$> draft).Gives l b r ↔ ∃ a, draft.Gives l a r ∧ f a = b := by
  rw [← bind_pure_comp, gives_bind]
  simp

@[simp] theorem gives_fail {cause : Cause} {location : Location} {a : α} :
    ¬(fail file cause location : Draft α).Gives l a r := nofun

@[simp] theorem gives_modify {change : Ledger → Ledger} {a : PUnit} :
    (modify change : Draft PUnit).Gives l a r ↔ change l = r := by
  show ((Except.ok () : Except CompileError PUnit), change l) = (Except.ok a, r) ↔ _
  simp

@[simp] theorem gives_get {a : Ledger} : (get : Draft Ledger).Gives l a r ↔ l = a ∧ l = r := by
  show ((Except.ok l : Except CompileError Ledger), l) = (Except.ok a, r) ↔ _
  simp

@[simp] theorem gives_within {branch : Option Switch} {draft : Draft α} {a : α} :
    (within branch draft).Gives l a r ↔ ∃ m, draft.Gives (l.inside branch) a m ∧ m.inside l.branch = r := by
  unfold Gives
  rw [run_within]
  unfold Ledger.inside
  rcases draft.run.run { l with branch := branch } with ⟨e | b, m⟩
  · constructor
    · intro failed
      cases failed
    · rintro ⟨_, failed, _⟩
      cases failed
  · constructor
    · rintro ⟨rfl, rfl⟩
      exact ⟨m, rfl, rfl⟩
    · rintro ⟨_, ⟨rfl, rfl⟩, rfl⟩
      rfl

@[simp] theorem gives_require {name : String} {p : Part} :
    (require file h name).Gives l p r ↔ h.tag.param? name = some p ∧ l = r := by
  unfold require Tag.param?
  cases Attr.param? h.tag.attrs name with
  | none => simp
  | some q => simp

@[simp] theorem gives_expr {context : Expr.Context} {e : Expr} {location : Location} {code : Code} :
    (expr file context e location).Gives l code r ↔
      e.emit? context = some code ∧ { l with scope := l.scope.after context e } = r := by
  simp only [expr, gives_bind, gives_modify]
  cases e.emit? context with
  | none => simp
  | some found => simp

theorem gives_part {context : Expr.Context} (quiet : ∀ (s : Scope) (e : Expr), s.after context e = s) {p : Part}
    {location : Location} {operand : Operand} :
    (part file context p location).Gives l operand r ↔ p.operand? context = some operand ∧ l = r := by
  cases p with
  | literal text => simp [part, Part.operand?]
  | expression e =>
    simp only [part, bind_pure_comp, gives_map, gives_expr, quiet, Part.operand?, Option.map_eq_some_iff]
    constructor
    · rintro ⟨a, ⟨found, same⟩, made⟩
      exact ⟨⟨a, found, made⟩, same⟩
    · rintro ⟨⟨a, found, made⟩, same⟩
      exact ⟨a, ⟨found, same⟩, made⟩

@[simp] theorem gives_value {p : Part} {operand : Operand} :
    (value file h p).Gives l operand r ↔ p.operand? .value = some operand ∧ l = r :=
  gives_part fun _ _ => rfl

@[simp] theorem gives_condition {p : Part} {operand : Operand} :
    (condition file h p).Gives l operand r ↔ p.operand? .condition = some operand ∧ l = r :=
  gives_part fun _ _ => rfl

theorem gives_target {context : Expr.Context} {p : Part} {location : Location} {code : Code} :
    (target file context p location).Gives l code r ↔
      p.asTarget.emit? context = some code ∧ { l with scope := l.scope.after context p.asTarget } = r := by
  cases p with
  | literal text => exact gives_expr
  | expression e => exact gives_expr

@[simp] theorem gives_bound {p : Part} {code : Code} : (bound file h p).Gives l code r ↔
    p.asTarget.emit? (.target true) = some code ∧ l.assign p.bound?.toList = r := by
  have same : { l with scope := l.scope.after (.target true) p.asTarget } = l.assign p.bound?.toList := by
    unfold Scope.after Ledger.assign
    rw [Part.promoted?_asTarget]
    cases p.bound? <;> rfl
  rw [← same]
  exact gives_target

theorem binding?_of_gives {item : Part} (named : h.tag.param? "item" = some item) {found : Binding}
    (gives : (binding file h item).Gives l found r) :
    h.tag.binding? = some found ∧ l.assign (h.tag.bound ["key", "item"]) = r := by
  unfold binding at gives
  cases key : Attr.param? h.tag.attrs "key" with
  | none =>
    have none : h.tag.param? "key" = none := key
    rw [key] at gives
    simp only [gives_bind, gives_bound, gives_pure] at gives
    obtain ⟨code, _, ⟨emitted, rfl⟩, rfl, rfl⟩ := gives
    simp [Tag.binding?, Tag.place?, Tag.bound, named, none, emitted]
  | some part =>
    have some : h.tag.param? "key" = some part := key
    rw [key] at gives
    simp only [gives_bind, gives_bound, gives_pure] at gives
    obtain ⟨first, _, ⟨left, rfl⟩, second, _, ⟨right, rfl⟩, rfl, rfl⟩ := gives
    simp [Tag.binding?, Tag.place?, Tag.bound, named, some, left, right, Ledger.assign]

end Gives

section Writes

variable {options : Options} {file : Path} {h : Header} {l r : Ledger} {lines : List Line}

theorem written_control {kind : Control} {body : Draft (List Line)} {passage : Passage}
    (inner : ∀ {l lines r}, body.Gives l lines r → Written options passage l lines r)
    (gives : (control kind file h passage.isEmpty body).Gives l lines r) :
    Written options (.control kind h.tag passage) l lines r := by
  cases kind with
  | conditional =>
    simp only [control, conditional, gives_bind, gives_require, gives_within] at gives
    obtain ⟨test, _, ⟨named, rfl⟩, below, _, ⟨m, ran, rfl⟩, gives⟩ := gives
    cases empty : passage.isEmpty with
    | true =>
      simp only [empty, if_true, gives_pure] at gives
      obtain ⟨rfl, rfl⟩ := gives
      exact .childless empty (inner ran) (.inl rfl)
    | false =>
      simp only [empty, Bool.false_eq_true, if_false, gives_bind, gives_pure, gives_condition] at gives
      obtain ⟨operand, _, ⟨emitted, rfl⟩, rfl, rfl⟩ := gives
      exact .guarded empty (by simp [Tag.opening?, Tag.operand?, named, emitted]) (inner ran)
  | loop =>
    simp only [control, loop, gives_bind, gives_require, gives_within] at gives
    obtain ⟨source, _, ⟨sourced, rfl⟩, item, _, ⟨named, rfl⟩, below, _, ⟨m, ran, rfl⟩, gives⟩ := gives
    cases empty : passage.isEmpty with
    | true =>
      simp only [empty, if_true, gives_pure] at gives
      obtain ⟨rfl, rfl⟩ := gives
      exact .childless empty (inner ran) (.inr rfl)
    | false =>
      simp only [empty, Bool.false_eq_true, if_false, gives_bind, gives_pure, gives_value] at gives
      obtain ⟨operand, _, ⟨emitted, rfl⟩, found, _, bound, rfl, rfl⟩ := gives
      obtain ⟨binding, rfl⟩ := binding?_of_gives named bound
      exact .guarded empty (by simp [Tag.opening?, Tag.operand?, sourced, emitted, binding]) (inner ran)
  | switch =>
    simp only [control, switch, chained, gives_within, gives_bind, gives_pure, gives_get] at gives
    obtain ⟨_, ⟨below, m, ran, _, _, ⟨_, _, ⟨rfl, rfl⟩, rfl, rfl⟩, rfl, rfl⟩, rfl⟩ := gives
    exact .switch (inner ran)
  | case =>
    simp only [control, case, gives_bind, gives_get] at gives
    obtain ⟨_, _, ⟨rfl, rfl⟩, gives⟩ := gives
    cases around : l.branch with
    | none => simp [around] at gives
    | some state =>
      obtain ⟨hasCase, hasDefault⟩ := state
      simp only [around] at gives
      cases hasDefault with
      | true => simp at gives
      | false =>
        rw [if_neg (by decide)] at gives
        simp only [gives_bind, gives_modify, gives_require, gives_within, gives_condition, gives_pure] at gives
        obtain ⟨_, _, rfl, test, _, ⟨named, rfl⟩, below, _, ⟨m, ran, rfl⟩, operand, _, ⟨emitted, rfl⟩, rfl, rfl⟩ :=
          gives
        have tested : h.tag.operand? .condition "test" = some operand := by simp [Tag.operand?, named, emitted]
        exact .case around tested (inner ran)
  | default =>
    simp only [control, default, gives_bind, gives_get] at gives
    obtain ⟨_, _, ⟨rfl, rfl⟩, gives⟩ := gives
    cases around : l.branch with
    | none => simp [around] at gives
    | some state =>
      simp only [around, gives_bind, gives_modify, gives_within, gives_pure] at gives
      obtain ⟨_, _, rfl, below, _, ⟨m, ran, rfl⟩, rfl, rfl⟩ := gives
      exact .default around (inner ran)

mutual

theorem written_applied {attrsOf : Nat} : ∀ {sketch : Sketch} {l r : Ledger} {lines : List Line},
    (applied file attrsOf sketch).Gives l lines r → Written options (.copy attrsOf sketch) l lines r
  | .node ⟨identity, .tag tag, location⟩ children, l, r, lines, gives => by
    unfold applied at gives
    split at gives
    · rename_i kind
      simp only [appliedAttr, gives_bind, gives_require, gives_value, gives_pure] at gives
      obtain ⟨name, _, ⟨named, rfl⟩, value, _, ⟨valued, rfl⟩, first, _, ⟨left, rfl⟩, second, _, ⟨right, rfl⟩, rfl, rfl⟩ :=
        gives
      exact .copiedAttr kind (by simp [Tag.operand?, named, left]) (by simp [Tag.operand?, valued, right])
    · rename_i kind
      exact .copiedControl kind (written_control (fun inner => written_allApplied inner) gives)
    · rename_i other attr
      simp only [gives_pure] at gives
      obtain ⟨rfl, rfl⟩ := gives
      refine .ignored fun own same => ?_
      cases same
      unfold Tag.isApplied
      split <;> simp_all
  | .node ⟨_, .leaf _, _⟩ _, l, r, lines, gives => by
    simp only [applied, gives_pure] at gives
    obtain ⟨rfl, rfl⟩ := gives
    exact .ignored nofun

theorem written_allApplied {attrsOf : Nat} : ∀ {sketches : List Sketch} {l r : Ledger} {lines : List Line},
    (allApplied file attrsOf sketches).Gives l lines r → Written options (.copies attrsOf sketches) l lines r
  | [], l, r, lines, gives => by
    simp only [allApplied, gives_pure] at gives
    obtain ⟨rfl, rfl⟩ := gives
    exact .noCopies
  | first :: rest, l, r, lines, gives => by
    simp only [allApplied, gives_bind, gives_pure] at gives
    obtain ⟨front, m, head, back, _, tail, rfl, rfl⟩ := gives
    exact .moreCopies (written_applied head) (written_allApplied tail)

end

theorem lines?_of_gives {attrsOf : Nat} {location : Location} {attrs : List Attr} (gives : (ownAttrs file attrsOf
    location attrs).Gives l lines r) : Attr.lines? attrsOf attrs = some lines ∧ l = r := by
  have value {p : Part} {l m : Ledger} {operand : Operand} :
      (part file .value p location).Gives l operand m ↔ p.operand? .value = some operand ∧ l = m :=
    gives_part fun _ _ => rfl
  induction attrs generalizing l lines with
  | nil =>
    simp only [ownAttrs, gives_pure] at gives
    obtain ⟨rfl, rfl⟩ := gives
    exact ⟨rfl, rfl⟩
  | cons attr rest ih =>
    simp only [ownAttrs, ownAttr, gives_bind, gives_pure] at gives
    obtain ⟨first, _, ⟨name, _, head, gives⟩, others, _, tail, rfl, rfl⟩ := gives
    obtain ⟨named, rfl⟩ := value.mp head
    cases given : attr.value with
    | none =>
      simp only [given, gives_pure] at gives
      obtain ⟨rfl, rfl⟩ := gives
      obtain ⟨others, rfl⟩ := ih tail
      refine ⟨?_, rfl⟩
      unfold Attr.lines? at others ⊢
      simp [Attr.line?, named, given, others]
    | some part =>
      simp only [given, gives_bind, value, gives_pure] at gives
      obtain ⟨operand, _, ⟨found, rfl⟩, rfl, rfl⟩ := gives
      obtain ⟨others, rfl⟩ := ih tail
      refine ⟨?_, rfl⟩
      unfold Attr.lines? at others ⊢
      simp [Attr.line?, named, given, found, others]

theorem written_attrBlock {attrsOf : Nat} {copies : List Sketch} {attrs : List Attr} {location : Location}
    (gives : (attrBlock file attrsOf copies attrs location).Gives l lines r) :
    Written options (.attrs attrsOf copies attrs) l lines r := by
  simp only [attrBlock, gives_bind, gives_within, gives_pure] at gives
  obtain ⟨front, _, ⟨m, ran, rfl⟩, own, _, given, rfl, rfl⟩ := gives
  obtain ⟨found, rfl⟩ := lines?_of_gives given
  exact .attrs (written_allApplied ran) found

@[simp] theorem gives_fragment {number : Nat} : fragment.Gives l number r ↔ l.nextFragment = number ∧ l.taken = r := by
  show ((Except.ok l.nextFragment : Except CompileError Nat), l.taken) = (Except.ok number, r) ↔ _
  simp

theorem written_leaf {sink identity : Nat} {location : Location} {children : List Outline} {leaf : Leaf}
    (gives : (Draft.leaf file sink identity location leaf).Gives l lines r) :
    Written options (.node sink (.node ⟨identity, .leaf leaf, location⟩ children)) l lines r := by
  cases leaf with
  | text value =>
    simp only [Draft.leaf, gives_bind, gives_get] at gives
    obtain ⟨_, _, ⟨rfl, rfl⟩, gives⟩ := gives
    cases around : l.branch.isSome with
    | true =>
      cases blank : Text.isAllBlank value with
      | true =>
        simp only [around, blank, if_true, gives_pure] at gives
        obtain ⟨rfl, rfl⟩ := gives
        exact .blank around blank
      | false => simp [around, blank] at gives
    | false =>
      simp only [around, Bool.false_eq_true, if_false, gives_pure] at gives
      obtain ⟨rfl, rfl⟩ := gives
      refine .field rfl fun inside => ?_
      rw [around] at inside
      cases inside
  | comment value =>
    simp only [Draft.leaf, gives_pure] at gives
    obtain ⟨rfl, rfl⟩ := gives
    exact .field rfl nofun
  | string value =>
    simp only [Draft.leaf, gives_pure] at gives
    obtain ⟨rfl, rfl⟩ := gives
    exact .field rfl nofun
  | slot e =>
    simp only [Draft.leaf, gives_bind, gives_expr, gives_pure] at gives
    obtain ⟨code, _, ⟨emitted, rfl⟩, rfl, rfl⟩ := gives
    exact .value rfl emitted
  | block e =>
    simp only [Draft.leaf, gives_bind, gives_expr, gives_pure] at gives
    obtain ⟨code, _, ⟨emitted, rfl⟩, rfl, rfl⟩ := gives
    exact .value rfl emitted
  | script attrs body =>
    simp only [Draft.leaf, gives_bind, gives_fragment, gives_pure] at gives
    obtain ⟨_, _, ⟨rfl, rfl⟩, block, _, ran, rfl, rfl⟩ := gives
    exact .script (written_attrBlock ran)

section Tag

variable {sink : Nat} {location : Location} {children : List Outline}

theorem written_parameter (kind : TagKind.ofName? h.tag.name = some .parameter)
    (gives : (parameter file h).Gives l lines r) : Written options (.node sink (h.outline children)) l lines r := by
  simp only [parameter, gives_bind, gives_require, gives_target, gives_value, gives_pure] at gives
  obtain ⟨name, _, ⟨named, rfl⟩, value, _, ⟨valued, rfl⟩, target, _, ⟨left, rfl⟩, operand, _, ⟨right, rfl⟩, rfl, rfl⟩ :=
    gives
  refine .statement kind (by simp [Tag.statement?, Tag.place?, Tag.operand?, named, valued, left, right]) ?_
  simp only [Tag.assigned, kind]
  exact ⟨rfl, rfl, rfl, fun _ => (Bool.or_false _).symm⟩

theorem written_assignment (kind : TagKind.ofName? h.tag.name = some .assignment)
    (gives : (assignment file h).Gives l lines r) : Written options (.node sink (h.outline children)) l lines r := by
  simp only [assignment, gives_bind, gives_require, gives_bound, gives_value, gives_pure] at gives
  obtain ⟨name, _, ⟨named, rfl⟩, value, _, ⟨valued, rfl⟩, target, _, ⟨left, rfl⟩, operand, _, ⟨right, rfl⟩, rfl, rfl⟩ :=
    gives
  refine .statement kind (by simp [Tag.statement?, Tag.place?, Tag.operand?, named, valued, left, right]) ?_
  simp only [Tag.assigned, kind, Tag.bound_singleton named]
  exact ⟨rfl, rfl, rfl, fun _ => (Bool.or_false _).symm⟩

theorem written_ownerAttribute {isOwned : Bool} (kind : TagKind.ofName? h.tag.name = some (.attr .content))
    (gives : (ownerAttribute file isOwned h).Gives l lines r) :
    Written options (.node sink (h.outline children)) l lines r := by
  simp only [ownerAttribute, gives_bind, gives_require] at gives
  obtain ⟨name, _, ⟨named, rfl⟩, value, _, ⟨valued, rfl⟩, gives⟩ := gives
  cases isOwned with
  | false => simp at gives
  | true =>
    simp only [if_true, gives_pure] at gives
    obtain ⟨rfl, rfl⟩ := gives
    refine .statement kind rfl ?_
    simp only [Tag.assigned, kind]
    exact ⟨rfl, rfl, rfl, fun _ => (Bool.or_false _).symm⟩

theorem written_importing (kind : TagKind.ofName? h.tag.name = some .importing)
    (gives : (importing file options h).Gives l lines r) :
    Written options (.node sink (h.outline children)) l lines r := by
  simp only [importing, gives_bind, gives_require] at gives
  obtain ⟨name, _, ⟨named, rfl⟩, source, _, ⟨sourced, rfl⟩, gives⟩ := gives
  cases fixed : name.fixed?.filter fun name => name.toList.contains '-' with
  | none =>
    rw [fixed] at gives
    exact absurd gives gives_fail
  | some text =>
    simp only [fixed, gives_bind, gives_modify, gives_value, gives_pure] at gives
    obtain ⟨_, _, rfl, operand, _, ⟨emitted, rfl⟩, rfl, rfl⟩ := gives
    have imported : h.tag.importName? = some text := by
      unfold Tag.importName?
      rw [named]
      exact fixed
    refine .statement kind ?_ ?_
    · simp [Tag.statement?, Tag.operand?, imported, sourced, emitted]
    · simp only [Tag.assigned, kind, Tag.imported?, if_true, imported]
      exact ⟨rfl, rfl, rfl, l.knows_register text⟩

theorem written_useState (kind : TagKind.ofName? h.tag.name = some .state)
    (gives : (useState file h).Gives l lines r) : Written options (.node sink (h.outline children)) l lines r := by
  simp only [useState, gives_bind, gives_require] at gives
  obtain ⟨name, _, ⟨named, rfl⟩, gives⟩ := gives
  cases closing : h.tag.selfClosing with
  | false => simp [closing] at gives
  | true =>
    cases bare : Walk.stateName? name with
    | none => simp [closing, bare] at gives
    | some stored =>
      simp only [closing, bare, Bool.not_true, Bool.false_eq_true, if_false, gives_bind, gives_bound] at gives
      obtain ⟨target, _, ⟨placed, rfl⟩, gives⟩ := gives
      have marks : l.Marks (h.tag.assigned (Outline.flatten children).isEmpty) (h.tag.imported? .state)
          (l.assign name.bound?.toList) := by
        simp only [Tag.assigned, kind, Tag.bound_singleton named, named, bare, Option.bind_some, Option.isSome_some,
          if_true]
        exact ⟨rfl, rfl, rfl, fun _ => (Bool.or_false _).symm⟩
      cases given : Attr.param? h.tag.attrs "value" with
      | none =>
        have absent : h.tag.param? "value" = none := given
        simp only [given, gives_pure] at gives
        obtain ⟨rfl, rfl⟩ := gives
        exact .statement kind (by simp [Tag.statement?, Tag.place?, Tag.initial?, named, placed, bare, absent]) marks
      | some value =>
        have valued : h.tag.param? "value" = some value := given
        simp only [given, gives_bind, gives_value, gives_pure] at gives
        obtain ⟨operand, _, ⟨emitted, rfl⟩, rfl, rfl⟩ := gives
        exact .statement kind (by simp [Tag.statement?, Tag.place?, Tag.initial?, named, placed, bare, valued, emitted]) marks

theorem written_template {body : Draft (List Line)} (kind : TagKind.ofName? h.tag.name = some .template)
    (inner : ∀ {l lines r}, body.Gives l lines r → Written options (.nodes h.identity children) l lines r)
    (gives : (template file h body).Gives l lines r) : Written options (.node sink (h.outline children)) l lines r := by
  simp only [template, gives_bind, gives_require] at gives
  obtain ⟨name, _, ⟨named, rfl⟩, gives⟩ := gives
  cases closing : h.tag.selfClosing with
  | true => simp [closing] at gives
  | false =>
    simp only [closing, Bool.false_eq_true, if_false, gives_bind, gives_pure, gives_within, gives_bound] at gives
    obtain ⟨below, _, ⟨m, ran, rfl⟩, target, _, ⟨placed, rfl⟩, rfl, rfl⟩ := gives
    rw [← Tag.bound_singleton named]
    exact .template kind (by simp [Tag.place?, named, placed]) (inner ran)

theorem selfClosing_isSingle {tag : Tag} (closing : tag.selfClosing = true) : Walk.isSingle options tag = true := by
  simp [Walk.isSingle, closing]

-- A tag that stands for itself or for a component; they differ in the line that ends them.
theorem written_parts {body : Draft (List Line)} {last : Nat → Option Nat → Line}
    (kind : TagKind.ofName? h.tag.name = none)
    (inner : ∀ {l lines r}, body.Gives l lines r → Written options (.nodes h.identity children) l lines r)
    (ends : ∀ attrsOf childrenOf, Ending h.identity sink attrsOf h.tag.name childrenOf (last attrsOf childrenOf) ∧
      (last attrsOf childrenOf).Calls l h.tag.name)
    (gives : (do
      let (attrsOf, attrs, children) ← tagParts file h (Sketch.copies (Outline.flatten children)) body
      if Walk.isSingle options h.tag then return attrs ++ [last attrsOf none]
      return attrs ++ .resetChildren h.identity :: children ++ [last attrsOf (some h.identity)] :
        Draft (List Line)).Gives l lines r) :
    Written options (.node sink (h.outline children)) l lines r := by
  simp only [tagParts, gives_bind, gives_fragment] at gives
  obtain ⟨_, _, ⟨_, _, ⟨rfl, rfl⟩, parts⟩, gives⟩ := gives
  cases closing : h.tag.selfClosing with
  | true =>
    simp only [closing, if_true, gives_bind, gives_pure] at parts
    obtain ⟨_, _, ⟨rfl, rfl⟩, block, _, attrs, rfl, rfl⟩ := parts
    simp only [selfClosing_isSingle closing, if_true, gives_pure] at gives
    obtain ⟨rfl, rfl⟩ := gives
    apply Written.closed kind closing (written_attrBlock attrs) (ends _ _).1
    exact (ends _ _).2
  | false =>
    simp only [closing, Bool.false_eq_true, if_false, gives_bind, gives_within, gives_pure] at parts
    obtain ⟨below, _, ⟨m, ran, rfl⟩, block, _, attrs, rfl, rfl⟩ := parts
    cases single : Walk.isSingle options h.tag with
    | true =>
      simp only [single, if_true, gives_pure] at gives
      obtain ⟨rfl, rfl⟩ := gives
      apply Written.single kind closing single (inner ran) (written_attrBlock attrs) (ends _ _).1
      exact (ends _ _).2
    | false =>
      simp only [single, Bool.false_eq_true, if_false, gives_pure] at gives
      obtain ⟨rfl, rfl⟩ := gives
      apply Written.full kind closing single (inner ran) (written_attrBlock attrs) (ends _ _).1
      exact (ends _ _).2

theorem written_tag {fault : Path → Fault} {stack : Stack} {isOwned : Bool} {body : Bool → Nat → Draft (List Line)}
    (inner : ∀ {isOwned sink l lines r}, (body isOwned sink).Gives l lines r →
      Written options (.nodes sink children) l lines r)
    (gives : (Draft.tag options fault stack isOwned sink h (Outline.flatten children) body).Gives l lines r) :
    Written options (.node sink (h.outline children)) l lines r := by
  simp only [Draft.tag, gives_bind, gives_get] at gives
  obtain ⟨_, _, ⟨rfl, rfl⟩, gives⟩ := gives
  unfold TagKind.classify at gives
  cases kind : TagKind.ofName? h.tag.name with
  | none =>
    rw [kind] at gives
    cases known : l.registry.contains l.shared h.tag.name with
    | true =>
      rw [known] at gives
      exact written_parts kind inner (fun _ _ => ⟨.call, (if_pos known).symm⟩) gives
    | false =>
      rw [known] at gives
      exact written_parts kind inner (fun _ _ => ⟨.record, (if_neg (Bool.not_eq_true _ ▸ known)).symm⟩) gives
  | some own =>
    rw [kind] at gives
    cases own with
    | parameter => exact written_parameter kind gives
    | assignment => exact written_assignment kind gives
    | attr flow =>
      cases flow with
      | content => exact written_ownerAttribute kind gives
      | applied => simp [strayAttribute] at gives
    | control control flow => exact .controlled kind (written_control inner gives)
    | component => exact absurd rfl (TagKind.ofName?_own kind).1
    | importing => exact written_importing kind gives
    | template => exact written_template kind inner gives
    | state => exact written_useState kind gives
    | including => exact absurd gives gives_fail
    | literal => exact absurd rfl (TagKind.ofName?_own kind).2

end Tag

mutual

theorem written_outline {fault : Path → Fault} : ∀ {outline : Outline} {stack : Stack} {isOwned : Bool} {sink : Nat}
    {l r : Ledger} {lines : List Line}, (Draft.outline options fault stack isOwned sink outline).Gives l lines r →
    Written options (.node sink outline) l lines r
  | .node ⟨_, .leaf _, _⟩ _, _, _, _, _, _, _, gives => by
    rw [Draft.outline] at gives
    exact written_leaf gives
  | .node ⟨identity, .tag tag, location⟩ _, _, _, _, _, _, _, gives => by
    rw [Draft.outline] at gives
    exact written_tag (fun inner => written_outlines inner) gives
  | .file _ _, _, _, _, _, _, _, gives => by
    rw [Draft.outline] at gives
    exact .file (written_outlines gives)

theorem written_outlines {fault : Path → Fault} : ∀ {outlines : List Outline} {stack : Stack} {isOwned : Bool}
    {sink : Nat} {l r : Ledger} {lines : List Line},
    (Draft.outlines options fault stack isOwned sink outlines).Gives l lines r →
    Written options (.nodes sink outlines) l lines r
  | [], _, _, _, _, _, _, gives => by
    simp only [Draft.outlines, gives_pure] at gives
    obtain ⟨rfl, rfl⟩ := gives
    exact .noNodes
  | first :: rest, _, _, _, _, _, _, gives => by
    simp only [Draft.outlines, gives_bind, gives_pure] at gives
    obtain ⟨front, m, head, back, _, tail, rfl, rfl⟩ := gives
    exact .moreNodes (written_outline head) (written_outlines tail)

end

end Writes

end Draft

-- What a compilation that succeeds has written: the lines of its draft. Its text is theirs, under the scope that the walk
-- ends with.
theorem Template.written {template : Template} {options : Options} {loader : Loader} {shared : Names} {text : String}
    (success : (template.compile options loader shared).1 = .ok text) :
    ∃ lines, (template.draft options loader shared).1 = .ok lines ∧
      Written options (.nodes Output.rootSink (template.outlines options loader)) (.start options shared) lines
        ((template.walk options loader shared).2.ledger none) ∧
      text = Line.file (template.walk options loader shared).2.scope lines := by
  have silent : Silent (fun _ => True) Walk.idle := fun _ _ _ _ => rfl
  have agrees := template.watched_agrees options loader shared silent (Node.allOnly_of_all (fun _ => trivial) _)
    fun _ _ => Node.allOnly_of_all (fun _ => trivial) _
  rw [Walk.watchedNodes_idle] at agrees
  unfold Agrees at agrees
  have walked : template.walk options loader shared = (Walk.nodes options loader.fault loader.templates.length
    loader.templates .outermost Output.rootSink (Tree.placeAll 0 0 template.nodes)).run.run
    (template.session options shared) := rfl
  rw [compile] at success
  rw [← walked] at agrees
  rcases outcome : template.walk options loader shared with ⟨failed | code, s⟩
  · rw [outcome] at success
    cases success
  · rw [outcome] at success agrees
    cases success
    rcases drafted : (Draft.outlines options loader.fault ⟨(Path.ofText options.filePath).normalize, []⟩ false
      Output.rootSink (template.outlines options loader)).run.run ((template.session options shared).ledger none)
      with ⟨_ | lines, r⟩
    · rw [drafted] at agrees
      exact agrees.elim
    · rw [drafted] at agrees
      obtain ⟨rfl, rfl⟩ := agrees
      exact ⟨lines, congrArg Prod.fst drafted, Draft.written_outlines drafted, (Line.file_eq _ _).symm⟩

namespace Template

variable {template : Template} {options : Options} {loader : Loader} {shared : Names} {text : String}

theorem exists_text (compiled : (template.compile options loader shared).1.isOk = true) :
    ∃ text, (template.compile options loader shared).1 = .ok text := by
  cases outcome : (template.compile options loader shared).1 with
  | error e =>
    rw [outcome] at compiled
    cases compiled
  | ok text => exact ⟨text, rfl⟩

theorem compile_of_toOption (compiled : (template.compile options loader shared).1.toOption = some text) :
    (template.compile options loader shared).1 = .ok text := by
  cases outcome : (template.compile options loader shared).1 with
  | error e =>
    rw [outcome] at compiled
    cases compiled
  | ok found =>
    rw [outcome] at compiled
    exact congrArg Except.ok (Option.some.inj compiled)

end Template

end Stencil
