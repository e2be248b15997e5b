import Stencil.Proofs.Arena
import Stencil.Proofs.Quiet

-- What the shared names mean for a compilation. Two walks that begin with different names go the same way as long as the
-- names agree on the tags that are met: they end alike, and register the same names. In a session of its own, a walk does
-- not see the shared names at all. So the calls of a sequence touch one another only through the names they import.

namespace Stencil

-- The names that were registered in some scope are known afterwards.
def RegistryScope.learned (scope : RegistryScope) (shared : Names) (names : List String) : Names :=
  match scope with
  | .process => names.foldl Names.add shared
  | .session => shared

section Learning

variable {scope : RegistryScope} {shared : Names} {names : List String}

theorem Names.mem_add {name other : String} : name ∈ shared.add other ↔ name ∈ shared ∨ name = other := by
  unfold Names.add
  split
  · rename_i known
    constructor
    · exact .inl
    · intro either
      rcases either with old | same
      · exact old
      · rwa [same]
  · rw [List.mem_cons, or_comm]

theorem Names.mem_foldl_add {name : String} : name ∈ names.foldl Names.add shared ↔ name ∈ shared ∨ name ∈ names := by
  induction names generalizing shared with
  | nil => simp
  | cons first rest ih => rw [List.foldl_cons, ih, Names.mem_add, List.mem_cons, or_assoc]

theorem learned_nil : scope.learned shared [] = shared := by cases scope <;> rfl

theorem learned_append (more : List String) :
    scope.learned (scope.learned shared names) more = scope.learned shared (names ++ more) := by
  cases scope with
  | process => exact (List.foldl_append ..).symm
  | session => rfl

end Learning

-- The name that a tag registers if it is an import and its name passes.
def Tag.imports? (tag : Tag) : Option String :=
  if TagKind.ofName? tag.name = some .importing then tag.componentName? else none

-- A visit of an import tag whose name passes.
def Event.imports? : Event → Option String
  | .visited (.content _ _ _ (.node _ ⟨_, .tag tag, _⟩ _)) _ => tag.imports?
  | _ => none

-- The names that are imported, in their order.
def Event.imports (events : List Event) : List String := events.filterMap Event.imports?

@[simp] theorem Event.imports_append (front back : List Event) : imports (front ++ back) = imports front ++ imports back :=
  List.filterMap_append

theorem Event.mem_imports {events : List Event} {name : String} :
    name ∈ imports events ↔ ∃ event ∈ events, event.imports? = some name := List.mem_filterMap

-- If names are shared at all, the names of a session and others agree on the names that are asked for.
def Session.Concurs (asked : String → Prop) (s : Session) (shared : Names) : Prop :=
  s.registry.scope = .process → ∀ name, asked name → (name ∈ s.shared ↔ name ∈ shared)

theorem Session.Concurs.contains {asked : String → Prop} {s : Session} {shared : Names} (concurs : s.Concurs asked shared)
    {name : String} (met : asked name) : s.registry.contains s.shared name = s.registry.contains shared name := by
  unfold Registry.contains
  cases scope : s.registry.scope with
  | process =>
    rw [Bool.eq_iff_iff, List.contains_iff_mem, List.contains_iff_mem]
    exact concurs scope name met
  | session => rfl

namespace Logged

variable {α β : Type} {asked : String → Prop}

-- Two actions, one of them with other shared names: they end alike, and both have learnt the names that the first
-- imports.
structure Twin (left right : Logged α) (s : Session) (shared : Names) : Prop where
  scope : (left.walk.run.run s).2.registry.scope = s.registry.scope
  learns : (left.walk.run.run s).2.shared = s.registry.scope.learned s.shared (Event.imports (left.events s))
  runs : right.walk.run.run { s with shared := shared } = ((left.walk.run.run s).1, { (left.walk.run.run s).2 with
    shared := s.registry.scope.learned shared (Event.imports (left.events s)) })

-- They do so if the names agree on all tags that are met, those of files included.
def Mirrors (asked : String → Prop) (left right : Logged α) (s : Session) (shared : Names) : Prop :=
  s.Concurs asked shared →
    (∀ template, .loaded template ∈ left.events s → Node.AllOnly (fun tag => asked tag.name) template.nodes) →
      Twin left right s shared

-- An action that goes the same way whenever the names agree.
def Blind (asked : String → Prop) (action : Logged α) : Prop := ∀ s shared, Mirrors asked action action s shared

section Rules

variable {s : Session} {shared : Names} {left right action : Logged α} {next other : α → Logged β}

theorem Twin.concurs (twin : Twin left right s shared) (concurs : s.Concurs asked shared) :
    (left.walk.run.run s).2.Concurs asked (s.registry.scope.learned shared (Event.imports (left.events s))) := by
  intro process name met
  rw [twin.scope] at process
  rw [twin.learns, process]
  exact Names.mem_foldl_add.trans ((or_congr_left (concurs process name met)).trans Names.mem_foldl_add.symm)

theorem Mirrors.bind (first : Mirrors asked left right s shared)
    (rest : ∀ a t names, Mirrors asked (next a) (other a) t names) :
    Mirrors asked (left >>= next) (right >>= other) s shared := by
  intro concurs loaded
  have early : ∀ template, .loaded template ∈ left.events s → .loaded template ∈ (left >>= next).events s :=
    fun _ member => List.mem_append_left _ member
  have twin := first concurs fun template member => loaded template (early template member)
  have behind := twin.concurs concurs
  obtain ⟨scope, learns, runs⟩ := twin
  rcases reached : left.walk.run.run s with ⟨e | a, t⟩
  · obtain ⟨goes, events⟩ := @bind_of_error _ _ _ next _ _ _ reached
    rw [reached] at scope learns runs
    obtain ⟨follows, _⟩ := @bind_of_error _ _ _ other _ _ _ runs
    refine ⟨?_, ?_, ?_⟩
    · rw [goes]
      exact scope
    · rw [goes, events]
      exact learns
    · rw [goes, events]
      exact follows
  · obtain ⟨goes, events⟩ := @bind_of_ok _ _ _ next _ _ _ reached
    rw [reached] at scope learns runs behind
    obtain ⟨follows, _⟩ := @bind_of_ok _ _ _ other _ _ _ runs
    rw [events] at loaded
    obtain ⟨same, learnt, ends⟩ := rest a t _ behind fun template member =>
      loaded template (List.mem_append_right _ member)
    rw [show t.registry.scope = s.registry.scope from scope] at same learnt ends
    rw [show t.shared = _ from learns] at learnt
    refine ⟨?_, ?_, ?_⟩
    · rw [goes]
      exact same
    · rw [goes, events, Event.imports_append, ← learned_append]
      exact learnt
    · rw [goes, events, follows, Event.imports_append, ← learned_append]
      exact ends

theorem Blind.bind (first : Blind asked action) (rest : ∀ a, Blind asked (next a)) : Blind asked (action >>= next) :=
  fun s shared => (first s shared).bind fun a t names => rest a t names

-- A step that neither reads nor changes names.
structure Unaware (walk : Walk α) : Prop where
  registry : ∀ s, (walk.run.run s).2.registry = s.registry
  shared : ∀ s, (walk.run.run s).2.shared = s.shared
  runs : ∀ s names, walk.run.run { s with shared := names } =
    ((walk.run.run s).1, { (walk.run.run s).2 with shared := names })

theorem unaware_plain {walk : Walk α} (plain : Walk.Plain walk) : Unaware walk := by
  refine ⟨fun s => ?_, fun s => ?_, fun s names => ?_⟩
  all_goals
    obtain ⟨outcome, scope, runs, others⟩ := plain.run s
    rw [runs]
  rw [others]

theorem blind_unaware (unaware : Unaware action.walk) (none : ∀ s, Event.imports (action.events s) = []) :
    Blind asked action := by
  intro s shared _ _
  refine ⟨congrArg Registry.scope (unaware.registry s), ?_, ?_⟩
  · rw [none, learned_nil, unaware.shared]
  · rw [none, learned_nil, unaware.runs]

theorem blind_quiet {walk : Walk α} (unaware : Unaware walk) : Blind asked (quiet walk) :=
  blind_unaware unaware fun _ => rfl

theorem blind_noted {walk : Walk α} {event : Session → Event} (unaware : Unaware walk)
    (other : ∀ s, (event s).imports? = none) : Blind asked (noted event walk) :=
  blind_unaware unaware fun s => List.filterMap_cons_none (other s)

theorem blind_plain {walk : Walk α} (plain : Walk.Plain walk) : Blind asked (quiet walk) :=
  blind_quiet (unaware_plain plain)

theorem blind_pure (a : α) : Blind asked (pure a : Logged α) := blind_plain (Walk.plain_pure a)

theorem Blind.finishing {action : Logged α} (blind : Blind asked action) (e : Element) (place : Place) :
    Blind asked (finishing e place action) :=
  blind.bind fun a => (blind_noted (unaware_plain (Walk.plain_pure ())) fun _ => rfl).bind fun _ => blind_pure a

-- A visit of a node that imports nothing.
theorem blind_visiting {visit : Visit} (other : ∀ s, (Event.visited visit s).imports? = none) (blind : Blind asked action) :
    Blind asked (visiting visit action) := by
  intro s shared concurs loaded
  have same : ∀ s, Event.imports ((visiting visit action).events s) = Event.imports (action.events s) :=
    fun s => List.filterMap_cons_none (other s)
  obtain ⟨scope, learns, runs⟩ := blind s shared concurs fun template member =>
    loaded template (List.mem_cons_of_mem _ member)
  refine ⟨scope, ?_, ?_⟩
  · rw [same]
    exact learns
  · rw [same]
    exact runs

-- A change of the session that does not touch names, at the end of an action.
theorem Mirrors.ensuring {cleanup : Session → Session} (mirrors : Mirrors asked left right s shared)
    (registry : ∀ t, (cleanup t).registry = t.registry) (keeps : ∀ t, (cleanup t).shared = t.shared)
    (apart : ∀ t names, cleanup { t with shared := names } = { cleanup t with shared := names }) :
    Mirrors asked (ensuring left cleanup) (ensuring right cleanup) s shared := by
  intro concurs loaded
  obtain ⟨scope, learns, runs⟩ := mirrors concurs loaded
  have leftRuns := run_ensuring left.walk cleanup s
  have rightRuns := run_ensuring right.walk cleanup { s with shared := shared }
  rw [← walk_ensuring] at leftRuns rightRuns
  refine ⟨?_, ?_, ?_⟩
  · rw [leftRuns, registry]
    exact scope
  · rw [leftRuns, keeps]
    exact learns
  · rw [leftRuns, rightRuns, runs, apart]
    rfl

theorem Mirrors.ite {c : Prop} [Decidable c] {first second : Logged α} (pos : c → Mirrors asked left right s shared)
    (neg : ¬c → Mirrors asked first second s shared) :
    Mirrors asked (if c then left else first) (if c then right else second) s shared := by
  by_cases holds : c
  · rw [if_pos holds, if_pos holds]
    exact pos holds
  · rw [if_neg holds, if_neg holds]
    exact neg holds

-- Reading the session.
theorem Mirrors.get {next other : Session → Logged β} {s : Session}
    (mirrors : Mirrors asked (next s) (other { s with shared := shared }) s shared) :
    Mirrors asked (quiet MonadState.get >>= next) (quiet MonadState.get >>= other) s shared :=
  fun concurs loaded =>
    have twin := mirrors concurs loaded
    ⟨twin.scope, twin.learns, twin.runs⟩

end Rules

section Controls

variable {e : Element} {body : Logged Code}

theorem blind_conditional (blind : Blind asked body) : Blind asked (conditional e body) :=
  (blind_plain (Walk.plain_require e _)).bind fun _ => blind.bind fun _ => blind_plain (Walk.plain_conditional e _ _)

theorem blind_loop (blind : Blind asked body) : Blind asked (loop e body) :=
  (blind_plain (Walk.plain_require e _)).bind fun _ => (blind_plain (Walk.plain_require e _)).bind fun _ =>
    blind.bind fun _ => blind_plain (Walk.plain_loop e _ _ _)

theorem blind_switch (blind : Blind asked body) : Blind asked (switch e body) := by
  refine (blind_quiet ⟨fun _ => rfl, fun _ => rfl, fun _ _ => rfl⟩).bind fun _ s shared => ?_
  have inner : Blind asked (body >>= fun code => quiet do
      return if (← get).switches.chained e.id then code ++ Output.closeBlock else code) :=
    blind.bind fun code => blind_plain (Walk.plain_chained e.id code)
  exact (inner s shared).ensuring (fun _ => rfl) (fun _ => rfl) fun _ _ => rfl

theorem blind_case {inside : Option NodeId} (blind : Blind asked body) : Blind asked (case e inside body) := by
  cases inside with
  | none => exact blind_plain (Walk.plain_fail _ _)
  | some switch =>
    refine (blind_noted ⟨fun _ => rfl, fun _ => rfl, fun _ _ => rfl⟩ fun _ => rfl).bind fun branch => ?_
    cases branch with
    | none => exact blind_plain (Walk.plain_fail _ _)
    | some branch =>
      exact (blind_plain (Walk.plain_require e _)).bind fun _ => blind.bind fun _ =>
        blind_plain (Walk.plain_case e _ branch _)

theorem blind_default {inside : Option NodeId} (blind : Blind asked body) : Blind asked (default e inside body) := by
  cases inside with
  | none => exact blind_plain (Walk.plain_fail _ _)
  | some switch =>
    refine (blind_noted ⟨fun _ => rfl, fun _ => rfl, fun _ _ => rfl⟩ fun _ => rfl).bind fun branch => ?_
    exact blind.bind fun _ => blind_pure _

theorem blind_control {kind : Control} {inside : Option NodeId} {body : Option NodeId → Logged Code}
    (blind : ∀ inner, Blind asked (body inner)) : Blind asked (control kind e inside body) := by
  cases kind with
  | conditional => exact blind_conditional (blind none)
  | loop => exact blind_loop (blind none)
  | switch => exact blind_switch (blind (some e.id))
  | case => exact blind_case (blind none)
  | default => exact blind_default (blind none)

end Controls

section Attributes

mutual

theorem blind_appliedTree (attrsOf : Nat) : ∀ (inside : Option NodeId) (tree : Tree),
    Blind asked (appliedTree attrsOf inside tree)
  | inside, .node id ⟨identity, .tag tag, location⟩ children => by
    rw [appliedTree]
    refine blind_visiting (fun _ => rfl) ?_
    cases TagKind.ofName? tag.name with
    | none => exact blind_pure _
    | some meaning =>
      cases meaning with
      | attr flow =>
        cases flow with
        | content => exact blind_pure _
        | applied => exact blind_plain (Walk.plain_appliedAttr attrsOf _)
      | control kind flow =>
        cases flow with
        | content => exact blind_pure _
        | applied => exact blind_control fun inner => blind_appliedTrees attrsOf inner children
      | _ => exact blind_pure _
  | _, .node _ ⟨_, .leaf _, _⟩ _ => by
    rw [appliedTree]
    exact blind_visiting (fun _ => rfl) (blind_pure _)

theorem blind_appliedTrees (attrsOf : Nat) : ∀ (inside : Option NodeId) (trees : List Tree),
    Blind asked (appliedTrees attrsOf inside trees)
  | _, [] => blind_pure _
  | inside, tree :: rest =>
    (blind_appliedTree attrsOf inside tree).bind fun _ => (blind_appliedTrees attrsOf inside rest).bind fun _ =>
      blind_pure _

end

theorem blind_withFragment {id : NodeId} {action : Walk.Linked → Logged α} (blind : ∀ linked, Blind asked (action linked)) :
    Blind asked (withFragment id action) := by
  refine (blind_noted ⟨fun _ => rfl, fun _ => rfl, fun _ _ => rfl⟩ fun _ => rfl).bind fun linked s shared => ?_
  exact (blind linked s shared).ensuring (fun _ => rfl) (fun _ => rfl) fun _ _ => rfl

theorem blind_attrBlock (linked : Walk.Linked) (attrs : List Attr) (location : Location) :
    Blind asked (attrBlock linked attrs location) := by
  refine fun s shared => Mirrors.get ?_
  have tail : Blind asked _ := (blind_appliedTrees linked.attrsOf none (s.document.treesBelow linked.fragment)).bind
    fun applied => blind_plain ((Walk.plain_ownAttrs linked.attrsOf location attrs).bind fun own =>
      Walk.plain_pure (Code.concat [Output.reset (Output.attrs linked.attrsOf), applied, own]))
  exact tail s shared

end Attributes

section Contents

variable {place : Place} {sink : Nat} {e : Element} {body : Place → Nat → Logged Code}

theorem blind_leafCode {id : NodeId} {identity : Nat} {location : Location} (leaf : Leaf) :
    Blind asked (leafCode place sink id identity location leaf) := by
  cases leaf with
  | script attrs body =>
    exact blind_withFragment fun linked => (blind_attrBlock linked attrs location).bind fun _ => blind_pure _
  | _ => exact blind_plain (Walk.plain_leafCode _ _ _ _ _ nofun)

theorem blind_copyInto (fragment : NodeId) (advance : Bool) : Blind asked (copyInto fragment e advance) :=
  blind_noted ⟨fun _ => rfl, fun _ => rfl, fun _ _ => rfl⟩ fun _ => rfl

theorem blind_ownerAttribute : Blind asked (ownerAttribute place e) := by
  refine (blind_plain (Walk.plain_require e _)).bind fun _ => (blind_plain (Walk.plain_require e _)).bind fun _ => ?_
  cases place.owner with
  | none => exact blind_plain (Walk.plain_fail _ _)
  | some fragment => exact (blind_copyInto fragment false).bind fun _ => blind_pure _

theorem blind_template {body : Nat → Logged Code} (blind : ∀ sink, Blind asked (body sink)) :
    Blind asked (template e body) :=
  (blind_plain (Walk.plain_templateName e)).bind fun _ => (blind e.identity).bind fun _ =>
    blind_plain ((Walk.plain_target _ _ _).bind fun _ => Walk.plain_pure _)

theorem blind_tagParts (blind : ∀ place sink, Blind asked (body place sink)) : Blind asked (tagParts e body) := by
  refine blind_withFragment fun linked => ?_
  have children : Blind asked (ownChildren e linked.fragment body) := by
    rw [ownChildren]
    split
    · exact blind_pure _
    · exact blind _ _
  exact children.bind fun _ => (blind_attrBlock linked e.tag.attrs e.location).bind fun _ => blind_pure _

theorem blind_contentControl {kind : Control} (blind : ∀ place sink, Blind asked (body place sink)) :
    Blind asked (contentControl kind place sink e body) := by
  have enters : Blind asked (enterCopy place e) := by
    rw [enterCopy]
    cases place.owner with
    | none => exact blind_pure _
    | some fragment => exact blind_copyInto fragment true
  have leaves : Unaware (Walk.leaveCopy place) := by
    unfold Walk.leaveCopy
    cases place.owner with
    | none => exact ⟨fun _ => rfl, fun _ => rfl, fun _ _ => rfl⟩
    | some fragment => exact ⟨fun _ => rfl, fun _ => rfl, fun _ _ => rfl⟩
  exact enters.bind fun _ => blind_control fun inner => (blind _ sink).bind fun _ => (blind_quiet leaves).bind fun _ =>
    blind_pure _

-- A compiler of files that goes the same way whenever the names agree on the tags of the file.
def Env.Blind (asked : String → Prop) (env : Env) : Prop :=
  ∀ path template compiler, env.reach path = some (template, compiler) → ∀ place sink trees,
    Sketch.AllOnly (fun tag => asked tag.name) (Tree.sketches trees) → Logged.Blind asked (compiler place sink trees)

variable {env : Env}

theorem blind_including (files : env.Blind asked) : Blind asked (including env place sink e) := by
  refine (blind_plain (Walk.plain_require e _)).bind fun source => ?_
  cases source.fixed? with
  | none => exact blind_plain (Walk.plain_fail _ _)
  | some source =>
    refine fun s shared => Mirrors.get (.ite (fun _ => blind_plain (Walk.plain_fail _ _) s shared) fun _ => ?_)
    dsimp only
    cases reached : env.reach (Walk.includePath s.file source) with
    | none => exact blind_plain (Walk.plain_fail _ _) s shared
    | some found =>
      obtain ⟨template, compiler⟩ := found
      intro concurs loaded
      let entered : Session := { s with
        document := Operation.apply s.document (.included e.id template.nodes)
        file := Walk.includePath s.file source
        including := s.file :: s.including }
      have only : Sketch.AllOnly (fun tag => asked tag.name)
          (Tree.sketches (s.document.importFresh template.nodes (s.document.parent? e.id)).1) := by
        refine Eq.mpr (congrArg _ (Tree.sketches_placeAll _ _ _)) ?_
        exact Sketch.allOnly_ofNodes _ (loaded template List.mem_cons_self)
      let leave : Session → Session := fun after => { after with file := s.file, including := s.including }
      have inner : Mirrors asked (ensuring _ leave) (ensuring _ leave) entered shared :=
        (files _ _ _ reached place sink _ only entered shared).ensuring (fun _ => rfl) (fun _ => rfl) fun _ _ => rfl
      have twin := inner concurs fun other member =>
        loaded other (List.mem_cons_of_mem _ (List.mem_cons_of_mem _ member))
      exact ⟨twin.scope, twin.learns, twin.runs⟩

-- All kinds of tags but imports.
theorem blind_kindCode {kind : TagKind} (other : kind ≠ .importing) (blind : ∀ place sink, Blind asked (body place sink))
    (files : env.Blind asked) : Blind asked (kindCode env place sink e body kind) := by
  cases kind with
  | parameter => exact blind_plain (Walk.plain_parameter e)
  | assignment => exact blind_plain (Walk.plain_assignment e)
  | attr flow =>
    cases flow with
    | content => exact blind_ownerAttribute
    | applied => exact blind_plain (Walk.plain_strayAttribute e)
  | control kind flow =>
    cases flow with
    | content => exact blind_contentControl blind
    | applied => exact blind_control fun inner => blind { place with inside := inner } sink
  | importing => exact absurd rfl other
  | template => exact blind_template (blind .outermost)
  | state => exact blind_plain (Walk.plain_useState e)
  | including => exact blind_including files
  | component => exact (blind_tagParts blind).bind fun _ => blind_pure _
  | literal => exact (blind_tagParts blind).bind fun _ => blind_pure _

-- The names decide between components and other tags, and nothing else.
theorem blind_tagCode (met : asked e.tag.name) (other : TagKind.ofName? e.tag.name ≠ some .importing)
    (blind : ∀ place sink, Blind asked (body place sink)) (files : env.Blind asked) :
    Blind asked (tagCode env place sink e body) := by
  intro s shared concurs loaded
  refine Mirrors.get ?_ concurs loaded
  have same : TagKind.classify (s.registry.contains shared) e.tag.name =
      TagKind.classify (s.registry.contains s.shared) e.tag.name := by
    unfold TagKind.classify
    rw [concurs.contains met]
  show Mirrors asked _ (kindCode env place sink e body (TagKind.classify (s.registry.contains shared) e.tag.name)) s shared
  rw [same]
  refine blind_kindCode (fun importing => other ?_) blind files s shared
  exact (TagKind.ofName?_of_classify importing).resolve_right (by simp)

-- What is registered.
theorem registering_eq (s : Session) (name : String) (names : Names) :
    (s.registering name).registry.scope = s.registry.scope ∧
    (s.registering name).shared = s.registry.scope.learned s.shared [name] ∧
    Session.registering { s with shared := names } name =
      { s.registering name with shared := s.registry.scope.learned names [name] } := by
  unfold Session.registering Registry.register
  cases scope : s.registry.scope with
  | process => exact ⟨scope, rfl, rfl⟩
  | session => exact ⟨rfl, rfl, rfl⟩

theorem blind_registering {action : Logged Code} {name : String} {tail : Walk Code} (plain : Walk.Plain tail)
    (walked : ∀ t, action.walk.run.run t = tail.run.run (t.registering name))
    (told : ∀ t, Event.imports (action.events t) = [name]) : Blind asked action := by
  intro s shared _ _
  obtain ⟨same, learnt, apart⟩ := registering_eq s name shared
  obtain ⟨outcome, scope, runs, others⟩ := plain.run (s.registering name)
  refine ⟨?_, ?_, ?_⟩
  · rw [walked, runs]
    exact same
  · rw [walked, runs, told]
    exact learnt
  · rw [walked, walked, apart, runs, told]
    exact others _

-- An import tag asks for no name; it registers its own.
theorem blind_import {id identity : Nat} {tag : Tag} {location : Location} {children : List Tree}
    (kind : TagKind.ofName? tag.name = some .importing) :
    Blind asked (visiting (.content env.plain place sink (.node id ⟨identity, .tag tag, location⟩ children))
      (tagCode env place sink ⟨id, identity, tag, location⟩ body)) := by
  have imports : tag.imports? = tag.componentName? := if_pos kind
  have same : tagCode env place sink ⟨id, identity, tag, location⟩ body =
      quiet get >>= fun _ => quiet (Walk.importing env.options ⟨id, identity, tag, location⟩) := by
    unfold tagCode TagKind.classify
    rw [kind]
    rfl
  rw [same]
  rcases Walk.importing_cases env.options ⟨id, identity, tag, location⟩ with
    ⟨unnamed, plain⟩ | ⟨name, tail, named, plain, registers⟩
  · refine blind_visiting (fun _ => imports.trans unnamed) fun s shared => Mirrors.get ?_
    exact blind_plain plain s shared
  · rw [registers]
    exact blind_registering plain (fun _ => rfl) fun _ => List.filterMap_cons_some (imports.trans named)

mutual

theorem blind_contentTree (files : env.Blind asked) : ∀ (place : Place) (sink : Nat) (tree : Tree),
    Sketch.Only (fun tag => asked tag.name) tree.sketch → Blind asked (contentTree env place sink tree)
  | place, sink, .node id ⟨identity, .leaf leaf, location⟩ children, _ => by
    rw [contentTree]
    exact blind_visiting (fun _ => rfl) (blind_leafCode leaf)
  | place, sink, .node id ⟨identity, .tag tag, location⟩ children, only => by
    rw [contentTree]
    by_cases kind : TagKind.ofName? tag.name = some .importing
    · exact blind_import kind
    · refine blind_visiting (fun _ => if_neg kind) (blind_tagCode only.1 kind (fun place sink => ?_) files)
      exact (blind_contentTrees files place sink children only.2).finishing _ place

theorem blind_contentTrees (files : env.Blind asked) : ∀ (place : Place) (sink : Nat) (trees : List Tree),
    Sketch.AllOnly (fun tag => asked tag.name) (Tree.sketches trees) → Blind asked (contentTrees env place sink trees)
  | _, _, [], _ => blind_pure _
  | place, sink, tree :: rest, only =>
    (blind_contentTree files place sink tree only.1).bind fun _ =>
      (blind_contentTrees files place sink rest only.2).bind fun _ => blind_pure _

end

-- By induction on the number of files that can still be included.
theorem blind_nodes (options : Options) (fault : Path → Fault) : ∀ (left : Nat) (templates : List (Path × Template))
    (place : Place) (sink : Nat) (trees : List Tree),
    Sketch.AllOnly (fun tag => asked tag.name) (Tree.sketches trees) →
      Blind asked (nodes options fault left templates place sink trees)
  | 0, _, place, sink, trees, only => blind_contentTrees (fun _ _ _ reached => by cases reached) place sink trees only
  | left + 1, templates, place, sink, trees, only => by
    refine blind_contentTrees (fun path template compiler reached => ?_) place sink trees only
    obtain ⟨found, _, same⟩ := Option.map_eq_some_iff.mp reached
    cases same
    exact blind_nodes options fault left _

end Contents

end Logged

namespace Template

variable (template : Template) (options : Options) (loader : Loader) {shared other : Names}

-- Two compilations whose names agree on the tags that are met, if names are shared at all.
theorem twin_compile {asked : String → Prop}
    (concurs : options.registryScope = .process → ∀ name, asked name → (name ∈ shared ↔ name ∈ other))
    (own : Node.AllOnly (fun tag => asked tag.name) template.nodes)
    (files : ∀ file, .loaded file ∈ template.chronicle options loader shared →
      Node.AllOnly (fun tag => asked tag.name) file.nodes) :
    (template.compile options loader shared).2 =
        options.registryScope.learned shared (Event.imports (template.chronicle options loader shared)) ∧
      template.compile options loader other = ((template.compile options loader shared).1,
        options.registryScope.learned other (Event.imports (template.chronicle options loader shared))) := by
  have only : Sketch.AllOnly (fun tag => asked tag.name) (Tree.sketches (Tree.placeAll 0 0 template.nodes)) := by
    rw [Tree.sketches_placeAll]
    exact Sketch.allOnly_ofNodes 0 own
  have blind : Logged.Blind asked (template.logged options loader) := Logged.blind_nodes _ _ _ _ _ _ _ only
  obtain ⟨_, learns, runs⟩ := blind (template.opened options shared) other concurs fun file member =>
    files file (List.mem_cons_of_mem _ member)
  have right : (template.logged options loader).walk.run.run { template.opened options shared with shared := other } =
      template.walk options loader other := template.walk_logged options loader other
  rw [walk_logged] at learns runs
  rw [right] at runs
  refine ⟨learns, ?_⟩
  unfold compile
  rw [runs]
  rfl

end Template

-- A call of the compiler.
structure Call where
  template : Template
  options : Options
  loader : Loader

namespace Call

variable (call : Call) (shared : Names)

def run : Except CompileError String × Names := call.template.compile call.options call.loader shared

def chronicle : List Event := call.template.chronicle call.options call.loader shared

-- Calls one after the other; each sees the shared names that the ones before it have left.
def runAll : List Call → Names → List (Except CompileError String) × Names
  | [], shared => ([], shared)
  | call :: rest, shared =>
    ((call.run shared).1 :: (runAll rest (call.run shared).2).1, (runAll rest (call.run shared).2).2)

-- Two sets of names agree on every tag of the template and of the files that it includes.
structure Agree (first second : Names) : Prop where
  own : Node.AllOnly (fun tag => tag.name ∈ first ↔ tag.name ∈ second) call.template.nodes
  files : ∀ file, .loaded file ∈ call.chronicle first →
    Node.AllOnly (fun tag => tag.name ∈ first ↔ tag.name ∈ second) file.nodes

theorem runAll_append (before after : List Call) : runAll (before ++ after) shared =
    ((runAll before shared).1 ++ (runAll after (runAll before shared).2).1,
      (runAll after (runAll before shared).2).2) := by
  induction before generalizing shared with
  | nil => rfl
  | cons call rest ih => rw [List.cons_append, runAll, ih, runAll, List.cons_append]

variable {call}

theorem run_session (session : call.options.registryScope = .session) (known other : Names) :
    (call.run known).2 = known ∧ (call.run other).1 = (call.run known).1 := by
  have all (nodes : List Node) : Node.AllOnly (fun _ => True) nodes := Node.allOnly_of_all (fun _ => trivial) nodes
  have apart : call.options.registryScope = .process → ∀ name, True → (name ∈ known ↔ name ∈ other) := by
    intro process
    rw [session] at process
    cases process
  obtain ⟨learns, runs⟩ := call.template.twin_compile call.options call.loader apart (all _) fun _ _ => all _
  rw [session] at learns
  refine ⟨learns, ?_⟩
  rw [run, runs, run]

theorem Agree.run_process {known other : Names} (agree : call.Agree known other)
    (process : call.options.registryScope = .process) : (call.run other).1 = (call.run known).1 ∧
      ∀ name, name ∈ (call.run other).2 ↔ name ∈ other ∨ ∃ event ∈ call.chronicle known, event.imports? = some name := by
  obtain ⟨_, runs⟩ := @Template.twin_compile call.template call.options call.loader known other
    (fun name => name ∈ known ↔ name ∈ other) (fun _ _ same => same) agree.own agree.files
  constructor
  · rw [run, runs, run]
  · intro name
    rw [run, runs, process, ← Event.mem_imports]
    exact Names.mem_foldl_add

theorem Agree.refl (known : Names) : call.Agree known known where
  own := Node.allOnly_of_all (fun _ => Iff.rfl) _
  files _ _ := Node.allOnly_of_all (fun _ => Iff.rfl) _

-- The calls with sessions of their own leave no trace.
theorem names_runAll_filter (calls : List Call) : (runAll calls shared).2 =
    (runAll (calls.filter fun call => call.options.registryScope = .process) shared).2 := by
  induction calls generalizing shared with
  | nil => rfl
  | cons call rest ih =>
    rw [runAll]
    cases scope : call.options.registryScope with
    | process => rw [List.filter_cons_of_pos (by simp [scope]), runAll, ih]
    | session => rw [List.filter_cons_of_neg (by simp [scope]), ih, (run_session scope shared shared).1]

-- Any call of any sequence, with the names that the calls before it have left. With a session of its own, its outcome
-- does not depend on them, and it does not change them. Otherwise it adds the names of the import tags that it visits,
-- also if it fails, and no others; and it ends alike and adds the same with any names that agree on its tags.
theorem runAll_isolated (before after : List Call) (call : Call) (shared : Names) :
    (runAll (before ++ call :: after) shared).1 = (runAll before shared).1 ++ (call.run (runAll before shared).2).1 ::
      (runAll after (call.run (runAll before shared).2).2).1 ∧
    (runAll (before ++ call :: after) shared).2 =
      (runAll ((before ++ call :: after).filter fun call => call.options.registryScope = .process) shared).2 ∧
    (call.options.registryScope = .session → (call.run (runAll before shared).2).2 = (runAll before shared).2 ∧
      ∀ other, (call.run other).1 = (call.run (runAll before shared).2).1) ∧
    (call.options.registryScope = .process →
      (∀ name, name ∈ (call.run (runAll before shared).2).2 ↔ name ∈ (runAll before shared).2 ∨
        ∃ event ∈ call.chronicle (runAll before shared).2, event.imports? = some name) ∧
      ∀ other, call.Agree (runAll before shared).2 other →
        (call.run other).1 = (call.run (runAll before shared).2).1 ∧
        ∀ name, name ∈ (call.run other).2 ↔ name ∈ other ∨
          ∃ event ∈ call.chronicle (runAll before shared).2, event.imports? = some name) := by
  refine ⟨?_, names_runAll_filter shared _, fun session => ?_, fun process => ⟨?_, fun other agree => ?_⟩⟩
  · rw [runAll_append, runAll]
  · exact ⟨(run_session session _ shared).1, fun other => (run_session session _ other).2⟩
  · exact ((Agree.refl _).run_process process).2
  · exact agree.run_process process

-- A call that imports a component and fails, and calls that use the component's name.
def failingImport : Call where
  template := ⟨[.tag 1 ⟨"import", [⟨.literal "name", some (.literal "x-card"), .zero⟩,
    ⟨.literal "from", some (.literal "cards"), .zero⟩], true⟩ [] .zero, .tag 2 ⟨"case", [], true⟩ [] .zero]⟩
  options := { Options.standard with registryScope := .process }
  loader := ⟨[], fun path => .unreadable path.text⟩

def componentUse (scope : RegistryScope) : Call where
  template := ⟨[.tag 1 ⟨"x-card", [], true⟩ [] .zero]⟩
  options := { Options.standard with registryScope := scope }
  loader := ⟨[], fun path => .unreadable path.text⟩

theorem runAll_isolated_failingImport : (failingImport.run []).1.isOk = false ∧ (runAll [failingImport] []).2 = ["x-card"] ∧
    ((componentUse .process).run ["x-row", "x-card"]).1 = ((componentUse .process).run ["x-card"]).1 ∧
    ((componentUse .session).run []).1 = ((componentUse .session).run ["x-card"]).1 := by
  have left : (runAll [failingImport] []).2 = ["x-card"] := by decide +kernel
  have none : ((componentUse .process).chronicle ["x-card"]).all (fun event => match event with
      | .loaded _ => false
      | _ => true) = true := by decide +kernel
  refine ⟨by decide +kernel, left, ?_, ?_⟩
  · have isolated := ((runAll_isolated [failingImport] [] (componentUse .process) []).2.2.2 rfl).2 ["x-row", "x-card"]
    rw [left] at isolated
    refine (isolated ⟨⟨⟨by decide, trivial⟩, trivial⟩, fun file member => ?_⟩).1
    exact absurd (List.all_eq_true.mp none _ member) (by simp)
  · have isolated := ((runAll_isolated [failingImport] [] (componentUse .session) []).2.2.1 rfl).2 []
    rwa [left] at isolated

end Call

end Stencil
