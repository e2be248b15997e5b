import Stencil.Proofs.ContentAgreement
import Stencil.Proofs.Quiet

-- What a compilation asks of its loader. Each part of the walk leaves the files that include one another as they were, and
-- two walks whose loaders say the same about every path that is asked for go the same way; only the reason why a file
-- could not be loaded may differ.

namespace Stencil

-- All files around a node, innermost first.
def Stack.files (stack : Stack) : List Path := stack.file :: stack.including

-- The path that a tag asks the loader for: that of an include whose file is fixed and not yet being compiled.
def Tag.asks? (tag : Tag) (stack : Stack) : Option Path :=
  if TagKind.ofName? tag.name = some .including then stack.target? tag else none

-- It leads from the file around the tag to none of the files around.
theorem Tag.asks?_eq_some {tag : Tag} {stack : Stack} {path : Path} (asks : tag.asks? stack = some path) :
    ∃ source, path = Walk.includePath stack.file source ∧ path ∉ stack.files := by
  unfold Tag.asks? at asks
  split at asks
  · obtain ⟨part, _, rest⟩ := Option.bind_eq_some_iff.mp asks
    obtain ⟨source, _, rest⟩ := Option.bind_eq_some_iff.mp rest
    simp only at rest
    split at rest
    · cases rest
    · next outside =>
      cases rest
      exact ⟨source, rfl, outside⟩
  · cases asks

namespace Visit

def asks? (visit : Visit) (stack : Stack) : Option Path :=
  match visit with
  | .content _ _ _ (.node _ ⟨_, .tag tag, _⟩ _) => tag.asks? stack
  | _ => none

-- The files around the nodes of the file that a visit takes in, if it takes in one.
def opens? (visit : Visit) (stack : Stack) : Option Stack :=
  match visit with
  | .content env _ _ (.node _ ⟨_, .tag tag, _⟩ _) =>
    ((tag.asks? stack).filter fun path => (env.reach path).isSome).map stack.push
  | _ => none

-- The files at the beginning of a visit, at its end and, if it takes in a file, in between.
def nestings (visit : Visit) (before : Session) : List Stack :=
  before.stack :: (visit.walk.run.run before).2.stack :: (visit.opens? before.stack).toList

end Visit

-- The tag whose children are finished, where and in which session.
def Event.finished? : Event → Option (Element × Place × Session)
  | .finished e place after => some (e, place, after)
  | _ => none

theorem Event.mem_finished {events : List Event} {e : Element} {place : Place} {after : Session} :
    (e, place, after) ∈ events.filterMap finished? ↔ .finished e place after ∈ events := by
  refine List.mem_filterMap.trans ⟨?_, fun member => ⟨_, member, rfl⟩⟩
  rintro ⟨event, member, same⟩
  cases event with
  | finished =>
    cases same
    exact member
  | _ => cases same

-- The same outcome, apart from the reason why a file could not be loaded.
inductive SameOutcome (alike : Fault → Fault → Prop) {α : Type} :
    Except CompileError α → Except CompileError α → Prop where
  | refl (outcome : Except CompileError α) : SameOutcome alike outcome outcome
  | failed {path file : String} {location : Location} {fault other : Fault} : alike fault other →
    SameOutcome alike (.error ⟨.includeFailed path fault, file, location⟩)
      (.error ⟨.includeFailed path other, file, location⟩)

namespace SameOutcome

variable {alike : Fault → Fault → Prop} {α β : Type}

theorem ok {a : α} {other : Except CompileError α} (same : SameOutcome alike (.ok a) other) : other = .ok a := by
  cases same
  rfl

theorem error {e : CompileError} {other : Except CompileError α} (same : SameOutcome alike (.error e) other) :
    ∃ e', other = .error e' ∧ SameOutcome alike (.error e : Except CompileError β) (.error e') := by
  cases same with
  | refl => exact ⟨e, rfl, .refl _⟩
  | failed alike => exact ⟨_, rfl, .failed alike⟩

theorem map {first second : Except CompileError α} (same : SameOutcome alike first second) (f : α → β) :
    SameOutcome alike (first.map f) (second.map f) := by
  cases same with
  | refl => exact .refl _
  | failed alike => exact .failed alike

theorem eq {first second : Except CompileError α} (same : SameOutcome Eq first second) : second = first := by
  cases same with
  | refl => rfl
  | failed alike => rw [alike]

end SameOutcome

-- What two walks are compared for: the paths on which their loaders agree, the faults that count as alike, and what
-- holds of the files around every node.
structure Terms where
  known : Path → Prop
  alike : Fault → Fault → Prop
  around : Stack → Prop

theorem Session.Steady.stack {s t : Session} (steady : Session.Steady s t) : t.stack = s.stack := by
  simp only [Session.stack, steady.file, steady.including]

namespace Logged

variable {α β : Type}

-- Two actions from one session: they finish the same tags, they end alike and in the same session, and the files around
-- are as before.
structure Tally (terms : Terms) (left right : Logged α) (s : Session) : Prop where
  outcome : SameOutcome terms.alike (left.walk.run.run s).1 (right.walk.run.run s).1
  session : (right.walk.run.run s).2 = (left.walk.run.run s).2
  stack : (left.walk.run.run s).2.stack = s.stack
  finished : (right.events s).filterMap Event.finished? = (left.events s).filterMap Event.finished?
  visits : ∀ visit before, .visited visit before ∈ left.events s → ∀ stack ∈ visit.nestings before, terms.around stack

-- They do so among these files if all paths are known that the first asks for.
def Tallies (terms : Terms) (stack : Stack) (left right : Logged α) : Prop :=
  ∀ s, s.stack = stack →
    (∀ visit before path, .visited visit before ∈ left.events s → visit.asks? before.stack = some path →
      terms.known path) →
      Tally terms left right s

section Rules

variable {terms : Terms} {stack : Stack} {left right : Logged α} {next other : α → Logged β}

-- What follows is compared for the values that the first part gives.
theorem Tallies.bind_given (first : Tallies terms stack left right)
    (rest : ∀ a, (∃ s t, left.walk.run.run s = (.ok a, t)) → Tallies terms stack (next a) (other a)) :
    Tallies terms stack (left >>= next) (right >>= other) := by
  intro s here asked
  have early := first s here fun visit before path member => asked visit before path (List.mem_append_left _ member)
  obtain ⟨outcome, session, kept, finished, visits⟩ := early
  rcases reached : left.walk.run.run s with ⟨e | a, t⟩
  · obtain ⟨goes, events⟩ := @bind_of_error _ _ _ next _ _ _ reached
    rw [reached] at outcome session kept
    obtain ⟨e', failed, same⟩ := outcome.error (β := β)
    have ends : right.walk.run.run s = (.error e', t) := Prod.ext failed session
    obtain ⟨follows, events'⟩ := @bind_of_error _ _ _ other _ _ _ ends
    refine ⟨?_, ?_, ?_, ?_, ?_⟩
    · rw [goes, follows]
      exact same
    · rw [goes, follows]
    · rw [goes]
      exact kept
    · rw [events, events']
      exact finished
    · rw [events]
      exact visits
  · obtain ⟨goes, events⟩ := @bind_of_ok _ _ _ next _ _ _ reached
    rw [reached] at outcome session kept
    have ends : right.walk.run.run s = (.ok a, t) := Prod.ext outcome.ok session
    obtain ⟨follows, events'⟩ := @bind_of_ok _ _ _ other _ _ _ ends
    rw [events] at asked
    obtain ⟨outcome', session', kept', finished', visits'⟩ := rest a ⟨s, t, reached⟩ t (kept.trans here) fun visit before path member =>
      asked visit before path (List.mem_append_right _ member)
    refine ⟨?_, ?_, ?_, ?_, ?_⟩
    · rw [goes, follows]
      exact outcome'
    · rw [goes, follows]
      exact session'
    · rw [goes]
      exact kept'.trans kept
    · rw [events, events', List.filterMap_append, List.filterMap_append, finished, finished']
    · rw [events]
      intro visit before member
      rcases List.mem_append.mp member with old | new
      · exact visits visit before old
      · exact visits' visit before new

theorem Tallies.bind (first : Tallies terms stack left right) (rest : ∀ a, Tallies terms stack (next a) (other a)) :
    Tallies terms stack (left >>= next) (right >>= other) :=
  first.bind_given fun a _ => rest a

-- A step that neither visits a node nor touches the files.
theorem tallies_step {action : Logged α} (still : ∀ s, (action.walk.run.run s).2.stack = s.stack)
    (unvisited : ∀ s visit before, .visited visit before ∉ action.events s) : Tallies terms stack action action :=
  fun s _ _ => ⟨.refl _, rfl, still s, rfl, fun visit before member => absurd member (unvisited s visit before)⟩

theorem tallies_still {walk : Walk α} (still : ∀ s, (walk.run.run s).2.stack = s.stack) :
    Tallies terms stack (quiet walk) (quiet walk) :=
  tallies_step still fun _ _ _ => List.not_mem_nil

theorem tallies_noted {walk : Walk α} {event : Session → Event} (still : ∀ s, (walk.run.run s).2.stack = s.stack)
    (unvisited : ∀ s visit before, event s ≠ .visited visit before) :
    Tallies terms stack (noted event walk) (noted event walk) :=
  tallies_step still fun s visit before member => unvisited s visit before (List.mem_singleton.mp member).symm

theorem tallies_plain {walk : Walk α} (plain : Walk.Plain walk) : Tallies terms stack (quiet walk) (quiet walk) :=
  tallies_still fun s => (plain.steady s).stack

theorem tallies_pure (a : α) : Tallies terms stack (pure a) (pure a) := tallies_plain (Walk.plain_pure a)

theorem Tallies.finishing (tallies : Tallies terms stack left right) (e : Element) (place : Place) :
    Tallies terms stack (finishing e place left) (finishing e place right) :=
  tallies.bind fun a => (tallies_noted (fun _ => rfl) (by simp)).bind fun _ => tallies_pure a

theorem Tallies.ensuring {cleanup : Session → Session} (tallies : Tallies terms stack left right)
    (still : ∀ t, (cleanup t).stack = t.stack) :
    Tallies terms stack (ensuring left cleanup) (ensuring right cleanup) := by
  intro s here asked
  obtain ⟨outcome, session, kept, finished, visits⟩ := tallies s here asked
  have leftRuns := run_ensuring left.walk cleanup s
  have rightRuns := run_ensuring right.walk cleanup s
  rw [← walk_ensuring] at leftRuns rightRuns
  refine ⟨?_, ?_, ?_, finished, visits⟩
  · rw [leftRuns, rightRuns]
    exact outcome
  · rw [leftRuns, rightRuns, session]
  · rw [leftRuns]
    exact (still _).trans kept

-- Reading the session.
theorem Tallies.get {next other : Session → Logged β}
    (tallies : ∀ s, s.stack = stack → Tallies terms stack (next s) (other s)) :
    Tallies terms stack (quiet MonadState.get >>= next) (quiet MonadState.get >>= other) := by
  intro s here asked
  obtain ⟨outcome, session, kept, finished, visits⟩ := tallies s here s here asked
  exact ⟨outcome, session, kept, finished, visits⟩

-- A visit. What happens in it may take the path for known that it asks for.
theorem Tallies.visiting {visit again : Visit} {left right : Logged Code} (same : left.walk = visit.walk)
    (around : terms.around stack)
    (opened : (∀ path, visit.asks? stack = some path → terms.known path) →
      ∀ inner, visit.opens? stack = some inner → terms.around inner)
    (tallies : (∀ path, visit.asks? stack = some path → terms.known path) → Tallies terms stack left right) :
    Tallies terms stack (visiting visit left) (visiting again right) := by
  intro s here asked
  have known : ∀ path, visit.asks? stack = some path → terms.known path := by
    intro path asks
    rw [← here] at asks
    exact asked visit s path List.mem_cons_self asks
  obtain ⟨outcome, session, kept, finished, visits⟩ := tallies known s here fun visit before path member =>
    asked visit before path (List.mem_cons_of_mem _ member)
  refine ⟨outcome, session, kept, finished, ?_⟩
  intro other before member
  rcases List.mem_cons.mp member with first | later
  · cases first
    rw [same] at kept
    intro found listed
    rw [Visit.nestings, kept, here] at listed
    rcases List.mem_cons.mp listed with same | listed
    · rw [same]
      exact around
    · rcases List.mem_cons.mp listed with same | listed
      · rw [same]
        exact around
      · exact opened known found (Option.mem_toList.mp listed)
  · exact visits other before later

end Rules

section Controls

variable {terms : Terms} {stack : Stack} {e : Element} {body other : Logged Code}

theorem tallies_conditional (tallies : Tallies terms stack body other) :
    Tallies terms stack (conditional e body) (conditional e other) :=
  (tallies_plain (Walk.plain_require e _)).bind fun _ => tallies.bind fun _ =>
    tallies_plain (Walk.plain_conditional e _ _)

theorem tallies_loop (tallies : Tallies terms stack body other) : Tallies terms stack (loop e body) (loop e other) :=
  (tallies_plain (Walk.plain_require e _)).bind fun _ => (tallies_plain (Walk.plain_require e _)).bind fun _ =>
    tallies.bind fun _ => tallies_plain (Walk.plain_loop e _ _ _)

theorem tallies_switch (tallies : Tallies terms stack body other) :
    Tallies terms stack (switch e body) (switch e other) := by
  refine (tallies_still fun _ => rfl).bind fun _ => ?_
  have inner : Tallies terms stack
      (body >>= fun code => quiet do
        return if (← get).switches.chained e.id then code ++ Output.closeBlock else code)
      (other >>= fun code => quiet do
        return if (← get).switches.chained e.id then code ++ Output.closeBlock else code) :=
    tallies.bind fun code => tallies_plain (Walk.plain_chained e.id code)
  exact inner.ensuring fun _ => rfl

theorem tallies_case {inside : Option NodeId} (tallies : Tallies terms stack body other) :
    Tallies terms stack (case e inside body) (case e inside other) := by
  cases inside with
  | none => exact tallies_plain (Walk.plain_fail _ _)
  | some switch =>
    refine (tallies_noted (fun _ => rfl) (by nofun)).bind fun branch => ?_
    cases branch with
    | none => exact tallies_plain (Walk.plain_fail _ _)
    | some branch =>
      exact (tallies_plain (Walk.plain_require e _)).bind fun _ => tallies.bind fun _ =>
        tallies_plain (Walk.plain_case e _ branch _)

theorem tallies_default {inside : Option NodeId} (tallies : Tallies terms stack body other) :
    Tallies terms stack (default e inside body) (default e inside other) := by
  cases inside with
  | none => exact tallies_plain (Walk.plain_fail _ _)
  | some switch =>
    refine (tallies_noted (fun _ => rfl) (by nofun)).bind fun branch => ?_
    exact tallies.bind fun _ => tallies_pure _

theorem tallies_control {kind : Control} {inside : Option NodeId} {body other : Option NodeId → Logged Code}
    (tallies : ∀ inner, Tallies terms stack (body inner) (other inner)) :
    Tallies terms stack (control kind e inside body) (control kind e inside other) := by
  cases kind with
  | conditional => exact tallies_conditional (tallies none)
  | loop => exact tallies_loop (tallies none)
  | switch => exact tallies_switch (tallies (some e.id))
  | case => exact tallies_case (tallies none)
  | default => exact tallies_default (tallies none)

end Controls

section Attributes

variable {terms : Terms} {stack : Stack}

-- A visit in a fragment asks for nothing.
theorem tallies_applied (around : terms.around stack) {attrsOf : Nat} {inside : Option NodeId} {tree : Tree} {action : Logged Code}
    (same : action.walk = Walk.appliedTree attrsOf inside tree) (tallies : Tallies terms stack action action) :
    Tallies terms stack (visiting (.applied attrsOf inside tree) action) (visiting (.applied attrsOf inside tree) action) :=
  .visiting same around (fun _ _ opened => nomatch opened) fun _ => tallies

mutual

theorem tallies_appliedTree (around : terms.around stack) (attrsOf : Nat) : ∀ (inside : Option NodeId) (tree : Tree),
    Tallies terms stack (appliedTree attrsOf inside tree) (appliedTree attrsOf inside tree)
  | inside, .node id ⟨identity, .tag tag, location⟩ children => by
    have same := walk_appliedTree attrsOf inside (.node id ⟨identity, .tag tag, location⟩ children)
    rw [appliedTree] at same ⊢
    refine tallies_applied around same ?_
    cases TagKind.ofName? tag.name with
    | none => exact tallies_pure _
    | some meaning =>
      cases meaning with
      | attr flow =>
        cases flow with
        | content => exact tallies_pure _
        | applied => exact tallies_plain (Walk.plain_appliedAttr attrsOf _)
      | control kind flow =>
        cases flow with
        | content => exact tallies_pure _
        | applied => exact tallies_control fun inner => tallies_appliedTrees around attrsOf inner children
      | _ => exact tallies_pure _
  | inside, .node id ⟨identity, .leaf leaf, location⟩ children => by
    have same := walk_appliedTree attrsOf inside (.node id ⟨identity, .leaf leaf, location⟩ children)
    rw [appliedTree] at same ⊢
    exact tallies_applied around same (tallies_pure _)

theorem tallies_appliedTrees (around : terms.around stack) (attrsOf : Nat) : ∀ (inside : Option NodeId) (trees : List Tree),
    Tallies terms stack (appliedTrees attrsOf inside trees) (appliedTrees attrsOf inside trees)
  | _, [] => tallies_pure _
  | inside, tree :: rest =>
    (tallies_appliedTree around attrsOf inside tree).bind fun _ =>
      (tallies_appliedTrees around attrsOf inside rest).bind fun _ => tallies_pure _

end

theorem tallies_attrBlock (around : terms.around stack) (linked : Walk.Linked) (attrs : List Attr) (location : Location) :
    Tallies terms stack (attrBlock linked attrs location) (attrBlock linked attrs location) := by
  refine Tallies.get fun s _ => (tallies_appliedTrees around linked.attrsOf none _).bind fun applied => ?_
  exact tallies_plain ((Walk.plain_ownAttrs linked.attrsOf location attrs).bind fun own =>
    Walk.plain_pure (Code.concat [Output.reset (Output.attrs linked.attrsOf), applied, own]))

end Attributes

section Contents

variable {terms : Terms} {stack : Stack} {place : Place} {sink : Nat} {e : Element}

theorem tallies_withFragment {id : NodeId} {action other : Walk.Linked → Logged α}
    (tallies : ∀ linked, Tallies terms stack (action linked) (other linked)) :
    Tallies terms stack (withFragment id action) (withFragment id other) :=
  (tallies_noted (fun _ => rfl) (by nofun)).bind fun linked => (tallies linked).ensuring fun _ => rfl

theorem tallies_leafCode (around : terms.around stack) {id : NodeId} {identity : Nat} {location : Location} (leaf : Leaf) :
    Tallies terms stack (leafCode place sink id identity location leaf) (leafCode place sink id identity location leaf) := by
  cases leaf with
  | script attrs body =>
    exact tallies_withFragment fun linked => (tallies_attrBlock around linked attrs location).bind fun _ => tallies_pure _
  | _ => exact tallies_plain (Walk.plain_leafCode _ _ _ _ _ nofun)

theorem tallies_copyInto (fragment : NodeId) (advance : Bool) :
    Tallies terms stack (copyInto fragment e advance) (copyInto fragment e advance) :=
  tallies_noted (fun _ => rfl) (by nofun)

theorem tallies_ownerAttribute : Tallies terms stack (ownerAttribute place e) (ownerAttribute place e) := by
  refine (tallies_plain (Walk.plain_require e _)).bind fun _ => (tallies_plain (Walk.plain_require e _)).bind fun _ => ?_
  cases place.owner with
  | none => exact tallies_plain (Walk.plain_fail _ _)
  | some fragment => exact (tallies_copyInto fragment false).bind fun _ => tallies_pure _

theorem tallies_template {body other : Nat → Logged Code} (tallies : ∀ sink, Tallies terms stack (body sink) (other sink)) :
    Tallies terms stack (template e body) (template e other) :=
  (tallies_plain (Walk.plain_templateName e)).bind fun _ => (tallies e.identity).bind fun _ =>
    tallies_plain ((Walk.plain_target _ _ _).bind fun _ => Walk.plain_pure _)

variable {body other : Place → Nat → Logged Code}
  (tallies : ∀ place sink, Tallies terms stack (body place sink) (other place sink))

include tallies in
theorem tallies_contentControl {kind : Control} :
    Tallies terms stack (contentControl kind place sink e body) (contentControl kind place sink e other) := by
  have enters : Tallies terms stack (enterCopy place e) (enterCopy place e) := by
    rw [enterCopy]
    cases place.owner with
    | none => exact tallies_pure _
    | some fragment => exact tallies_copyInto fragment true
  have leaves : ∀ s, ((Walk.leaveCopy place).run.run s).2.stack = s.stack := by
    intro s
    unfold Walk.leaveCopy
    cases place.owner <;> rfl
  exact enters.bind fun _ => tallies_control fun inner => (tallies _ sink).bind fun _ => (tallies_still leaves).bind fun _ =>
    tallies_pure _

include tallies in
theorem tallies_tagParts (around : terms.around stack) : Tallies terms stack (tagParts e body) (tagParts e other) := by
  refine tallies_withFragment fun linked => ?_
  have children : Tallies terms stack (ownChildren e linked.fragment body) (ownChildren e linked.fragment other) := by
    unfold ownChildren
    split
    · exact tallies_pure _
    · exact tallies _ _
  exact children.bind fun _ => (tallies_attrBlock around linked e.tag.attrs e.location).bind fun _ => tallies_pure _

-- What two environments say about a path among these files: it leads nowhere, for reasons that count as alike, or to one
-- template whose nodes are compiled alike.
inductive Finds (terms : Terms) (stack : Stack) (env again : Env) (path : Path) : Prop where
  | nowhere : env.reach path = none → again.reach path = none → terms.alike (env.fault path) (again.fault path) →
    Finds terms stack env again path
  | found {template : Template} {compiler other : Compiler} : env.reach path = some (template, compiler) →
    again.reach path = some (template, other) → terms.around (stack.push path) →
    (∀ place sink trees, Tallies terms (stack.push path) (compiler place sink trees) (other place sink trees)) →
    Finds terms stack env again path

structure Env.Tallies (terms : Terms) (stack : Stack) (env again : Env) : Prop where
  options : again.options = env.options
  finds : ∀ path, path ∉ stack.files → terms.known path → Finds terms stack env again path

variable {env again : Env}

theorem require_given {name : String} {part : Part} {s t : Session}
    (given : (e.require name).run.run s = (.ok part, t)) : Attr.param? e.tag.attrs name = some part := by
  unfold Element.require at given
  cases found : e.param? name with
  | none =>
    rw [found] at given
    cases given
  | some other =>
    rw [found] at given
    cases given
    exact found

-- The part of an include behind its checks.
def loading (s : Session) (path : Path) (template : Template) (e : Element) (compile : List Tree → Logged Code) :
    Logged Code := do
  noted (fun _ => .loaded template) (return ())
  noted (fun s => .changed (.included e.id template.nodes) s.document) <| set { s with
    document := Operation.apply s.document (.included e.id template.nodes),
    file := path,
    including := s.file :: s.including }
  ensuring (compile (s.document.importFresh template.nodes (s.document.parent? e.id)).1) fun after =>
    { after with file := s.file, including := s.including }

-- The file taken in is compiled among the files around it and itself; the session returns to the files around.
theorem tallies_loading {path : Path} {template : Template} {compiler again : Compiler} {s : Session}
    (compiles : ∀ place sink trees,
      Tallies terms (s.stack.push path) (compiler place sink trees) (again place sink trees)) :
    Tallies terms s.stack (loading s path template e (compiler place sink)) (loading s path template e (again place sink)) := by
  intro t here asked
  let entered : Session := { s with
    document := Operation.apply s.document (.included e.id template.nodes)
    file := path
    including := s.file :: s.including }
  let leave : Session → Session := fun after => { after with file := s.file, including := s.including }
  let trees := (s.document.importFresh template.nodes (s.document.parent? e.id)).1
  obtain ⟨outcome, session, _, finished, visits⟩ := compiles place sink trees entered rfl fun visit before path member =>
    asked visit before path (List.mem_cons_of_mem _ (List.mem_cons_of_mem _ member))
  have runs (action : Compiler) : (loading s path template e (action place sink)).walk.run.run t =
      (((action place sink trees).walk.run.run entered).1, leave ((action place sink trees).walk.run.run entered).2) :=
    run_ensuring (action place sink trees).walk leave entered
  refine ⟨?_, ?_, ?_, finished, ?_⟩
  · rw [runs, runs]
    exact outcome
  · rw [runs, runs, session]
  · rw [runs]
    exact here.symm
  · intro visit before member
    rcases List.mem_cons.mp member with loaded | member
    · cases loaded
    · rcases List.mem_cons.mp member with changed | member
      · cases changed
      · exact visits visit before member

theorem tallies_including (files : Env.Tallies terms stack env again)
    (known : ∀ path, stack.target? e.tag = some path → terms.known path) :
    Tallies terms stack (including env place sink e) (including again place sink e) := by
  refine (tallies_plain (Walk.plain_require e _)).bind_given fun part given => ?_
  obtain ⟨_, _, given⟩ := given
  have param := require_given given
  cases fixed : part.fixed? with
  | none => exact tallies_plain (Walk.plain_fail _ _)
  | some source =>
    refine Tallies.get fun s here => ?_
    subst here
    by_cases cyclic : Walk.includePath s.file source ∈ s.file :: s.including
    · rw [if_pos cyclic, if_pos cyclic]
      exact tallies_plain (Walk.plain_fail _ _)
    · rw [if_neg cyclic, if_neg cyclic]
      have target : s.stack.target? e.tag = some (Walk.includePath s.file source) := by
        simp only [Stack.target?, param, fixed, Option.bind_eq_bind, Option.bind_some]
        exact if_neg cyclic
      rcases files.finds _ cyclic (known _ target) with ⟨missing, missing', alike⟩ | ⟨reached, reached', _, compiles⟩
      · rw [missing, missing']
        exact fun t _ _ => ⟨.failed alike, rfl, rfl, rfl, nofun⟩
      · rw [reached, reached']
        exact tallies_loading compiles

-- All kinds of tags; an include is one for its name.
theorem tallies_kindCode {kind : TagKind} (around : terms.around stack) (files : Env.Tallies terms stack env again)
    (known : kind = .including → ∀ path, stack.target? e.tag = some path → terms.known path)
    (tallies : ∀ place sink, Tallies terms stack (body place sink) (other place sink)) :
    Tallies terms stack (kindCode env place sink e body kind) (kindCode again place sink e other kind) := by
  cases kind with
  | parameter => exact tallies_plain (Walk.plain_parameter e)
  | assignment => exact tallies_plain (Walk.plain_assignment e)
  | attr flow =>
    cases flow with
    | content => exact tallies_ownerAttribute
    | applied => exact tallies_plain (Walk.plain_strayAttribute e)
  | control kind flow =>
    cases flow with
    | content => exact tallies_contentControl tallies
    | applied => exact tallies_control fun inner => tallies { place with inside := inner } sink
  | importing =>
    rw [kindCode, kindCode, files.options]
    exact tallies_still fun s => (Walk.steady_importing env.options e s).stack
  | template => exact tallies_template (tallies .outermost)
  | state => exact tallies_plain (Walk.plain_useState e)
  | including => exact tallies_including files (known rfl)
  | component =>
    rw [kindCode, kindCode, files.options]
    exact (tallies_tagParts tallies around).bind fun _ => tallies_pure _
  | literal =>
    rw [kindCode, kindCode, files.options]
    exact (tallies_tagParts tallies around).bind fun _ => tallies_pure _

theorem tallies_tagCode (around : terms.around stack) (files : Env.Tallies terms stack env again)
    (known : ∀ path, e.tag.asks? stack = some path → terms.known path)
    (tallies : ∀ place sink, Tallies terms stack (body place sink) (other place sink)) :
    Tallies terms stack (tagCode env place sink e body) (tagCode again place sink e other) := by
  refine Tallies.get fun s _ => tallies_kindCode around files (fun kind path target => known path ?_) tallies
  have named := (TagKind.ofName?_of_classify kind).resolve_right (by simp)
  exact (if_pos named).trans target

-- The files around the nodes of a file that is taken in.
theorem Env.Tallies.around {tag : Tag} {inner : Stack} (files : Env.Tallies terms stack env again)
    (known : ∀ path, tag.asks? stack = some path → terms.known path)
    (opened : ((tag.asks? stack).filter fun path => (env.plain.reach path).isSome).map stack.push = some inner) :
    terms.around inner := by
  obtain ⟨path, kept, rfl⟩ := Option.map_eq_some_iff.mp opened
  obtain ⟨asks, reached⟩ := Option.filter_eq_some_iff.mp kept
  obtain ⟨_, _, outside⟩ := Tag.asks?_eq_some asks
  rcases files.finds path outside (known path asks) with ⟨missing, _⟩ | ⟨_, _, around, _⟩
  · simp [Env.plain, missing] at reached
  · exact around

mutual

theorem tallies_contentTree (around : terms.around stack) (files : Env.Tallies terms stack env again) :
    ∀ (place : Place) (sink : Nat) (tree : Tree),
      Tallies terms stack (contentTree env place sink tree) (contentTree again place sink tree)
  | place, sink, .node id ⟨identity, .leaf leaf, location⟩ children => by
    have same := walk_contentTree env place sink (.node id ⟨identity, .leaf leaf, location⟩ children)
    rw [contentTree] at same ⊢
    rw [contentTree]
    exact .visiting same around (fun _ _ opened => nomatch opened) fun _ => tallies_leafCode around leaf
  | place, sink, .node id ⟨identity, .tag tag, location⟩ children => by
    have same := walk_contentTree env place sink (.node id ⟨identity, .tag tag, location⟩ children)
    rw [contentTree] at same ⊢
    rw [contentTree]
    refine .visiting same around ?_ fun known =>
      tallies_tagCode around files known fun place sink =>
        (tallies_contentTrees around files place sink children).finishing _ place
    exact fun known inner opened => Env.Tallies.around files known opened

theorem tallies_contentTrees (around : terms.around stack) (files : Env.Tallies terms stack env again) :
    ∀ (place : Place) (sink : Nat) (trees : List Tree),
      Tallies terms stack (contentTrees env place sink trees) (contentTrees again place sink trees)
  | _, _, [] => tallies_pure _
  | place, sink, tree :: rest =>
    (tallies_contentTree around files place sink tree).bind fun _ =>
      (tallies_contentTrees around files place sink rest).bind fun _ => tallies_pure _

end

end Contents

end Logged

end Stencil
