import Stencil.Proofs.Agreement
import Stencil.Proofs.Chronicle

-- Parts of the walk in which nothing happens. They may read the document and the file, and what they change is the
-- scope. So neither the shared names nor the fragments mean anything to them.

namespace Stencil

section Binds

variable {α β : Type} {first : Logged α} {next : α → Logged β} {s t : Session}

-- What happens in two actions, one behind the other.
theorem Logged.bind_of_ok {a : α} (reached : first.walk.run.run s = (.ok a, t)) :
    (first >>= next).walk.run.run s = (next a).walk.run.run t ∧
      (first >>= next).events s = first.events s ++ (next a).events t := by
  refine ⟨by rw [walk_bind, run_bind, reached], ?_⟩
  show first.events s ++ _ = _
  rw [reached]

theorem Logged.bind_of_error {e : CompileError} (reached : first.walk.run.run s = (.error e, t)) :
    (first >>= next).walk.run.run s = (.error e, t) ∧ (first >>= next).events s = first.events s := by
  refine ⟨by rw [walk_bind, run_bind, reached], ?_⟩
  show first.events s ++ _ = _
  rw [reached, List.append_nil]

end Binds

namespace Walk

variable {α β : Type}

-- Whatever names are shared and whatever fragments there are, the outcome is the same and nothing changes but the scope.
def Plain (walk : Walk α) : Prop :=
  ∀ s : Session, ∃ outcome scope, ∀ shared fragments,
    walk.run.run { s with shared := shared, fragments := fragments } =
      (outcome, { s with shared := shared, fragments := fragments, scope := scope })

theorem Plain.run {walk : Walk α} (plain : Plain walk) (s : Session) : ∃ outcome scope,
    walk.run.run s = (outcome, { s with scope := scope }) ∧ ∀ shared,
      walk.run.run { s with shared := shared } = (outcome, { s with shared := shared, scope := scope }) := by
  obtain ⟨outcome, scope, runs⟩ := plain s
  exact ⟨outcome, scope, runs s.shared s.fragments, fun shared => runs shared s.fragments⟩

theorem plain_pure (a : α) : Plain (pure a) := fun s => ⟨.ok a, s.scope, fun _ _ => rfl⟩

theorem plain_fail (cause : Cause) (location : Location) : Plain (fail cause location : Walk α) :=
  fun s => ⟨.error ⟨cause, s.file.text, location⟩, s.scope, fun _ _ => rfl⟩

theorem Plain.bind {first : Walk α} {next : α → Walk β} (plain : Plain first) (rest : ∀ a, Plain (next a)) :
    Plain (first >>= next) := by
  intro s
  obtain ⟨outcome, scope, runs⟩ := plain s
  cases outcome with
  | error e =>
    refine ⟨.error e, scope, fun shared fragments => ?_⟩
    rw [run_bind, runs shared fragments]
  | ok a =>
    obtain ⟨final, after, goes⟩ := rest a { s with scope := scope }
    refine ⟨final, after, fun shared fragments => ?_⟩
    rw [run_bind, runs shared fragments]
    exact goes shared fragments

theorem plain_expr (context : Expr.Context) (e : Expr) (location : Location) : Plain (expr context e location) := by
  intro s
  cases emitted : e.emit? context with
  | none =>
    refine ⟨.error ⟨.unsupportedExpression, s.file.text, location⟩, s.scope.after context e, fun shared fragments => ?_⟩
    unfold expr
    rw [emitted]
    rfl
  | some code =>
    refine ⟨.ok code, s.scope.after context e, fun shared fragments => ?_⟩
    unfold expr
    rw [emitted]
    rfl

theorem plain_part (context : Expr.Context) (p : Part) (location : Location) : Plain (part context p location) := by
  cases p with
  | literal text => exact plain_pure _
  | expression e => exact plain_expr context e location

theorem plain_target (context : Expr.Context) (p : Part) (location : Location) : Plain (target context p location) := by
  cases p <;> exact plain_expr context _ location

theorem plain_require (e : Element) (name : String) : Plain (e.require name) := by
  unfold Element.require
  split
  · exact plain_pure _
  · exact plain_fail _ _

theorem plain_value (e : Element) (p : Part) : Plain (e.value p) := plain_part _ p _

theorem plain_condition (e : Element) (p : Part) : Plain (e.condition p) := plain_part _ p _

theorem plain_isChildless (e : Element) : Plain e.isChildless :=
  fun s => ⟨.ok (s.document.children e.id).isEmpty, s.scope, fun _ _ => rfl⟩

theorem plain_binding (e : Element) (item : Part) : Plain (binding e item) := by
  unfold binding
  split
  · exact (plain_target _ _ _).bind fun _ => (plain_target _ _ _).bind fun _ => plain_pure _
  · exact plain_target _ _ _

-- The end of a conditional, behind the code of its children.
theorem plain_conditional (e : Element) (test : Part) (code : Code) : Plain (do
    if ← e.isChildless then return .empty
    return Output.conditional (← e.condition test) code) := by
  refine (plain_isChildless e).bind fun childless => ?_
  cases childless with
  | true => exact plain_pure _
  | false => exact (plain_condition e test).bind fun _ => plain_pure _

theorem plain_loop (e : Element) (source item : Part) (code : Code) : Plain (do
    if ← e.isChildless then return .empty
    let source ← e.value source
    return Output.loop source (← binding e item) code) := by
  refine (plain_isChildless e).bind fun childless => ?_
  cases childless with
  | true => exact plain_pure _
  | false => exact (plain_value e source).bind fun _ => (plain_binding e item).bind fun _ => plain_pure _

theorem plain_chained (id : NodeId) (code : Code) :
    Plain do return if (← get).switches.chained id then code ++ Output.closeBlock else code :=
  fun s => ⟨.ok (if s.switches.chained id then code ++ Output.closeBlock else code), s.scope, fun _ _ => rfl⟩

theorem plain_case (e : Element) (test : Part) (branch : CaseBranch) (code : Code) : Plain (do
    let test ← e.condition test
    match branch with
    | .begins => return Output.firstCase test code
    | .chains => return Output.nextCase test code) := by
  refine (plain_condition e test).bind fun _ => ?_
  cases branch <;> exact plain_pure _

theorem plain_appliedAttr (attrsOf : Nat) (e : Element) : Plain (appliedAttr attrsOf e) :=
  (plain_require e _).bind fun _ => (plain_require e _).bind fun _ => (plain_value e _).bind fun _ =>
    (plain_value e _).bind fun _ => plain_pure _

theorem plain_ownAttrs (attrsOf : Nat) (location : Location) (attrs : List Attr) :
    Plain (ownAttrs attrsOf location attrs) := by
  induction attrs with
  | nil => exact plain_pure _
  | cons attr rest ih =>
    have own : Plain (ownAttr attrsOf location attr) := by
      refine (plain_part _ _ _).bind fun name => ?_
      cases attr.value with
      | none => exact plain_pure _
      | some value => exact (plain_part _ _ _).bind fun _ => plain_pure _
    exact own.bind fun _ => ih.bind fun _ => plain_pure _

theorem plain_parameter (e : Element) : Plain (parameter e) :=
  (plain_require e _).bind fun _ => (plain_require e _).bind fun _ => (plain_target _ _ _).bind fun _ =>
    (plain_value e _).bind fun _ => plain_pure _

theorem plain_assignment (e : Element) : Plain (assignment e) :=
  (plain_require e _).bind fun _ => (plain_require e _).bind fun _ => (plain_target _ _ _).bind fun _ =>
    (plain_value e _).bind fun _ => plain_pure _

theorem plain_strayAttribute (e : Element) : Plain (strayAttribute e) :=
  (plain_require e _).bind fun _ => (plain_require e _).bind fun _ => plain_fail _ _

-- A check that may fail in front of the rest.
theorem Plain.guarded {c : Prop} [Decidable c] {check : Walk Unit} {next : Unit → Walk α} (plain : Plain check)
    (rest : ∀ a, Plain (next a)) : Plain (if c then check >>= next else next ()) := by
  split
  · exact plain.bind rest
  · exact rest ()

theorem plain_useState (e : Element) : Plain (useState e) := by
  refine (plain_require e _).bind fun name => .guarded (plain_fail _ _) fun _ => ?_
  cases stateName? name with
  | none => exact plain_fail _ _
  | some stored =>
    refine (plain_target _ _ _).bind fun _ => ?_
    cases e.param? "value" with
    | none => exact plain_pure _
    | some value => exact (plain_value e _).bind fun _ => plain_pure _

-- The beginning of a template tag.
theorem plain_templateName (e : Element) : Plain (do
    let name ← e.require "name"
    if e.tag.selfClosing then e.fail .selfClosingTemplate
    return name) :=
  (plain_require e _).bind fun _ => .guarded (plain_fail _ _) fun _ => plain_pure _

-- All leaves but scripts.
theorem plain_leafCode (place : Place) (sink : Nat) (id : NodeId) (identity : Nat) (location : Location) {leaf : Leaf}
    (other : ∀ attrs body, leaf ≠ .script attrs body) : Plain (leafCode place sink id identity location leaf) := by
  cases leaf with
  | text value =>
    rw [leafCode]
    split
    · split
      · exact plain_pure _
      · exact plain_fail _ _
    · exact plain_pure _
  | comment value => exact plain_pure _
  | string value => exact plain_pure _
  | slot e => exact (plain_expr _ e _).bind fun _ => plain_pure _
  | block e => exact (plain_expr _ e _).bind fun _ => plain_pure _
  | script attrs body => exact absurd rfl (other attrs body)

end Walk

-- The name of the component that a tag names, if the tag can import it.
def Tag.componentName? (tag : Tag) : Option String :=
  if (Attr.param? tag.attrs "from").isSome then
    ((Attr.param? tag.attrs "name").bind Part.fixed?).filter fun name => name.toList.contains '-'
  else none

-- The session after a name was registered.
def Session.registering (s : Session) (name : String) : Session :=
  { s with
    registry := (s.registry.register s.shared name).1
    shared := (s.registry.register s.shared name).2 }

namespace Walk

variable {α β : Type}

-- An import registers a name, or else nothing happens in it.
theorem importing_cases (options : Options) (e : Element) :
    (e.tag.componentName? = none ∧ Plain (importing options e)) ∨
      ∃ name tail, e.tag.componentName? = some name ∧ Plain tail ∧
        importing options e = (modify fun s => s.registering name) >>= fun _ => tail := by
  have failing (cause : Cause) (next : Part → Walk Code) : Plain (fail cause e.location >>= next) :=
    fun s => ⟨.error ⟨cause, s.file.text, e.location⟩, s.scope, fun _ _ => rfl⟩
  unfold importing Element.require Tag.componentName? Element.param?
  cases Attr.param? e.tag.attrs "name" with
  | none => exact .inl ⟨by simp, failing _ _⟩
  | some name =>
    simp only [pure_bind]
    cases Attr.param? e.tag.attrs "from" with
    | none => exact .inl ⟨by simp, failing _ _⟩
    | some source =>
      simp only [pure_bind, Option.isSome_some, if_true, Option.bind_some]
      cases name.fixed?.filter fun name => name.toList.contains '-' with
      | none => exact .inl ⟨rfl, plain_fail _ _⟩
      | some component =>
        exact .inr ⟨component, _, rfl, (plain_value e source).bind fun _ => plain_pure _, rfl⟩

theorem Plain.steady {walk : Walk α} (plain : Plain walk) (s : Session) : Session.Steady s (walk.run.run s).2 := by
  obtain ⟨outcome, scope, runs, _⟩ := plain.run s
  rw [runs]
  exact ⟨⟨rfl, rfl, rfl, rfl⟩, rfl⟩

theorem steady_importing (options : Options) (e : Element) (s : Session) :
    Session.Steady s ((importing options e).run.run s).2 := by
  rcases importing_cases options e with ⟨_, plain⟩ | ⟨name, tail, _, plain, same⟩
  · exact plain.steady s
  · have registered : Session.Steady s (s.registering name) := ⟨⟨rfl, rfl, rfl, rfl⟩, rfl⟩
    rw [same]
    exact registered.trans (plain.steady _)

-- Parts of the walk that read no fragment table: the tags with fragments and the cursors may be any, and stay as they
-- are. So does the document.
def Aloof (walk : Walk α) : Prop :=
  ∀ s : Session, (walk.run.run s).2.document = s.document ∧ ∀ fragments,
    walk.run.run { s with fragments := fragments } =
      ((walk.run.run s).1, { (walk.run.run s).2 with fragments := fragments })

theorem Aloof.fragments {walk : Walk α} (aloof : Aloof walk) (s : Session) :
    (walk.run.run s).2.fragments = s.fragments :=
  congrArg (fun reached => reached.2.fragments) ((aloof s).2 s.fragments)

theorem Plain.aloof {walk : Walk α} (plain : Plain walk) : Aloof walk := by
  intro s
  obtain ⟨outcome, scope, runs⟩ := plain s
  have own : walk.run.run s = (outcome, { s with scope := scope }) := runs s.shared s.fragments
  refine ⟨by rw [own], fun fragments => ?_⟩
  rw [own]
  exact runs s.shared fragments

theorem Aloof.bind {first : Walk α} {next : α → Walk β} (aloof : Aloof first) (rest : ∀ a, Aloof (next a)) :
    Aloof (first >>= next) := by
  intro s
  obtain ⟨document, runs⟩ := aloof s
  rcases reached : first.run.run s with ⟨e | a, t⟩
  · rw [reached] at document runs
    refine ⟨by rw [run_bind, reached]; exact document, fun fragments => ?_⟩
    rw [run_bind, run_bind, runs fragments, reached]
  · rw [reached] at document runs
    obtain ⟨later, goes⟩ := rest a t
    refine ⟨by rw [run_bind, reached]; exact later.trans document, fun fragments => ?_⟩
    rw [run_bind, run_bind, runs fragments, reached]
    exact goes fragments

-- The rest may depend on all but the fragments.
theorem aloof_get {next : Session → Walk α} (rest : ∀ s, Aloof (next s))
    (same : ∀ s fragments, next { s with fragments := fragments } = next s) : Aloof (get >>= next) := by
  intro s
  refine ⟨(rest s s).1, fun fragments => ?_⟩
  show (next { s with fragments := fragments }).run.run { s with fragments := fragments } = _
  rw [same s fragments]
  exact (rest s s).2 fragments

-- A change of the switches, in front of the rest or at the end.
theorem aloof_switches (change : Switches → Switches) :
    Aloof (modify fun s => { s with switches := change s.switches } : Walk Unit) :=
  fun _ => ⟨rfl, fun _ => rfl⟩

theorem Aloof.ensuring {walk : Walk α} (aloof : Aloof walk) (change : Switches → Switches) :
    Aloof (Walk.ensuring walk fun s => { s with switches := change s.switches }) := by
  intro s
  obtain ⟨document, runs⟩ := aloof s
  refine ⟨document, fun fragments => ?_⟩
  rw [run_ensuring, run_ensuring, runs fragments]

variable {e : Element} {body : Walk Code}

theorem aloof_conditional (aloof : Aloof body) : Aloof (conditional e body) :=
  (plain_require e _).aloof.bind fun test => aloof.bind fun code => (plain_conditional e test code).aloof

theorem aloof_loop (aloof : Aloof body) : Aloof (loop e body) :=
  (plain_require e _).aloof.bind fun source => (plain_require e _).aloof.bind fun item =>
    aloof.bind fun code => (plain_loop e source item code).aloof

theorem aloof_switch (aloof : Aloof body) : Aloof (switch e body) :=
  (aloof_switches _).bind fun _ => (aloof.bind fun code => (plain_chained e.id code).aloof).ensuring _

theorem aloof_case {inside : Option NodeId} (aloof : Aloof body) : Aloof (case e inside body) := by
  cases inside with
  | none => exact (plain_fail _ _).aloof
  | some switch =>
    refine aloof_get (fun s => (aloof_switches (·.withCase switch)).bind fun _ => ?_) fun _ _ => rfl
    cases s.switches.case? switch with
    | none => exact (plain_fail _ _).aloof
    | some branch =>
      exact (plain_require e _).aloof.bind fun test => aloof.bind fun code => (plain_case e test branch code).aloof

theorem aloof_default {inside : Option NodeId} (aloof : Aloof body) : Aloof (default e inside body) := by
  cases inside with
  | none => exact (plain_fail _ _).aloof
  | some switch =>
    refine aloof_get (fun s => (aloof_switches (·.withDefault switch)).bind fun _ => aloof.bind fun code => ?_) fun _ _ => rfl
    cases s.switches.default switch <;> exact (plain_pure _).aloof

theorem aloof_control {kind : Control} {inside : Option NodeId} {body : Option NodeId → Walk Code}
    (aloof : ∀ inner, Aloof (body inner)) : Aloof (control kind e inside body) := by
  cases kind with
  | conditional => exact aloof_conditional (aloof none)
  | loop => exact aloof_loop (aloof none)
  | switch => exact aloof_switch (aloof (some e.id))
  | case => exact aloof_case (aloof none)
  | default => exact aloof_default (aloof none)

mutual

theorem aloof_appliedTree (attrsOf : Nat) : ∀ (inside : Option NodeId) (tree : Tree), Aloof (appliedTree attrsOf inside tree)
  | inside, .node id ⟨identity, .tag tag, location⟩ children => by
    rw [appliedTree]
    split
    · exact (plain_appliedAttr attrsOf _).aloof
    · exact aloof_control fun inner => aloof_appliedTrees attrsOf inner children
    · exact (plain_pure _).aloof
  | inside, .node id ⟨identity, .leaf leaf, location⟩ children => by
    rw [appliedTree]
    exact (plain_pure _).aloof

theorem aloof_appliedTrees (attrsOf : Nat) : ∀ (inside : Option NodeId) (trees : List Tree),
    Aloof (appliedTrees attrsOf inside trees)
  | _, [] => (plain_pure _).aloof
  | inside, tree :: rest => by
    rw [appliedTrees]
    exact (aloof_appliedTree attrsOf inside tree).bind fun _ =>
      (aloof_appliedTrees attrsOf inside rest).bind fun _ => (plain_pure _).aloof

end

-- The attributes of a tag are the same wherever the cursor of its fragment is.
theorem aloof_attrBlock (linked : Linked) (attrs : List Attr) (location : Location) :
    Aloof (attrBlock linked attrs location) := by
  refine aloof_get (fun s => (aloof_appliedTrees _ _ _).bind fun _ => ?_) fun _ _ => rfl
  exact (plain_ownAttrs _ _ _).aloof.bind fun _ => (plain_pure _).aloof

end Walk

end Stencil
