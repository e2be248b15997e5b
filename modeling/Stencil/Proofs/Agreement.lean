import Stencil.Proofs.Draft
import Stencil.Proofs.Tables

-- The walk and the draft side by side. They agree from a session if both fail alike, or both succeed and end
-- with the same ledger. The rules below follow the way in which walks and drafts are put together.

namespace Stencil

section Runs

variable {ε σ α β : Type}

theorem run_bind (action : ExceptT ε (StateM σ) α) (next : α → ExceptT ε (StateM σ) β) (s : σ) :
    (action >>= next).run.run s = match action.run.run s with
      | (.ok a, s') => (next a).run.run s'
      | (.error e, s') => (.error e, s') := by
  rw [ExceptT.run_bind, StateT.run_bind]
  show (match action.run.run s with | (a, s') => _) = _
  rcases action.run.run s with ⟨_ | _, _⟩ <;> rfl

theorem run_within {branch : Option Switch} (draft : Draft α) (l : Ledger) :
    (Draft.within branch draft).run.run l = match draft.run.run { l with branch := branch } with
      | (.ok a, l') => (.ok a, { l' with branch := l.branch })
      | (.error e, l') => (.error e, l') := by
  show (draft >>= _).run.run { l with branch := branch } = _
  rw [run_bind]
  rcases draft.run.run { l with branch := branch } with ⟨_ | _, _⟩ <;> rfl

theorem run_ensuring (action : Walk α) (cleanup : Session → Session) (s : Session) :
    (Walk.ensuring action cleanup).run.run s = ((action.run.run s).1, cleanup (action.run.run s).2) := rfl

end Runs

namespace Session

-- What a draft knows of a session, for a node directly inside a switch or outside of any.
def ledger (s : Session) (inside : Option NodeId) : Ledger where
  branch := inside.map s.switches.state
  nextFragment := s.fragments.nextIdentity
  scope := s.scope
  registry := s.registry
  shared := s.shared

structure Alike (s t : Session) : Prop where
  document : t.document = s.document
  fragments : t.fragments = s.fragments
  file : t.file = s.file
  including : t.including = s.including

theorem Alike.refl (s : Session) : Alike s s := ⟨rfl, rfl, rfl, rfl⟩

theorem Alike.trans {s t u : Session} (left : Alike s t) (right : Alike t u) : Alike s u :=
  ⟨right.document.trans left.document, right.fragments.trans left.fragments, right.file.trans left.file,
    right.including.trans left.including⟩

structure Steady (s t : Session) : Prop extends Alike s t where
  switches : t.switches = s.switches

theorem Steady.refl (s : Session) : Steady s s := ⟨.refl s, rfl⟩

theorem Steady.trans {s t u : Session} (left : Steady s t) (right : Steady t u) : Steady s u :=
  ⟨left.toAlike.trans right.toAlike, right.switches.trans left.switches⟩

-- The switches below a bound are as before, apart from the one around.
def KeepsBelow (bound : NodeId) (inside : Option NodeId) (s t : Session) : Prop :=
  ∀ id, id < bound → inside ≠ some id → t.switches.state id = s.switches.state id

theorem Steady.keepsBelow {s t : Session} (steady : Steady s t) (bound : NodeId) (inside : Option NodeId) :
    KeepsBelow bound inside s t := by
  intro id _ _
  rw [steady.switches]

theorem KeepsBelow.trans {bound : NodeId} {inside : Option NodeId} {s t u : Session}
    (left : KeepsBelow bound inside s t) (right : KeepsBelow bound inside t u) : KeepsBelow bound inside s u :=
  fun id below other => (right id below other).trans (left id below other)

-- Outside every template no identity is excepted.
theorem KeepsBelow.outermost {bound id : NodeId} {s t : Session} (kept : KeepsBelow bound none s t)
    (below : id < bound) : t.switches.state id = s.switches.state id :=
  kept id below (Option.some_ne_none id).symm

theorem KeepsBelow.mono {bound less : NodeId} {inside : Option NodeId} {s t : Session}
    (kept : KeepsBelow bound inside s t) (le : less ≤ bound) : KeepsBelow less inside s t :=
  fun id below other => kept id (Nat.lt_of_lt_of_le below le) other

end Session

open Session

-- From a session, the walk and the draft fail alike, or end with the same ledger and a common property.
def Agrees {α β : Type} (inside : Option NodeId) (walk : Walk α) (draft : Draft β) (s : Session)
    (post : α → β → Session → Prop) : Prop :=
  match walk.run.run s, draft.run.run (s.ledger inside) with
  | (.ok a, s'), (.ok b, l) => s'.ledger inside = l ∧ post a b s'
  | (.error e, s'), (.error e', l) => e = e' ∧ s'.shared = l.shared
  | _, _ => False

namespace Agrees

variable {α β γ δ : Type} {inside : Option NodeId} {s : Session}

theorem pure {post : α → β → Session → Prop} {a : α} {b : β} (holds : post a b s) :
    Agrees inside (Pure.pure a) (Pure.pure b) s post := ⟨rfl, holds⟩

theorem fail {post : α → β → Session → Prop} {file : Path} (here : s.file = file) (cause : Cause)
    (location : Location) : Agrees inside (Walk.fail cause location) (Draft.fail file cause location) s post := by
  subst here
  exact ⟨rfl, rfl⟩

theorem bind {walk : Walk α} {draft : Draft β} {mid : α → β → Session → Prop} {next : α → Walk γ}
    {next' : β → Draft δ} {post : γ → δ → Session → Prop} (first : Agrees inside walk draft s mid)
    (rest : ∀ a b t, mid a b t → Agrees inside (next a) (next' b) t post) :
    Agrees inside (walk >>= next) (draft >>= next') s post := by
  unfold Agrees at first ⊢
  rw [run_bind, run_bind]
  revert first
  rcases walk.run.run s with ⟨e | a, t⟩ <;> rcases draft.run.run (s.ledger inside) with ⟨e' | b, l⟩
  · exact id
  · exact False.elim
  · exact False.elim
  · rintro ⟨rfl, holds⟩
    exact rest a b t holds

theorem bind_ite {c : Bool} {walk walk' : Walk α} {draft draft' : Draft β} {mid : α → β → Session → Prop}
    {next : α → Walk γ} {next' : β → Draft δ} {post : γ → δ → Session → Prop}
    (first : Agrees inside (if c then walk else walk') (if c then draft else draft') s mid)
    (rest : ∀ a b t, mid a b t → Agrees inside (next a) (next' b) t post) :
    Agrees inside (if c then walk >>= next else walk' >>= next) (if c then draft >>= next' else draft' >>= next') s
      post := by
  cases c with
  | true => exact bind first rest
  | false => exact bind first rest

theorem mono {walk : Walk α} {draft : Draft β} {post post' : α → β → Session → Prop}
    (agrees : Agrees inside walk draft s post) (weaker : ∀ a b t, post a b t → post' a b t) :
    Agrees inside walk draft s post' := by
  unfold Agrees at agrees ⊢
  revert agrees
  rcases walk.run.run s with ⟨e | a, t⟩ <;> rcases draft.run.run (s.ledger inside) with ⟨e' | b, l⟩
  · exact id
  · exact False.elim
  · exact False.elim
  · exact fun both => ⟨both.1, weaker a b t both.2⟩

theorem fail_bind {post : γ → δ → Session → Prop} {file : Path} (here : s.file = file) (cause : Cause)
    (location : Location) (next : α → Walk γ) (next' : β → Draft δ) :
    Agrees inside (Walk.fail cause location >>= next) (Draft.fail file cause location >>= next') s post :=
  bind (fail here cause location : Agrees inside _ _ s fun _ _ _ => False) fun _ _ _ absurd => absurd.elim

theorem step {walk : Walk α} {a : α} {t : Session} {next : α → Walk γ} {draft : Draft δ}
    {post : γ → δ → Session → Prop} (ran : walk.run.run s = (.ok a, t)) (same : t.ledger inside = s.ledger inside)
    (rest : Agrees inside (next a) draft t post) : Agrees inside (walk >>= next) draft s post := by
  unfold Agrees at rest ⊢
  rw [run_bind, ran, ← same]
  exact rest

theorem look {walk : Walk γ} {next : Ledger → Draft δ} {post : γ → δ → Session → Prop}
    (rest : Agrees inside walk (next (s.ledger inside)) s post) : Agrees inside walk (get >>= next) s post := by
  unfold Agrees at rest ⊢
  rw [run_bind]
  exact rest

-- The walk may clean up behind itself, if this leaves the ledger alone.
theorem ensuring {walk : Walk α} {draft : Draft β} {post post' : α → β → Session → Prop}
    {cleanup : Session → Session} (agrees : Agrees inside walk draft s post)
    (kept : ∀ t, (cleanup t).shared = t.shared)
    (cleans : ∀ a b t, post a b t → (cleanup t).ledger inside = t.ledger inside ∧ post' a b (cleanup t)) :
    Agrees inside (Walk.ensuring walk cleanup) draft s post' := by
  unfold Agrees at agrees ⊢
  rw [run_ensuring]
  revert agrees
  rcases walk.run.run s with ⟨e | a, t⟩ <;> rcases draft.run.run (s.ledger inside) with ⟨e' | b, l⟩
  · exact fun both => ⟨both.1, (kept t).trans both.2⟩
  · exact False.elim
  · exact False.elim
  · rintro ⟨rfl, holds⟩
    exact cleans a b t holds

-- What agrees directly inside one switch agrees inside another, if this other is left alone.
theorem within {inner : Option NodeId} {branch : Option Switch} {walk : Walk α} {draft : Draft β}
    {post : α → β → Session → Prop} (entered : branch = inner.map s.switches.state)
    (agrees : Agrees inner walk draft s post)
    (kept : ∀ a b t, post a b t → inside.map t.switches.state = inside.map s.switches.state) :
    Agrees inside walk (Draft.within branch draft) s post := by
  have ran : (Draft.within branch draft).run.run (s.ledger inside) =
      match draft.run.run (s.ledger inner) with
      | (.ok b, l) => (.ok b, { l with branch := inside.map s.switches.state })
      | (.error e, l) => (.error e, l) := by
    subst entered
    exact run_within draft (s.ledger inside)
  unfold Agrees at agrees ⊢
  rw [ran]
  revert agrees
  rcases walk.run.run s with ⟨e | a, t⟩ <;> rcases draft.run.run (s.ledger inner) with ⟨e' | b, l⟩
  · exact id
  · exact False.elim
  · exact False.elim
  · rintro ⟨rfl, holds⟩
    refine ⟨?_, holds⟩
    simp only [Session.ledger, kept a b t holds]

end Agrees

def Element.header (e : Element) : Header := ⟨e.identity, e.tag, e.location⟩

-- Writes lines, and changes nothing but names and scope.
def Writes (s : Session) (code : Code) (lines : List Line) (t : Session) : Prop :=
  code = Line.codes lines ∧ Steady s t

namespace Agrees

variable {inside : Option NodeId} {s : Session} {file : Path}

theorem expr (here : s.file = file) (context : Expr.Context) (e : Expr) (location : Location) :
    Agrees inside (Walk.expr context e location) (Draft.expr file context e location) s
      fun code code' t => code = code' ∧ Steady s t := by
  let promoted : Session := { s with scope := s.scope.after context e }
  have steady : Steady s promoted := ⟨⟨rfl, rfl, rfl, rfl⟩, rfl⟩
  refine Agrees.bind (show Agrees inside _ _ s fun _ _ t => Steady s t from ⟨rfl, steady⟩) ?_
  rintro _ _ t steady
  cases e.emit? context with
  | some code => exact .pure ⟨rfl, steady⟩
  | none => exact .fail (steady.file.trans here) _ _

theorem part (here : s.file = file) (context : Expr.Context) (p : Part) (location : Location) :
    Agrees inside (Walk.part context p location) (Draft.part file context p location) s
      fun code operand t => operand.code = code ∧ Steady s t := by
  cases p with
  | literal text => exact .pure ⟨rfl, .refl s⟩
  | expression e =>
    show Agrees inside (Walk.expr context e location)
      (Draft.expr file context e location >>= fun code => Pure.pure (Operand.computed code)) s _
    rw [← bind_pure (Walk.expr context e location)]
    exact (Agrees.expr here context e location).bind fun code code' t ⟨same, steady⟩ => .pure ⟨same.symm, steady⟩

theorem target (here : s.file = file) (context : Expr.Context) (p : Part) (location : Location) :
    Agrees inside (Walk.target context p location) (Draft.target file context p location) s
      fun code code' t => code = code' ∧ Steady s t := by
  cases p with
  | literal text => exact expr here context _ location
  | expression e => exact expr here context e location

theorem require (here : s.file = file) (e : Element) (name : String) :
    Agrees inside (e.require name) (Draft.require file e.header name) s fun p p' t => p = p' ∧ s = t := by
  simp only [Element.require, Element.param?, Draft.require, Element.header]
  cases Attr.param? e.tag.attrs name with
  | some part => exact .pure ⟨rfl, rfl⟩
  | none => exact .fail here _ _

theorem appliedAttr (here : s.file = file) (attrsOf : Nat) (e : Element) :
    Agrees inside (Walk.appliedAttr attrsOf e) (Draft.appliedAttr file attrsOf e.header) s (Writes s) := by
  refine (Agrees.require here e "name").bind ?_
  rintro name _ _ ⟨rfl, rfl⟩
  refine (Agrees.require here e "value").bind ?_
  rintro value _ _ ⟨rfl, rfl⟩
  refine (Agrees.part here .value name e.location).bind ?_
  rintro _ named t ⟨rfl, first⟩
  refine (Agrees.part (first.file.trans here) .value value e.location).bind ?_
  rintro _ valued u ⟨rfl, second⟩
  exact .pure ⟨by simp [Line.code], first.trans second⟩

theorem ownAttr (here : s.file = file) (attrsOf : Nat) (location : Location) (attr : Attr) :
    Agrees inside (Walk.ownAttr attrsOf location attr) (Draft.ownAttr file attrsOf location attr) s (Writes s) := by
  refine (Agrees.part here .value attr.name location).bind ?_
  rintro _ named t ⟨rfl, first⟩
  cases attr.value with
  | none => exact .pure ⟨by simp [Line.code, Operand.code], first⟩
  | some value =>
    refine (Agrees.part (first.file.trans here) .value value location).bind ?_
    rintro _ valued u ⟨rfl, second⟩
    exact .pure ⟨by simp [Line.code], first.trans second⟩

theorem ownAttrs (here : s.file = file) (attrsOf : Nat) (location : Location) (attrs : List Attr) :
    Agrees inside (Walk.ownAttrs attrsOf location attrs) (Draft.ownAttrs file attrsOf location attrs) s (Writes s) := by
  induction attrs generalizing s with
  | nil => exact .pure ⟨rfl, .refl s⟩
  | cons attr rest ih =>
    refine (Agrees.ownAttr here attrsOf location attr).bind ?_
    rintro _ lines t ⟨rfl, first⟩
    refine (ih (first.file.trans here)).bind ?_
    rintro _ more u ⟨rfl, second⟩
    exact .pure ⟨by simp, first.trans second⟩

theorem parameter (here : s.file = file) (e : Element) :
    Agrees inside (Walk.parameter e) (Draft.parameter file e.header) s (Writes s) := by
  refine (Agrees.require here e "name").bind ?_
  rintro name _ _ ⟨rfl, rfl⟩
  refine (Agrees.require here e "value").bind ?_
  rintro value _ _ ⟨rfl, rfl⟩
  refine (Agrees.target here .dataTarget name e.location).bind ?_
  rintro target _ t ⟨rfl, first⟩
  refine (Agrees.part (first.file.trans here) .value value e.location).bind ?_
  rintro _ valued u ⟨rfl, second⟩
  exact .pure ⟨by simp [Line.code], first.trans second⟩

theorem assignment (here : s.file = file) (e : Element) :
    Agrees inside (Walk.assignment e) (Draft.assignment file e.header) s (Writes s) := by
  refine (Agrees.require here e "name").bind ?_
  rintro name _ _ ⟨rfl, rfl⟩
  refine (Agrees.require here e "value").bind ?_
  rintro value _ _ ⟨rfl, rfl⟩
  refine (Agrees.target here (.target true) name e.location).bind ?_
  rintro target _ t ⟨rfl, first⟩
  refine (Agrees.part (first.file.trans here) .value value e.location).bind ?_
  rintro _ valued u ⟨rfl, second⟩
  exact .pure ⟨by simp [Line.code], first.trans second⟩

theorem strayAttribute (here : s.file = file) (e : Element) :
    Agrees inside (Walk.strayAttribute e) (Draft.strayAttribute file e.header) s (Writes s) := by
  refine (Agrees.require here e "name").bind ?_
  rintro name _ _ ⟨rfl, rfl⟩
  refine (Agrees.require here e "value").bind ?_
  rintro value _ _ ⟨rfl, rfl⟩
  exact .fail here _ _

theorem importing (here : s.file = file) (options : Options) (e : Element) :
    Agrees inside (Walk.importing options e) (Draft.importing file options e.header) s (Writes s) := by
  refine (Agrees.require here e "name").bind ?_
  rintro name _ _ ⟨rfl, rfl⟩
  refine (Agrees.require here e "from").bind ?_
  rintro source _ _ ⟨rfl, rfl⟩
  cases name.fixed?.filter fun name => name.toList.contains '-' with
  | none => exact .fail here _ _
  | some component =>
    let registered : Session :=
      { s with
        registry := (s.registry.register s.shared component).1,
        shared := (s.registry.register s.shared component).2 }
    have steady : Steady s registered := ⟨⟨rfl, rfl, rfl, rfl⟩, rfl⟩
    refine Agrees.bind (show Agrees inside _ _ s fun _ _ t => Steady s t from ⟨rfl, steady⟩) ?_
    rintro _ _ t first
    refine (Agrees.part (first.file.trans here) .value source e.location).bind ?_
    rintro _ valued u ⟨rfl, second⟩
    exact .pure ⟨by simp [Line.code], first.trans second⟩

theorem useState (here : s.file = file) (e : Element) :
    Agrees inside (Walk.useState e) (Draft.useState file e.header) s (Writes s) := by
  refine (Agrees.require here e "name").bind ?_
  rintro name _ _ ⟨rfl, rfl⟩
  cases closed : e.tag.selfClosing with
  | false =>
    simp only [Element.header, closed, Bool.not_false, if_true]
    exact .fail_bind here _ _ _ _
  | true =>
    simp only [Element.header, closed, Bool.not_true, Bool.false_eq_true, if_false]
    cases Walk.stateName? name with
    | none => exact .fail here _ _
    | some stored =>
      refine (Agrees.target here (.target true) name e.location).bind ?_
      rintro target _ t ⟨rfl, first⟩
      simp only [Element.param?]
      cases Attr.param? e.tag.attrs "value" with
      | none => exact .pure ⟨by simp [Line.code], first⟩
      | some value =>
        refine (Agrees.part (first.file.trans here) .value value e.location).bind ?_
        rintro _ valued u ⟨rfl, second⟩
        exact .pure ⟨by simp [Line.code], first.trans second⟩

end Agrees

end Stencil
