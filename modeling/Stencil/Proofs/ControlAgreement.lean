import Stencil.Proofs.Agreement

-- Control flow in the walk and in the draft. What lies below a tag is taken as given: if its two readings agree,
-- so do the two readings of the tag.

namespace Stencil

open Session

theorem Session.KeepsBelow.branch {bound : NodeId} {inner inside : Option NodeId} {s t : Session}
    (kept : KeepsBelow bound inner s t) (outer : ∀ id, inside = some id → id < bound ∧ inner ≠ some id) :
    inside.map t.switches.state = inside.map s.switches.state := by
  cases inside with
  | none => rfl
  | some id => exact congrArg some (kept id (outer id rfl).1 (outer id rfl).2)

-- The two readings of what lies below a tag of control flow. after is what the walk leaves behind.
structure BodyAgrees (e : Element) (s : Session) (isChildless : Bool) (walk : Option NodeId → Walk Code)
    (draft : Draft (List Line)) (after : Session → Prop) : Prop where
  alike : ∀ {t u : Session}, after t → Alike t u → after u
  childless : ∀ {t : Session}, after t → (t.document.children e.id).isEmpty = isChildless
  file : ∀ {t : Session}, after t → t.file = s.file
  agrees : ∀ (inner : Option NodeId) (t : Session), Alike s t → (inner = none ∨ inner = some e.id) →
    Agrees inner (walk inner) draft t fun code lines u =>
      code = Line.codes lines ∧ after u ∧ KeepsBelow (e.id + 1) inner t u

theorem below_or_at {own : Nat} {inner : Option Nat} (here : inner = none ∨ inner = some own) :
    ∀ id, inner = some id → id < own + 1 := by
  rintro id rfl
  rcases here with here | here
  · cases here
  · cases here
    exact Nat.lt_succ_self _

-- Lines are written, and the switches before the tag are as before.
def Passes (e : Element) (inside : Option NodeId) (after : Session → Prop) (s : Session) (code : Code)
    (lines : List Line) (t : Session) : Prop :=
  code = Line.codes lines ∧ after t ∧ KeepsBelow e.id inside s t

namespace Agrees

variable {e : Element} {inside : Option NodeId} {s : Session} {file : Path} {isChildless : Bool}
  {walk : Option NodeId → Walk Code} {draft : Draft (List Line)} {after : Session → Prop}

theorem plainBody (body : BodyAgrees e s isChildless walk draft after)
    (outer : ∀ id, inside = some id → id < e.id) {t : Session} (alike : Alike s t) :
    Agrees inside (walk none) (Draft.within none draft) t fun code lines u =>
      code = Line.codes lines ∧ after u ∧ KeepsBelow (e.id + 1) none t u := by
  refine (body.agrees none t alike (.inl rfl)).within rfl ?_
  rintro _ _ u ⟨_, _, kept⟩
  exact kept.branch fun id same => ⟨Nat.lt_succ_of_lt (outer id same), nofun⟩

theorem conditional (body : BodyAgrees e s isChildless walk draft after) (here : s.file = file)
    (outer : ∀ id, inside = some id → id < e.id) :
    Agrees inside (Walk.conditional e (walk none)) (Draft.conditional file e.header isChildless draft) s
      (Passes e inside after s) := by
  refine (Agrees.require here e "test").bind ?_
  rintro test _ _ ⟨rfl, rfl⟩
  refine (plainBody body outer (.refl s)).bind ?_
  rintro _ lines t ⟨rfl, holds, kept⟩
  have before : KeepsBelow e.id inside s t := fun id below _ => kept.outermost (Nat.lt_succ_of_lt below)
  refine Agrees.step (t := t) rfl rfl ?_
  rw [body.childless holds]
  cases isChildless with
  | true => exact .pure ⟨rfl, holds, before⟩
  | false =>
    refine (Agrees.part ((body.file holds).trans here) .condition test e.location).bind ?_
    rintro _ tested u ⟨rfl, steady⟩
    refine .pure ⟨?_, body.alike holds steady.toAlike, before.trans (steady.keepsBelow _ _)⟩
    simp [Output.conditional, Line.code]

theorem binding (here : s.file = file) (e : Element) (item : Part) :
    Agrees inside (Walk.binding e item) (Draft.binding file e.header item) s fun code bound t =>
      bound.code = code ∧ Steady s t := by
  simp only [Walk.binding, Draft.binding, Element.param?, Element.header]
  cases Attr.param? e.tag.attrs "key" with
  | none =>
    rw [← bind_pure (e.target item)]
    refine (Agrees.target here (.target true) item e.location).bind ?_
    rintro bound _ t ⟨rfl, steady⟩
    exact .pure ⟨rfl, steady⟩
  | some key =>
    refine (Agrees.target here (.target true) key e.location).bind ?_
    rintro first _ t ⟨rfl, steady⟩
    refine (Agrees.target (steady.file.trans here) (.target true) item e.location).bind ?_
    rintro second _ u ⟨rfl, steady'⟩
    exact .pure ⟨rfl, steady.trans steady'⟩

theorem loop (body : BodyAgrees e s isChildless walk draft after) (here : s.file = file)
    (outer : ∀ id, inside = some id → id < e.id) :
    Agrees inside (Walk.loop e (walk none)) (Draft.loop file e.header isChildless draft) s
      (Passes e inside after s) := by
  refine (Agrees.require here e "from").bind ?_
  rintro source _ _ ⟨rfl, rfl⟩
  refine (Agrees.require here e "item").bind ?_
  rintro item _ _ ⟨rfl, rfl⟩
  refine (plainBody body outer (.refl s)).bind ?_
  rintro _ lines t ⟨rfl, holds, kept⟩
  have before : KeepsBelow e.id inside s t := fun id below _ => kept.outermost (Nat.lt_succ_of_lt below)
  refine Agrees.step (t := t) rfl rfl ?_
  rw [body.childless holds]
  cases isChildless with
  | true => exact .pure ⟨rfl, holds, before⟩
  | false =>
    have here' : t.file = file := (body.file holds).trans here
    refine (Agrees.part here' .value source e.location).bind ?_
    rintro _ from_ u ⟨rfl, first⟩
    refine (Agrees.binding (first.file.trans here') e item).bind ?_
    rintro _ bound v ⟨rfl, second⟩
    have steady := first.trans second
    refine .pure ⟨?_, body.alike holds steady.toAlike, before.trans (steady.keepsBelow _ _)⟩
    simp [Output.loop, Line.code]

-- A switch is open while its body is read, and what it has had is kept under its own position.
theorem switch (body : BodyAgrees e s isChildless walk draft after)
    (outer : ∀ id, inside = some id → id < e.id) :
    Agrees inside (Walk.switch e (walk (some e.id))) (Draft.switch draft) s (Passes e inside after s) := by
  let opened : Session := { s with switches := s.switches.opened e.id }
  have apart : ∀ id, inside = some id → id ≠ e.id := fun id same => Nat.ne_of_lt (outer id same)
  have start : opened.ledger inside = s.ledger inside := by
    cases inside with
    | none => rfl
    | some id => simp [Session.ledger, opened, Switches.state_opened, apart id rfl]
  have fresh : some Switches.fresh = (some e.id).map opened.switches.state := by
    simp [opened, Switches.state_opened]
  have chain : Agrees (some e.id)
      (do
        let code ← walk (some e.id)
        return if (← get).switches.chained e.id then code ++ Output.closeBlock else code)
      (do
        let lines ← draft
        return if ← Draft.chained then lines ++ [.close] else lines)
      opened fun code lines t => code = Line.codes lines ∧ after t ∧ KeepsBelow (e.id + 1) (some e.id) opened t := by
    refine (body.agrees (some e.id) opened ⟨rfl, rfl, rfl, rfl⟩ (.inr rfl)).bind ?_
    rintro _ lines t ⟨rfl, holds, kept⟩
    refine ⟨rfl, ?_, holds, kept⟩
    cases begun : (t.switches.state e.id).hasCase <;>
      simp [Session.ledger, Switches.chained, begun, Line.code]
  refine Agrees.step (t := opened) rfl start ?_
  refine (chain.within fresh ?_).ensuring (fun _ => rfl) ?_
  · rintro _ _ t ⟨_, _, kept⟩
    exact kept.branch fun id same =>
      ⟨Nat.lt_succ_of_lt (outer id same), fun other => apart id same (Option.some.inj other).symm⟩
  · rintro code lines t ⟨written, holds, kept⟩
    refine ⟨?_, written, body.alike holds ⟨rfl, rfl, rfl, rfl⟩, ?_⟩
    · cases inside with
      | none => rfl
      | some id => simp [Session.ledger, Switches.state_closed, apart id rfl]
    · intro id below _
      have other : id ≠ e.id := Nat.ne_of_lt below
      have same := kept id (Nat.lt_succ_of_lt below) (by simpa using Ne.symm other)
      simpa [opened, Switches.state_closed, Switches.state_opened, other] using same

theorem case (body : BodyAgrees e s isChildless walk draft after) (here : s.file = file)
    (outer : ∀ id, inside = some id → id < e.id) :
    Agrees inside (Walk.case e inside (walk none)) (Draft.case file e.header draft) s (Passes e inside after s) := by
  refine Agrees.look ?_
  cases inside with
  | none => exact .fail here _ _
  | some around =>
    let entered : Session := { s with switches := s.switches.withCase around }
    have alike : Alike s entered := ⟨rfl, rfl, rfl, rfl⟩
    have here' : entered.file = file := here
    refine Agrees.step (t := s) rfl rfl ?_
    simp only [Session.ledger, Option.map_some]
    cases refused : (s.switches.state around).hasDefault with
    | true =>
      simp only [Switches.case?, refused, if_true]
      refine Agrees.step (t := entered) rfl ?_ (.fail here' _ _)
      simp [Session.ledger, entered, Switches.state_withCase, refused]
    | false =>
      simp only [Switches.case?, refused, Bool.false_eq_true, if_false]
      refine Agrees.bind (show Agrees (some around) _ _ s fun _ _ t => t = entered from ⟨?_, rfl⟩) ?_
      · simp [Session.ledger, Switches.state_withCase, refused]
      rintro _ _ _ rfl
      refine (Agrees.require here' e "test").bind ?_
      rintro test _ _ ⟨rfl, rfl⟩
      refine (plainBody body outer alike).bind ?_
      rintro _ lines t ⟨rfl, holds, kept⟩
      refine (Agrees.part ((body.file holds).trans here) .condition test e.location).bind ?_
      rintro _ tested u ⟨rfl, steady⟩
      have before : KeepsBelow e.id (some around) s u := by
        intro id below other
        rw [steady.switches, kept.outermost (Nat.lt_succ_of_lt below)]
        have apart : id ≠ around := fun same => other (congrArg some same.symm)
        simp [entered, Switches.state_withCase, apart]
      cases begun : (s.switches.state around).hasCase with
      | true =>
        refine .pure ⟨?_, body.alike holds steady.toAlike, before⟩
        simp [Output.nextCase, Line.code]
      | false =>
        refine .pure ⟨?_, body.alike holds steady.toAlike, before⟩
        simp [Output.firstCase, Line.code]

theorem default (body : BodyAgrees e s isChildless walk draft after) (here : s.file = file)
    (outer : ∀ id, inside = some id → id < e.id) :
    Agrees inside (Walk.default e inside (walk none)) (Draft.default file e.header draft) s
      (Passes e inside after s) := by
  refine Agrees.look ?_
  cases inside with
  | none => exact .fail here _ _
  | some around =>
    let entered : Session := { s with switches := s.switches.withDefault around }
    have alike : Alike s entered := ⟨rfl, rfl, rfl, rfl⟩
    refine Agrees.step (t := s) rfl rfl ?_
    refine Agrees.bind (show Agrees (some around) _ _ s fun _ _ t => t = entered from ⟨?_, rfl⟩) ?_
    · simp [Session.ledger, Switches.state_withDefault]
    rintro _ _ _ rfl
    refine (plainBody body outer alike).bind ?_
    rintro _ lines t ⟨rfl, holds, kept⟩
    have before : KeepsBelow e.id (some around) s t := by
      intro id below other
      rw [kept.outermost (Nat.lt_succ_of_lt below)]
      have apart : id ≠ around := fun same => other (congrArg some same.symm)
      simp [entered, Switches.state_withDefault, apart]
    simp only [Switches.default]
    cases begun : (s.switches.state around).hasCase with
    | true => exact .pure ⟨by simp [Output.lastCase, Line.code], holds, before⟩
    | false => exact .pure ⟨rfl, holds, before⟩

theorem control (kind : Control) (body : BodyAgrees e s isChildless walk draft after) (here : s.file = file)
    (outer : ∀ id, inside = some id → id < e.id) :
    Agrees inside (Walk.control kind e inside walk) (Draft.control kind file e.header isChildless draft) s
      (Passes e inside after s) := by
  cases kind with
  | conditional => exact conditional body here outer
  | loop => exact loop body here outer
  | switch => exact switch body outer
  | case => exact case body here outer
  | default => exact default body here outer

end Agrees

end Stencil
