import Stencil.Proofs.Agreement

-- Drafts of the same nodes in different files. Apart from includes, a draft does not look at the file that it
-- stands in; it only names it when it fails.

namespace Stencil

-- Why an include fails: it has no path, or none that is fixed, or the path leads nowhere or in a circle.
def Cause.isInclude : Cause → Bool
  | .missingAttribute tag _ => TagKind.ofName? tag = some .including
  | .dynamicInclude => true
  | .includeFailed _ _ => true
  | .includeCycle _ => true
  | _ => false

-- Unless the first draft fails for an include, both do the same, except that they may name different files. What is
-- given as known is known once they succeed.
def Follows {α : Type} (known : Prop) (first second : Draft α) : Prop :=
  ∀ l, match first.run.run l, second.run.run l with
    | (.ok a, l₁), (.ok b, l₂) => a = b ∧ l₁ = l₂ ∧ known
    | (.error e, l₁), (.error e', l₂) =>
      e.cause.isInclude = true ∨ (e.cause = e'.cause ∧ e.location = e'.location ∧ l₁.shared = l₂.shared)
    | (.error e, _), (.ok _, _) => e.cause.isInclude = true
    | (.ok _, _), (.error _, _) => False

namespace Follows

variable {α β : Type} {known later : Prop}

theorem refl (draft : Draft α) : Follows True draft draft := by
  intro l
  rcases draft.run.run l with ⟨_ | _, _⟩
  · exact .inr ⟨rfl, rfl, rfl⟩
  · exact ⟨rfl, rfl, trivial⟩

theorem pure (a : α) (holds : known) : Follows known (Pure.pure a : Draft α) (Pure.pure a) :=
  fun _ => ⟨rfl, rfl, holds⟩

theorem fail (file file' : Path) (cause : Cause) (location : Location) :
    Follows known (Draft.fail file cause location : Draft α) (Draft.fail file' cause location) :=
  fun _ => .inr ⟨rfl, rfl, rfl⟩

theorem refused {file : Path} {cause : Cause} {location : Location} (include_ : cause.isInclude = true)
    (second : Draft α) : Follows known (Draft.fail file cause location) second := by
  intro l
  have ran : (Draft.fail file cause location : Draft α).run.run l = (.error ⟨cause, file.text, location⟩, l) := rfl
  rw [ran]
  rcases second.run.run l with ⟨_ | _, _⟩
  · exact .inl include_
  · exact include_

theorem bind {first second : Draft α} {next next' : α → Draft β} (follows : Follows known first second)
    (rest : known → ∀ a, Follows later (next a) (next' a)) : Follows later (first >>= next) (second >>= next') := by
  intro l
  have here := follows l
  rw [run_bind, run_bind]
  revert here
  rcases first.run.run l with ⟨e | a, l₁⟩ <;> rcases second.run.run l with ⟨e' | b, l₂⟩
  · exact id
  · intro failed
    simp only
    rcases (next' b).run.run l₂ with ⟨_ | _, _⟩
    · exact Or.inl failed
    · exact failed
  · exact False.elim
  · rintro ⟨rfl, rfl, holds⟩
    exact rest holds a l₁

theorem mono {first second : Draft α} (follows : Follows known first second) (weaker : known → later) :
    Follows later first second := by
  intro l
  have here := follows l
  revert here
  rcases first.run.run l with ⟨e | a, l₁⟩ <;> rcases second.run.run l with ⟨e' | b, l₂⟩
  · exact id
  · exact id
  · exact id
  · exact fun ⟨same, ledger, holds⟩ => ⟨same, ledger, weaker holds⟩

-- A draft that does not fail for an include ends as the one that follows it.
theorem outcome {first second : Draft α} (follows : Follows known first second) {l : Ledger}
    (resolved : ∀ e, (first.run.run l).1 = .error e → e.cause.isInclude = false) :
    (∃ a l₁, first.run.run l = (.ok a, l₁) ∧ second.run.run l = (.ok a, l₁)) ∨
      ∃ e e' l₁ l₂, first.run.run l = (.error e, l₁) ∧ second.run.run l = (.error e', l₂) ∧ e.cause = e'.cause ∧
        e.location = e'.location ∧ l₁.shared = l₂.shared := by
  have here := follows l
  revert here resolved
  rcases first.run.run l with ⟨e | a, l₁⟩ <;> rcases second.run.run l with ⟨e' | b, l₂⟩ <;> intro resolved here
  · rcases here with failed | ⟨cause, location, names⟩
    · exact Bool.noConfusion ((resolved e rfl).symm.trans failed)
    · exact .inr ⟨e, e', l₁, l₂, rfl, rfl, cause, location, names⟩
  · exact Bool.noConfusion ((resolved e rfl).symm.trans here)
  · exact here.elim
  · obtain ⟨rfl, rfl, _⟩ := here
    exact .inl ⟨a, l₁, rfl, rfl⟩

variable {file file' : Path}

theorem expr (context : Expr.Context) (e : Expr) (location : Location) :
    Follows True (Draft.expr file context e location) (Draft.expr file' context e location) := by
  refine (refl _).bind fun _ _ => ?_
  cases e.emit? context with
  | some code => exact pure code trivial
  | none => exact fail _ _ _ _

theorem part (context : Expr.Context) (p : Part) (location : Location) :
    Follows True (Draft.part file context p location) (Draft.part file' context p location) := by
  cases p with
  | literal text => exact refl _
  | expression e => exact (expr context e location).bind fun _ _ => refl _

theorem target (context : Expr.Context) (p : Part) (location : Location) :
    Follows True (Draft.target file context p location) (Draft.target file' context p location) := by
  cases p with
  | literal text => exact expr context _ location
  | expression e => exact expr context e location

theorem require (h : Header) (name : String) :
    Follows True (Draft.require file h name) (Draft.require file' h name) := by
  unfold Draft.require
  cases Attr.param? h.tag.attrs name with
  | some part => exact refl _
  | none => exact fail _ _ _ _

theorem within (branch : Option Switch) {body body' : Draft α} (follows : Follows known body body') :
    Follows known (Draft.within branch body) (Draft.within branch body') :=
  (refl _).bind fun _ _ => (refl _).bind fun _ _ => follows.bind fun holds _ =>
    (refl _).bind fun _ _ => pure _ holds

theorem binding (h : Header) (item : Part) : Follows True (Draft.binding file h item) (Draft.binding file' h item) := by
  unfold Draft.binding
  cases Attr.param? h.tag.attrs "key" with
  | some key => exact (target _ key _).bind fun _ _ => (target _ item _).bind fun _ _ => refl _
  | none => exact (target _ item _).bind fun _ _ => refl _

theorem appliedAttr (attrsOf : Nat) (h : Header) :
    Follows True (Draft.appliedAttr file attrsOf h) (Draft.appliedAttr file' attrsOf h) :=
  (require h "name").bind fun _ name => (require h "value").bind fun _ value =>
    (part _ name _).bind fun _ _ => (part _ value _).bind fun _ _ => refl _

theorem ownAttr (attrsOf : Nat) (location : Location) (attr : Attr) :
    Follows True (Draft.ownAttr file attrsOf location attr) (Draft.ownAttr file' attrsOf location attr) := by
  refine (part _ attr.name _).bind fun _ _ => ?_
  cases attr.value with
  | some value => exact (part _ value _).bind fun _ _ => refl _
  | none => exact refl _

theorem ownAttrs (attrsOf : Nat) (location : Location) (attrs : List Attr) :
    Follows True (Draft.ownAttrs file attrsOf location attrs) (Draft.ownAttrs file' attrsOf location attrs) := by
  induction attrs with
  | nil => exact refl _
  | cons attr rest ih => exact (ownAttr attrsOf location attr).bind fun _ _ => ih.bind fun _ _ => refl _

theorem parameter (h : Header) : Follows True (Draft.parameter file h) (Draft.parameter file' h) :=
  (require h "name").bind fun _ name => (require h "value").bind fun _ value =>
    (target _ name _).bind fun _ _ => (part _ value _).bind fun _ _ => refl _

theorem assignment (h : Header) : Follows True (Draft.assignment file h) (Draft.assignment file' h) :=
  (require h "name").bind fun _ name => (require h "value").bind fun _ value =>
    (target _ name _).bind fun _ _ => (part _ value _).bind fun _ _ => refl _

theorem strayAttribute (h : Header) : Follows True (Draft.strayAttribute file h) (Draft.strayAttribute file' h) :=
  (require h "name").bind fun _ _ => (require h "value").bind fun _ _ => fail _ _ _ _

theorem ownerAttribute (isOwned : Bool) (h : Header) :
    Follows True (Draft.ownerAttribute file isOwned h) (Draft.ownerAttribute file' isOwned h) := by
  refine (require h "name").bind fun _ _ => (require h "value").bind fun _ _ => ?_
  cases isOwned with
  | true => exact refl _
  | false => exact fail _ _ _ _

theorem importing (options : Options) (h : Header) :
    Follows True (Draft.importing file options h) (Draft.importing file' options h) := by
  refine (require h "name").bind fun _ name => (require h "from").bind fun _ source => ?_
  cases name.fixed?.filter fun name => name.toList.contains '-' with
  | none => exact fail _ _ _ _
  | some name => exact (refl _).bind fun _ _ => (part _ source _).bind fun _ _ => refl _

theorem useState (h : Header) : Follows True (Draft.useState file h) (Draft.useState file' h) := by
  refine (require h "name").bind fun _ name => ?_
  cases h.tag.selfClosing with
  | false => exact (fail _ _ _ _ : Follows False _ _).bind fun absurd => absurd.elim
  | true =>
    cases Walk.stateName? name with
    | none => exact fail _ _ _ _
    | some stored =>
      refine (target _ name _).bind fun _ target => ?_
      cases Attr.param? h.tag.attrs "value" with
      | some value => exact (part _ value _).bind fun _ _ => refl _
      | none => exact refl _

theorem conditional (h : Header) {childless childless' : Bool} {body body' : Draft (List Line)}
    (follows : Follows known body body') (same : known → childless = childless') :
    Follows known (Draft.conditional file h childless body) (Draft.conditional file' h childless' body') := by
  refine (require h "test").bind fun _ test => (follows.within none).bind fun holds lines => ?_
  rw [← same holds]
  cases childless with
  | true => exact pure _ holds
  | false => exact (part _ test _).bind fun _ _ => pure _ holds

theorem loop (h : Header) {childless childless' : Bool} {body body' : Draft (List Line)}
    (follows : Follows known body body') (same : known → childless = childless') :
    Follows known (Draft.loop file h childless body) (Draft.loop file' h childless' body') := by
  refine (require h "from").bind fun _ source => (require h "item").bind fun _ item =>
    (follows.within none).bind fun holds lines => ?_
  rw [← same holds]
  cases childless with
  | true => exact pure _ holds
  | false => exact (part _ source _).bind fun _ _ => (binding h item).bind fun _ _ => pure _ holds

theorem switch {body body' : Draft (List Line)} (follows : Follows known body body') :
    Follows known (Draft.switch body) (Draft.switch body') :=
  within _ (follows.bind fun holds _ => (refl _).bind fun _ _ => pure _ holds)

theorem case (h : Header) {body body' : Draft (List Line)} (follows : Follows known body body') :
    Follows known (Draft.case file h body) (Draft.case file' h body') := by
  refine (refl _).bind fun _ l => ?_
  cases l.branch with
  | none => exact fail _ _ _ _
  | some state =>
    simp only
    cases state.hasDefault with
    | true => exact fail _ _ _ _
    | false =>
      exact (refl _).bind fun _ _ => (require h "test").bind fun _ test => (follows.within none).bind fun holds _ =>
        (part _ test _).bind fun _ _ => pure _ holds

theorem default (h : Header) {body body' : Draft (List Line)} (follows : Follows known body body') :
    Follows known (Draft.default file h body) (Draft.default file' h body') := by
  refine (refl _).bind fun _ l => ?_
  cases l.branch with
  | none => exact fail _ _ _ _
  | some state => exact (refl _).bind fun _ _ => (follows.within none).bind fun holds _ => pure _ holds

theorem control (kind : Control) (h : Header) {childless childless' : Bool} {body body' : Draft (List Line)}
    (follows : Follows known body body') (same : known → childless = childless') :
    Follows known (Draft.control kind file h childless body) (Draft.control kind file' h childless' body') := by
  cases kind with
  | conditional => exact conditional h follows same
  | loop => exact loop h follows same
  | switch => exact switch follows
  | case => exact case h follows
  | default => exact default h follows

mutual

theorem applied (attrsOf : Nat) : ∀ sketch : Sketch,
    Follows True (Draft.applied file attrsOf sketch) (Draft.applied file' attrsOf sketch)
  | .node ⟨_, .leaf _, _⟩ _ => refl _
  | .node ⟨identity, .tag tag, location⟩ children => by
    unfold Draft.applied
    split
    · exact appliedAttr attrsOf _
    · exact control _ _ (allApplied attrsOf children) fun _ => rfl
    · exact refl _

theorem allApplied (attrsOf : Nat) : ∀ sketches : List Sketch,
    Follows True (Draft.allApplied file attrsOf sketches) (Draft.allApplied file' attrsOf sketches)
  | [] => refl _
  | first :: rest => (applied attrsOf first).bind fun _ _ => (allApplied attrsOf rest).bind fun _ _ => refl _

end

theorem attrBlock (attrsOf : Nat) (copies : List Sketch) (attrs : List Attr) (location : Location) :
    Follows True (Draft.attrBlock file attrsOf copies attrs location)
      (Draft.attrBlock file' attrsOf copies attrs location) :=
  ((allApplied attrsOf copies).within none).bind fun _ _ => (ownAttrs attrsOf location attrs).bind fun _ _ => refl _

theorem leaf (sink identity : Nat) (location : Location) (leaf : Leaf) :
    Follows True (Draft.leaf file sink identity location leaf) (Draft.leaf file' sink identity location leaf) := by
  cases leaf with
  | comment value => exact refl _
  | string value => exact refl _
  | slot e => exact (expr _ e _).bind fun _ _ => refl _
  | block e => exact (expr _ e _).bind fun _ _ => refl _
  | script attrs body => exact (refl _).bind fun _ attrsOf => (attrBlock attrsOf [] attrs location).bind fun _ _ => refl _
  | text value =>
    refine (refl _).bind fun _ l => ?_
    cases l.branch.isSome with
    | false => exact refl _
    | true =>
      cases Text.isAllBlank value with
      | true => exact refl _
      | false => exact fail _ _ _ _

theorem template (h : Header) {body body' : Draft (List Line)} (follows : Follows known body body') :
    Follows known (Draft.template file h body) (Draft.template file' h body') := by
  refine (require h "name").bind fun _ name => ?_
  cases h.tag.selfClosing with
  | true => exact (fail _ _ _ _ : Follows False _ _).bind fun absurd => absurd.elim
  | false => exact (follows.within none).bind fun holds _ => (target _ name _).bind fun _ _ => pure _ holds

-- Children that are passed by need not be known to look alike.
theorem tagParts (h : Header) {copies copies' : List Sketch} {body body' : Draft (List Line)}
    (follows : h.tag.selfClosing = false → Follows known body body') (closed : h.tag.selfClosing = true → known)
    (same : known → copies = copies') :
    Follows known (Draft.tagParts file h copies body) (Draft.tagParts file' h copies' body') := by
  refine (refl _).bind fun _ attrsOf => ?_
  cases single : h.tag.selfClosing with
  | true =>
    simp only [if_true]
    exact (refl _).bind fun _ _ => (attrBlock attrsOf _ _ _).bind fun _ _ => pure _ (closed single)
  | false =>
    simp only [Bool.false_eq_true, if_false]
    refine ((follows single).within none).bind fun holds _ => ?_
    rw [← same holds]
    exact (attrBlock attrsOf _ _ _).bind fun _ _ => pure _ holds

theorem literal (options : Options) (sink : Nat) (h : Header) {copies copies' : List Sketch}
    {body body' : Draft (List Line)} (follows : h.tag.selfClosing = false → Follows known body body')
    (closed : h.tag.selfClosing = true → known) (same : known → copies = copies') :
    Follows known (Draft.literal file options sink h copies body) (Draft.literal file' options sink h copies' body') :=
  (tagParts h follows closed same).bind fun holds ⟨_, _, _⟩ => (refl _).mono fun _ => holds

theorem component (options : Options) (sink : Nat) (h : Header) {copies copies' : List Sketch}
    {body body' : Draft (List Line)} (follows : h.tag.selfClosing = false → Follows known body body')
    (closed : h.tag.selfClosing = true → known) (same : known → copies = copies') :
    Follows known (Draft.component file options sink h copies body)
      (Draft.component file' options sink h copies' body') :=
  (tagParts h follows closed same).bind fun holds ⟨_, _, _⟩ => (refl _).mono fun _ => holds

end Follows

end Stencil
