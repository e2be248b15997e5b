import Stencil.Proofs.ArenaSteps
import Stencil.Proofs.ControlAgreement

-- The attributes of a tag in the walk and in the draft. The walk reads them from a fragment of the document, the
-- draft from sketches of what the fragment holds.

namespace Stencil

open Session Document

-- Lines are written, the document and its fragments stay, and so do the switches below a bound.
def Reads (bound : NodeId) (inside : Option NodeId) (s : Session) (code : Code) (lines : List Line)
    (t : Session) : Prop :=
  code = Line.codes lines ∧ Alike s t ∧ KeepsBelow bound inside s t

namespace Agrees

variable {inside : Option NodeId} {s : Session} {file : Path}

mutual

theorem appliedTree (attrsOf : Nat) : ∀ {tree : Tree} {parent inside : Option NodeId} {bound : Nat} {s : Session},
    s.document.Holds parent tree → tree.Rises bound → (∀ id, inside = some id → id < bound) → s.file = file →
    Agrees inside (Walk.appliedTree attrsOf inside tree) (Draft.applied file attrsOf tree.sketch) s
      (Reads bound inside s)
  | .node _ ⟨_, .leaf _, _⟩ _, _, _, _, s, _, _, _, _ => .pure ⟨rfl, .refl s, fun _ _ _ => rfl⟩
  | .node id ⟨identity, .tag tag, location⟩ children, _, inside, bound, s, holds, rises, outer, here => by
    let e : Element := ⟨id, identity, tag, location⟩
    have nothing : Agrees inside (Pure.pure Code.empty) (Pure.pure []) s (Reads bound inside s) :=
      .pure ⟨rfl, .refl s, fun _ _ _ => rfl⟩
    simp only [Walk.appliedTree, Draft.applied, Tree.sketch]
    cases TagKind.ofName? tag.name with
    | none => exact nothing
    | some kind =>
      cases kind with
      | attr flow =>
        cases flow with
        | content => exact nothing
        | applied =>
          refine (Agrees.appliedAttr here attrsOf e).mono ?_
          rintro _ lines t ⟨rfl, steady⟩
          exact ⟨rfl, steady.toAlike, steady.keepsBelow _ _⟩
      | control kind flow =>
        cases flow with
        | content => exact nothing
        | applied =>
          have body : BodyAgrees e s (Tree.sketches children).isEmpty
              (fun inner => Walk.appliedTrees attrsOf inner children)
              (Draft.allApplied file attrsOf (Tree.sketches children)) (Alike s) := by
            refine ⟨Alike.trans, fun alike => ?_, Alike.file, fun inner t alike own => ?_⟩
            · rw [Tree.isEmpty_sketches, alike.document, Document.children, holds.1]
              simp
            · have kept : t.document.HoldsAll (some id) children := alike.document ▸ holds.2
              refine (appliedTrees attrsOf kept rises.2 (below_or_at own) (alike.file.trans here)).mono ?_
              rintro _ lines u ⟨rfl, after, below⟩
              exact ⟨rfl, alike.trans after, below⟩
          refine (Agrees.control kind body here fun around same => ?_).mono ?_
          · exact Nat.lt_of_lt_of_le (outer around same) rises.1
          · rintro _ lines t ⟨rfl, alike, below⟩
            exact ⟨rfl, alike, below.mono rises.1⟩
      | _ => exact nothing

theorem appliedTrees (attrsOf : Nat) : ∀ {trees : List Tree} {parent inside : Option NodeId} {bound : Nat}
    {s : Session}, s.document.HoldsAll parent trees → Tree.AllRise bound trees →
    (∀ id, inside = some id → id < bound) → s.file = file →
    Agrees inside (Walk.appliedTrees attrsOf inside trees) (Draft.allApplied file attrsOf (Tree.sketches trees)) s
      (Reads bound inside s)
  | [], _, _, _, s, _, _, _, _ => .pure ⟨rfl, .refl s, fun _ _ _ => rfl⟩
  | tree :: rest, _, inside, bound, s, holds, rise, outer, here => by
    refine (appliedTree attrsOf holds.1 rise.1 outer here).bind ?_
    rintro _ lines t ⟨rfl, first, before⟩
    have kept := first.document ▸ holds.2
    refine (appliedTrees attrsOf kept rise.2 outer (first.file.trans here)).bind ?_
    rintro _ more u ⟨rfl, second, after⟩
    exact .pure ⟨by simp, first.trans second, before.trans after⟩

end

-- The fragment of a tag gives the lines that its sketches give.
theorem attrBlock {fragment attrsOf : Nat} {copies : List Tree} (holds : s.document.HoldsAll (some fragment) copies)
    (rise : Tree.AllRise (fragment + 1) copies) (linked : s.document.children fragment = copies.map Tree.id)
    (here : s.file = file) (outer : ∀ id, inside = some id → id ≤ fragment) (attrs : List Attr)
    (location : Location) :
    Agrees inside (Walk.attrBlock ⟨fragment, attrsOf⟩ attrs location)
      (Draft.attrBlock file attrsOf (Tree.sketches copies) attrs location) s (Reads (fragment + 1) none s) := by
  refine Agrees.step (t := s) rfl rfl ?_
  simp only [holds.treesBelow rise linked]
  have inner : Agrees none (Walk.appliedTrees attrsOf none copies) (Draft.allApplied file attrsOf (Tree.sketches copies))
      s (Reads (fragment + 1) none s) := appliedTrees attrsOf holds rise nofun here
  refine Agrees.bind (inner.within rfl ?_) ?_
  · rintro _ _ t ⟨_, _, kept⟩
    exact kept.branch fun id same => ⟨Nat.lt_succ_of_le (outer id same), nofun⟩
  rintro _ applied t ⟨rfl, first, kept⟩
  refine (Agrees.ownAttrs (first.file.trans here) attrsOf location attrs).bind ?_
  rintro _ own u ⟨rfl, second⟩
  refine .pure ⟨?_, first.trans second.toAlike, kept.trans (second.keepsBelow _ _)⟩
  simp [Line.code]

end Agrees

end Stencil
