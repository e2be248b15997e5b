import Mathlib.Data.List.Nodup
import Stencil.Proofs.Copying

-- The identities that a file gets when it is copied into a document. They are never that of the root. They lie above all
-- that were taken before, unless the largest identity is among these, and they are different unless two of them reach the
-- largest one, where they stay.

namespace Stencil

namespace Document

-- The identities of the nodes from a position on.
def identitiesFrom (doc : Document) (start : Nat) : List Nat :=
  (doc.cells.toList.drop start).map fun cell => cell.item.identity

-- A document that was made step by step, with all identities that were copied in on the way.
inductive History : Document → List Nat → Prop where
  | empty : History .empty []
  | page {doc taken} (nodes : List Node) (parent : Option NodeId) : History doc taken →
      History (doc.importPage nodes parent).2 (taken ++ (doc.importPage nodes parent).2.identitiesFrom doc.size)
  | fresh {doc taken} (nodes : List Node) (parent : Option NodeId) : History doc taken →
      History (doc.importFresh nodes parent).2 (taken ++ (doc.importFresh nodes parent).2.identitiesFrom doc.size)
  | created {doc taken} (identity : Nat) (name : String) (location : Location) : History doc taken →
      History (doc.createTag identity name location).2 taken
  | cloned {doc taken} (id : NodeId) (name : String) : History doc taken → History (doc.cloneDetached id name).2 taken
  | appended {doc taken} (parent child : NodeId) : History doc taken → History (doc.appendChild parent child) taken
  | spliced {doc taken} (target : NodeId) (roots : List NodeId) : History doc taken → History (doc.splice target roots) taken

end Document

namespace Tree

mutual

theorem identities_cells (shift : Nat) : ∀ (start : Nat) (parent : Option Nat) (node : Node),
    (cells parent (place shift start node)).map (fun cell => cell.item.identity) = (node.moved shift).identities
  | start, _, .tag identity _ children _ => by
    rw [place, cells, List.map_cons, identities_allCells shift (start + 1) (some start) children, Node.moved,
      Node.identities, Node.toNat_shifted]
  | _, _, .leaf identity _ _ => by
    rw [place, cells, allCells, List.map_singleton, Node.moved, Node.identities, Node.toNat_shifted]

theorem identities_allCells (shift : Nat) : ∀ (start : Nat) (parent : Option Nat) (nodes : List Node),
    (allCells parent (placeAll shift start nodes)).map (fun cell => cell.item.identity) =
      Node.allIdentities (Node.movedAll shift nodes)
  | _, _, [] => rfl
  | start, parent, first :: rest => by
    rw [placeAll, allCells, List.map_append, identities_cells shift start parent first,
      identities_allCells shift (start + first.size) parent rest, Node.movedAll, Node.allIdentities]

end

end Tree

namespace Document

theorem identitiesFrom_importShifted (doc : Document) (shift : Nat) (nodes : List Node) (parent : Option NodeId) :
    (doc.importShifted shift nodes parent).2.identitiesFrom doc.size =
      (Node.allIdentities nodes).map fun identity => min (identity + shift) identityLimit := by
  have behind (cells : List Cell) : (doc.extended cells).identitiesFrom doc.size = cells.map fun cell => cell.item.identity := by
    simp [identitiesFrom, extended, size]
  rw [importShifted_eq, behind, Tree.identities_allCells, Node.allIdentities_movedAll]

end Document

-- The largest of the identities that were taken, or zero if there is none.
structure Peak (largest : Nat) (taken : List Nat) : Prop where
  most : ∀ identity ∈ taken, identity ≤ largest
  reached : largest = 0 ∨ largest ∈ taken
  bounded : largest ≤ identityLimit

namespace Peak

variable {largest : Nat} {taken : List Nat}

theorem step (peak : Peak largest taken) {identity : Nat} (fits : identity ≤ identityLimit) :
    Peak (max largest identity) (taken ++ [identity]) where
  most other member := by
    rcases List.mem_append.mp member with old | own
    · exact Nat.le_trans (peak.most other old) (Nat.le_max_left _ _)
    · cases List.mem_singleton.mp own
      exact Nat.le_max_right _ _
  reached := by
    rcases Nat.le_total largest identity with le | le
    · exact .inr (by simp [Nat.max_eq_right le])
    · rw [Nat.max_eq_left le]
      exact peak.reached.imp_right (List.mem_append_left _)
  bounded := Nat.max_le.mpr ⟨peak.bounded, fits⟩

theorem foldl {added : List Nat} (peak : Peak largest taken) (fit : ∀ identity ∈ added, identity ≤ identityLimit) :
    Peak (added.foldl max largest) (taken ++ added) := by
  induction added generalizing taken largest with
  | nil =>
    rw [List.append_nil]
    exact peak
  | cons identity rest ih =>
    have next := ih (peak.step (fit identity List.mem_cons_self)) fun other member => fit other (List.mem_cons_of_mem _ member)
    rwa [List.append_assoc] at next

-- Whatever is moved past the largest identity that was taken lies above it, if there is room.
theorem lt_moved (peak : Peak largest taken) (room : largest < identityLimit)
    (identity : Nat) {old : Nat} (member : old ∈ taken) : old < min (identity + (largest + 1)) identityLimit := by
  have most := peak.most old member
  omega

theorem above_iff (peak : Peak largest taken) (identities : List Nat) :
    (∀ new ∈ identities.map fun identity => min (identity + (largest + 1)) identityLimit, ∀ old ∈ taken, old < new) ↔
      identities = [] ∨ identityLimit ∉ taken := by
  constructor
  · intro above
    cases identities with
    | nil => exact .inl rfl
    | cons identity rest =>
      refine .inr fun full => ?_
      have less := above _ List.mem_cons_self identityLimit full
      exact Nat.not_lt_of_le (Nat.min_le_right _ _) less
  · rintro (rfl | free) new member old earlier
    · cases member
    · obtain ⟨identity, -, rfl⟩ := List.mem_map.mp member
      have room : largest ≠ identityLimit := by
        rintro rfl
        rcases peak.reached with zero | full
        · cases zero
        · exact free full
      have bounded := peak.bounded
      exact peak.lt_moved (by omega) identity earlier

end Peak

-- Identities that are moved alike meet only at the largest one there is.
theorem nodup_capped {identities : List Nat} (distinct : identities.Nodup) (shift : Nat) :
    (identities.map fun identity => min (identity + shift) identityLimit).Nodup ↔
      ∀ one ∈ identities, ∀ other ∈ identities,
        identityLimit ≤ one + shift → identityLimit ≤ other + shift → one = other := by
  rw [List.nodup_map_iff_inj_on distinct]
  constructor
  · intro apart one member other member' full full'
    apply apart one member other member'
    rw [Nat.min_eq_right full, Nat.min_eq_right full']
  · intro alone one member other member' same
    have meet := alone one member other member'
    omega

theorem Node.allIdentities_eq_nil {nodes : List Node} : Node.allIdentities nodes = [] ↔ nodes = [] := by
  cases nodes with
  | nil => simp [Node.allIdentities]
  | cons first rest => cases first <;> simp [Node.allIdentities, Node.identities]

namespace Document

theorem peak_importShifted {doc : Document} {taken : List Nat} (peak : Peak doc.maxIdentity taken) (shift : Nat)
    (nodes : List Node) (parent : Option NodeId) : Peak (doc.importShifted shift nodes parent).2.maxIdentity
      (taken ++ (doc.importShifted shift nodes parent).2.identitiesFrom doc.size) := by
  rw [(copied_importShifted doc shift nodes parent).largest, identitiesFrom_importShifted, ← Node.allIdentities_movedAll]
  exact peak.foldl (Node.allIdentities_le _)

theorem maxIdentity_cloneDetached (doc : Document) (id : NodeId) (name : String) :
    (doc.cloneDetached id name).2.maxIdentity = doc.maxIdentity := by
  unfold cloneDetached
  split <;> rfl

theorem History.peak {doc : Document} {taken : List Nat} (history : History doc taken) : Peak doc.maxIdentity taken := by
  induction history with
  | empty => exact ⟨nofun, .inl rfl, Nat.zero_le _⟩
  | page nodes parent _ peak => exact peak_importShifted peak 0 nodes parent
  | fresh nodes parent _ peak => exact peak_importShifted peak _ nodes parent
  | created identity name location _ peak => exact peak
  | cloned id name _ peak => rwa [maxIdentity_cloneDetached]
  | appended parent child _ peak => exact peak
  | spliced target roots _ peak => rwa [maxIdentity_splice]

theorem identitiesFrom_importFresh {doc : Document} {taken : List Nat} (peak : Peak doc.maxIdentity taken)
    (nodes : List Node) (parent : Option NodeId) : (doc.importFresh nodes parent).2.identitiesFrom doc.size =
      (Node.allIdentities nodes).map fun identity => min (identity + (doc.maxIdentity + 1)) identityLimit := by
  rw [importFresh, identitiesFrom_importShifted]
  refine List.map_congr_left fun identity _ => ?_
  have bounded := peak.bounded
  omega

-- A file is copied in whose own identities are all different. What it gets is never zero. It lies above all that was taken
-- just if the largest identity was not yet among these, and it is all different just if no two nodes reach the largest
-- identity. So there is no clash as long as nothing has to stay at that one.
theorem importFresh_identities {doc : Document} {taken : List Nat} (history : History doc taken) (nodes : List Node)
    (parent : Option NodeId) (distinct : (Node.allIdentities nodes).Nodup) :
    let moved (identity : Nat) := identity + (doc.maxIdentity + 1)
    let fresh := (doc.importFresh nodes parent).2.identitiesFrom doc.size
    Peak doc.maxIdentity taken ∧
    fresh = (Node.allIdentities nodes).map (fun identity => min (moved identity) identityLimit) ∧
    0 ∉ fresh ∧
    ((∀ new ∈ fresh, ∀ old ∈ taken, old < new) ↔ nodes = [] ∨ identityLimit ∉ taken) ∧
    (fresh.Nodup ↔ ∀ one ∈ Node.allIdentities nodes, ∀ other ∈ Node.allIdentities nodes,
      identityLimit ≤ moved one → identityLimit ≤ moved other → one = other) ∧
    ((∀ identity ∈ Node.allIdentities nodes, moved identity ≤ identityLimit) →
      fresh.Nodup ∧ ∀ new ∈ fresh, ∀ old ∈ taken, old < new) := by
  intro moved fresh
  have peak := history.peak
  have same : fresh = _ := identitiesFrom_importFresh peak nodes parent
  have nodup := nodup_capped distinct (doc.maxIdentity + 1)
  have above := peak.above_iff (Node.allIdentities nodes)
  rw [Node.allIdentities_eq_nil] at above
  rw [same]
  refine ⟨peak, rfl, ?_, above, nodup, ?_⟩
  · intro zero
    obtain ⟨identity, -, equal⟩ := List.mem_map.mp zero
    have positive : 0 < identityLimit := by decide
    omega
  · intro fits
    refine ⟨nodup.mpr ?_, above.mpr ?_⟩
    · intro one member other member' full full'
      have first : one + (doc.maxIdentity + 1) ≤ identityLimit := fits one member
      have second : other + (doc.maxIdentity + 1) ≤ identityLimit := fits other member'
      omega
    · by_cases none : nodes = []
      · exact .inl none
      · refine .inr fun full => ?_
        obtain ⟨identity, rest, listed⟩ := List.exists_cons_of_ne_nil (mt Node.allIdentities_eq_nil.mp none)
        have fit : identity + (doc.maxIdentity + 1) ≤ identityLimit := fits identity (listed ▸ List.mem_cons_self)
        have most := peak.most _ full
        omega

end Document

-- A page with a place for a part.
def highestIncludes : Template :=
  ⟨[.tag 1 ⟨"div", [], false⟩
    [.tag 2 ⟨"include", [⟨.literal "from", some (.literal "part.json"), .zero⟩], true⟩ [] .zero] .zero]⟩

def lowDocument : Document := (Document.empty.importPage highestIncludes.nodes none).2

-- The last of these identities is moved to the largest one and does not pass it.
theorem importFresh_identities_lowDocument :
    let nodes : List Node := [.leaf 7 (.text "x") .zero, .leaf 4294967292 (.text "y") .zero]
    let fresh := (lowDocument.importFresh nodes none).2.identitiesFrom lowDocument.size
    fresh = [10, 4294967295] ∧ fresh.Nodup ∧ ∀ new ∈ fresh, ∀ old ∈ lowDocument.identitiesFrom 0, old < new := by
  intro nodes fresh
  obtain ⟨-, same, -, -, -, apart⟩ :=
    Document.importFresh_identities (.page highestIncludes.nodes none .empty) nodes none (by decide)
  exact ⟨same, apart (by decide)⟩

-- The identities of this part are different, and so high that two of them cannot be moved past those of the page.
def highPart : Template :=
  ⟨[.tag 4294967292 ⟨"p", [], false⟩ [.tag 4294967293 ⟨"b", [], false⟩ [.leaf 3 (.text "x") .zero] .zero] .zero]⟩

def fullDocument : Document := (lowDocument.importFresh highPart.nodes none).2

-- A tag of the part and the one below it get the same identity and fill one list of children, so that the text comes twice.
-- Behind them, whatever is copied in gets this identity too.
theorem highestIncludes_merge_children :
    (Node.allIdentities highPart.nodes).Nodup ∧
    fullDocument.identitiesFrom lowDocument.size = [4294967295, 4294967295, 6] ∧
    (fullDocument.importFresh [.leaf 1 (.text "y") .zero] none).2.identitiesFrom fullDocument.size = [4294967295] ∧
    (highestIncludes.compile .standard (.ofSources [(.ofText "part.json", some highPart)]) []).1.toOption =
      some (Output.opening ++
        "<?php $attrs1 = []; ?>\n<?php $children1 = []; ?>\n<?php $attrs2 = []; ?>\n<?php $children4294967295 = []; ?>\n" ++
        "<?php $attrs3 = []; ?>\n<?php $children4294967295 = []; ?>\n" ++
        "<?php $children4294967295[] = [\"text\" => \"x\"]; ?>\n" ++
        "<?php $children4294967295[] = [\"tag\" => \"b\", \"attrs\" => $attrs3, \"children\" => $children4294967295]; ?>\n" ++
        "<?php $children1[] = [\"tag\" => \"p\", \"attrs\" => $attrs2, \"children\" => $children4294967295]; ?>\n" ++
        "<?php $children0[] = [\"tag\" => \"div\", \"attrs\" => $attrs1, \"children\" => $children1]; ?>\n" ++
        Output.closing) := by
  decide +kernel

end Stencil
