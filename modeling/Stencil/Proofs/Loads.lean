import Stencil.Proofs.BuiltRecords

-- The files that a template takes in, and the identities of their nodes. A file is moved past all identities that are
-- taken when it is loaded, so nodes of different files never share one, as long as no identity reaches the limit.

namespace Stencil

-- A file that is taken in: how far its identities are moved, and its nodes.
structure Load where
  shift : Nat
  nodes : List Node

-- The identities of the file are all different, none of them is that of the root, and none reaches the limit.
structure Load.Sound (load : Load) : Prop where
  distinct : (Node.allIdentities load.nodes).Nodup
  nonzero : 0 ∉ Node.allIdentities load.nodes
  fits : ∀ identity ∈ Node.allIdentities load.nodes, identity + load.shift ≤ identityLimit

namespace Sketch

mutual

def identities : Sketch → List Nat
  | .node item children => item.identity :: allIdentities children

def allIdentities : List Sketch → List Nat
  | [] => []
  | first :: rest => identities first ++ allIdentities rest

end

theorem allIdentities_append (front back : List Sketch) :
    allIdentities (front ++ back) = allIdentities front ++ allIdentities back := by
  induction front with
  | nil => rfl
  | cons first rest ih => rw [List.cons_append, allIdentities, ih, allIdentities, List.append_assoc]

end Sketch

theorem shifted_fits {shift : Nat} {identity : UInt32} (fits : identity.toNat + shift ≤ identityLimit) :
    shifted shift identity = identity.toNat + shift := Nat.min_eq_left fits

mutual

theorem Sketch.identities_ofNode {shift : Nat} : ∀ {node : Node},
    (∀ identity ∈ node.identities, identity + shift ≤ identityLimit) →
    (ofNode shift node).identities = node.identities.map (· + shift)
  | .tag identity tag children location, fits => by
    simp only [ofNode, identities, Node.identities, List.map_cons]
    rw [shifted_fits (fits _ List.mem_cons_self),
      allIdentities_ofNodes fun other member => fits other (List.mem_cons_of_mem _ member)]
  | .leaf identity leaf location, fits => by
    simp only [ofNode, identities, allIdentities, Node.identities, List.map_cons, List.map_nil]
    rw [shifted_fits (fits _ List.mem_cons_self)]

theorem Sketch.allIdentities_ofNodes {shift : Nat} : ∀ {nodes : List Node},
    (∀ identity ∈ Node.allIdentities nodes, identity + shift ≤ identityLimit) →
    allIdentities (ofNodes shift nodes) = (Node.allIdentities nodes).map (· + shift)
  | [], _ => rfl
  | first :: rest, fits => by
    rw [ofNodes, allIdentities, Node.allIdentities, List.map_append,
      identities_ofNode fun identity member => fits identity (List.mem_append_left _ member),
      allIdentities_ofNodes fun identity member => fits identity (List.mem_append_right _ member)]

end

namespace Node

mutual

-- Counting on from the known identities covers those of the nodes.
theorem le_largest (shift : Nat) : ∀ (node : Node) (known : Nat), known ≤ largest shift known node ∧
    ∀ identity ∈ node.identities, min (identity + shift) identityLimit ≤ largest shift known node
  | .tag identity _ children _, known => by
    obtain ⟨grows, below⟩ := le_largestOf shift children (max known (shifted shift identity))
    refine ⟨Nat.le_trans (Nat.le_max_left _ _) grows, ?_⟩
    intro other member
    rcases List.mem_cons.mp member with rfl | member
    · exact Nat.le_trans (Nat.le_max_right _ _) grows
    · exact below other member
  | .leaf identity _ _, known => by
    refine ⟨Nat.le_max_left _ _, ?_⟩
    intro other member
    cases List.mem_singleton.mp member
    exact Nat.le_max_right _ _

theorem le_largestOf (shift : Nat) : ∀ (nodes : List Node) (known : Nat), known ≤ largestOf shift known nodes ∧
    ∀ identity ∈ allIdentities nodes, min (identity + shift) identityLimit ≤ largestOf shift known nodes
  | [], _ => ⟨Nat.le_refl _, nofun⟩
  | first :: rest, known => by
    obtain ⟨grows, below⟩ := le_largest shift first known
    obtain ⟨later, others⟩ := le_largestOf shift rest (largest shift known first)
    refine ⟨Nat.le_trans grows later, ?_⟩
    intro identity member
    rcases List.mem_append.mp member with own | other
    · exact Nat.le_trans (below identity own) later
    · exact others identity other

end

mutual

theorem identities_le : ∀ (node : Node), ∀ identity ∈ node.identities, identity ≤ identityLimit
  | .tag identity _ children _, other, member => by
    rcases List.mem_cons.mp member with rfl | member
    · exact Nat.le_of_lt_succ identity.toNat_lt
    · exact allIdentities_le children other member
  | .leaf identity _ _, other, member => by
    cases List.mem_singleton.mp member
    exact Nat.le_of_lt_succ identity.toNat_lt

theorem allIdentities_le : ∀ (nodes : List Node), ∀ identity ∈ allIdentities nodes, identity ≤ identityLimit
  | [], _, member => nomatch member
  | first :: rest, identity, member => by
    rcases List.mem_append.mp member with own | other
    · exact identities_le first identity own
    · exact allIdentities_le rest identity other

end

end Node

namespace Outline

-- The files that are taken in for some nodes, in order.
abbrev Loading := Stack → (shift known : Nat) → List Node → List Load

-- What is reached, without what is taken in on the way.
def reached (reach : Path → Option (Template × Expander × Loading)) (path : Path) : Option (Template × Expander) :=
  (reach path).map fun found => (found.1, found.2.1)

mutual

-- Follows the includes in the order in which they are resolved.
def loads (reach : Path → Option (Template × Expander × Loading)) (stack : Stack) (shift known : Nat) : Node → List Load
  | .leaf _ _ _ => []
  | .tag _ tag children _ =>
    if TagKind.ofName? tag.name = some .including then
      match (stack.target? tag).bind fun path => (reach path).map fun found => (path, found) with
      | some (path, template, _, loading) =>
        ⟨nextShift known, template.nodes⟩ :: loading (stack.push path) (nextShift known)
          (Node.largestOf (nextShift known) known template.nodes) template.nodes
      | none => []
    else if tag.isEntered then allLoads reach stack shift known children else []

def allLoads (reach : Path → Option (Template × Expander × Loading)) (stack : Stack) (shift known : Nat) :
    List Node → List Load
  | [] => []
  | first :: rest => loads reach stack shift known first ++
      allLoads reach stack shift (expand (reached reach) stack shift known first).2 rest

end

-- Follows includes with the templates that can still be included.
def loading : (left : Nat) → List (Path × Template) → Loading
  | 0, _ => allLoads fun _ => none
  | left + 1, templates => allLoads fun path =>
      (templates.lookup path).map fun template =>
        let others := templates.filter fun entry => entry.1 ≠ path
        (template, expander left others, loading left others)

end Outline

-- Identities that are all different: some of their own, which were known before, and new ones, up to the largest.
structure Spread (own : List Nat) (known : Nat) (found : List Nat) (after : Nat) : Prop where
  grows : known ≤ after
  distinct : found.Nodup
  among : ∀ identity ∈ found, identity ∈ own ∨ known < identity ∧ identity ≤ after

namespace Spread

variable {own others found later : List Nat} {known middle after : Nat}

theorem same (distinct : own.Nodup) : Spread own known own known :=
  ⟨Nat.le_refl _, distinct, fun _ => .inl⟩

theorem append (first : Spread own known found middle) (second : Spread others middle later after)
    (distinct : (own ++ others).Nodup) (old : ∀ identity ∈ own ++ others, identity ≤ known) :
    Spread (own ++ others) known (found ++ later) after := by
  obtain ⟨_, _, apart⟩ := List.nodup_append.mp distinct
  have before := first.grows
  have behind := second.grows
  refine ⟨Nat.le_trans before behind, List.nodup_append.mpr ⟨first.distinct, second.distinct, ?_⟩, ?_⟩
  · intro identity one other two same
    subst same
    rcases first.among identity one with mine | ⟨above, below⟩ <;>
      rcases second.among identity two with yours | ⟨higher, _⟩
    · exact apart identity mine identity yours rfl
    · have small := old identity (List.mem_append_left _ mine)
      omega
    · have small := old identity (List.mem_append_right _ yours)
      omega
    · omega
  · intro identity member
    rcases List.mem_append.mp member with one | two
    · rcases first.among identity one with mine | ⟨above, below⟩
      · exact .inl (List.mem_append_left _ mine)
      · exact .inr ⟨above, Nat.le_trans below behind⟩
    · rcases second.among identity two with yours | ⟨above, below⟩
      · exact .inl (List.mem_append_right _ yours)
      · exact .inr ⟨Nat.lt_of_le_of_lt before above, below⟩

-- A node around others.
theorem cons {identity : Nat} (inner : Spread own known found after) (distinct : (identity :: own).Nodup)
    (old : identity ≤ known) : Spread (identity :: own) known (identity :: found) after := by
  refine ⟨inner.grows, List.nodup_cons.mpr ⟨?_, inner.distinct⟩, ?_⟩
  · intro again
    rcases inner.among identity again with mine | ⟨above, _⟩
    · exact (List.nodup_cons.mp distinct).1 mine
    · omega
  · intro other member
    rcases List.mem_cons.mp member with rfl | member
    · exact .inl List.mem_cons_self
    · exact (inner.among other member).imp_left (List.mem_cons_of_mem _)

end Spread

theorem nodup_moved {identities : List Nat} (distinct : identities.Nodup) (shift : Nat) :
    (identities.map (· + shift)).Nodup := by
  refine List.pairwise_map.mpr (distinct.imp ?_)
  intro one other apart same
  exact apart (Nat.add_right_cancel same)

namespace Outline

-- An expander gives the nodes of all files identities of their own, if those of each file are.
def Spreads (expander : Expander) (loading : Loading) : Prop :=
  ∀ (stack : Stack) (shift known : Nat) (nodes : List Node), (Node.allIdentities nodes).Nodup →
    (∀ identity ∈ Node.allIdentities nodes, identity + shift ≤ identityLimit ∧ identity + shift ≤ known) →
    (∀ load ∈ loading stack shift known nodes, load.Sound) →
    Spread ((Node.allIdentities nodes).map (· + shift)) known
      (Sketch.allIdentities (flatten (expander stack shift known nodes).1)) (expander stack shift known nodes).2

-- The nodes of a file that is taken in come behind all that are known.
theorem Spreads.behind {expander : Expander} {loading : Loading} (spreads : Spreads expander loading) {stack : Stack}
    {known : Nat} {nodes : List Node} {own : List Nat} (sound : Load.Sound ⟨nextShift known, nodes⟩)
    (others : ∀ load ∈ loading stack (nextShift known) (Node.largestOf (nextShift known) known nodes) nodes,
      load.Sound) :
    Spread own known (Sketch.allIdentities (flatten (expander stack (nextShift known)
        (Node.largestOf (nextShift known) known nodes) nodes).1))
      (expander stack (nextShift known) (Node.largestOf (nextShift known) known nodes) nodes).2 := by
  obtain ⟨grows, covers⟩ := Node.le_largestOf (nextShift known) nodes known
  have inner := spreads stack (nextShift known) (Node.largestOf (nextShift known) known nodes) nodes sound.distinct
    (fun identity member => ⟨sound.fits identity member, by
      have moved := covers identity member
      rwa [Nat.min_eq_left (sound.fits identity member)] at moved⟩) others
  refine ⟨Nat.le_trans grows inner.grows, inner.distinct, ?_⟩
  intro identity member
  right
  rcases inner.among identity member with mine | ⟨above, below⟩
  · obtain ⟨original, listed, rfl⟩ := List.mem_map.mp mine
    have fits : original + nextShift known ≤ identityLimit := sound.fits original listed
    have positive : original ≠ 0 := fun zero => sound.nonzero (zero ▸ listed)
    have moved : original + nextShift known ≤ Node.largestOf (nextShift known) known nodes := by
      have covered := covers original listed
      rwa [Nat.min_eq_left fits] at covered
    -- An identity that is not zero leaves room for the whole shift.
    have whole : nextShift known = known + 1 := by
      simp only [nextShift] at fits ⊢
      omega
    have upper := inner.grows
    omega
  · exact ⟨Nat.lt_of_le_of_lt grows above, below⟩

mutual

theorem spread_expand {reach : Path → Option (Template × Expander × Loading)}
    (reaches : ∀ path template expander loading, reach path = some (template, expander, loading) →
      Spreads expander loading) (stack : Stack) (shift : Nat) : ∀ (node : Node) (known : Nat), node.identities.Nodup →
    (∀ identity ∈ node.identities, identity + shift ≤ identityLimit ∧ identity + shift ≤ known) →
    (∀ load ∈ loads reach stack shift known node, load.Sound) →
    Spread (node.identities.map (· + shift)) known
      (Sketch.allIdentities (flat (expand (reached reach) stack shift known node).1))
      (expand (reached reach) stack shift known node).2
  | .leaf identity leaf location, known, distinct, room, _ => by
    have fits := (room _ List.mem_cons_self).1
    simp only [expand, flat, flatten, Sketch.allIdentities, Sketch.identities, Node.identities, shifted_fits fits,
      List.append_nil, List.map_cons, List.map_nil]
    exact .same (by simp)
  | .tag identity tag children location, known, distinct, room, sound => by
    have fits := (room _ List.mem_cons_self).1
    have moved : ((Node.identities (.tag identity tag children location)).map (· + shift)).Nodup :=
      nodup_moved distinct shift
    have below : ∀ other ∈ Node.allIdentities children, other + shift ≤ identityLimit ∧ other + shift ≤ known :=
      fun other member => room other (List.mem_cons_of_mem _ member)
    -- A tag that stays with its children as they are.
    have kept : Spread ((Node.identities (.tag identity tag children location)).map (· + shift)) known
        (Sketch.allIdentities (flat (.node ⟨shifted shift identity, .tag tag, location⟩ (ofNodes shift children))))
        known := by
      rw [flat, flatten_ofNodes, Sketch.allIdentities, Sketch.identities, Sketch.allIdentities, List.append_nil,
        Sketch.allIdentities_ofNodes fun other member => (below other member).1, shifted_fits fits]
      exact .same moved
    unfold loads at sound
    unfold expand
    by_cases including : TagKind.ofName? tag.name = some .including
    · rw [if_pos including] at sound ⊢
      cases target : stack.target? tag with
      | none => exact kept
      | some path =>
        cases found : reach path with
        | none =>
          simp only [reached, found, Option.bind_some, Option.map_none]
          exact kept
        | some triple =>
          obtain ⟨template, expander, loading⟩ := triple
          simp only [target, reached, found, Option.bind_some, Option.map_some] at sound ⊢
          obtain ⟨own, others⟩ := List.forall_mem_cons.mp sound
          exact (reaches path template expander loading found).behind own others
    · rw [if_neg including] at sound ⊢
      cases entered : tag.isEntered with
      | false => exact kept
      | true =>
        rw [entered, if_pos rfl] at sound
        have inner := spread_expandAll reaches stack shift children known (List.nodup_cons.mp distinct).2 below sound
        simp only [if_true, flat, Sketch.allIdentities, Sketch.identities, List.append_nil, Node.identities,
          List.map_cons, shifted_fits fits] at moved ⊢
        exact inner.cons moved (room _ List.mem_cons_self).2

theorem spread_expandAll {reach : Path → Option (Template × Expander × Loading)}
    (reaches : ∀ path template expander loading, reach path = some (template, expander, loading) →
      Spreads expander loading) (stack : Stack) (shift : Nat) : ∀ (nodes : List Node) (known : Nat),
    (Node.allIdentities nodes).Nodup →
    (∀ identity ∈ Node.allIdentities nodes, identity + shift ≤ identityLimit ∧ identity + shift ≤ known) →
    (∀ load ∈ allLoads reach stack shift known nodes, load.Sound) →
    Spread ((Node.allIdentities nodes).map (· + shift)) known
      (Sketch.allIdentities (flatten (expandAll (reached reach) stack shift known nodes).1))
      (expandAll (reached reach) stack shift known nodes).2
  | [], _, _, _, _ => .same List.nodup_nil
  | first :: rest, known, distinct, room, sound => by
    obtain ⟨own, others, _⟩ := List.nodup_append.mp distinct
    obtain ⟨now, later⟩ := List.forall_mem_append.mp sound
    have head := spread_expand reaches stack shift first known own
      (fun identity member => room identity (List.mem_append_left _ member)) now
    have tail := spread_expandAll reaches stack shift rest _ others
      (fun identity member => (room identity (List.mem_append_right _ member)).imp_right
        fun below => Nat.le_trans below head.grows) later
    rw [expandAll, flatten, Sketch.allIdentities_append, Node.allIdentities, List.map_append]
    refine head.append tail ?_ ?_
    · rw [← List.map_append]
      exact nodup_moved distinct shift
    · rw [← List.map_append]
      intro identity member
      obtain ⟨original, listed, rfl⟩ := List.mem_map.mp member
      exact (room original listed).2

end

theorem spreads_expander : ∀ (left : Nat) (templates : List (Path × Template)),
    Spreads (expander left templates) (loading left templates)
  | 0, _ => fun stack shift known nodes =>
    @spread_expandAll (fun _ => none) (fun _ _ _ _ found => nomatch found) stack shift nodes known
  | left + 1, templates => by
    intro stack shift known nodes distinct room sound
    have same : (fun path => (templates.lookup path).map fun template =>
        (template, expander left (templates.filter fun entry => entry.1 ≠ path))) =
        reached fun path => (templates.lookup path).map fun template =>
          (template, expander left (templates.filter fun entry => entry.1 ≠ path),
            loading left (templates.filter fun entry => entry.1 ≠ path)) := by
      funext path
      simp [reached, Function.comp_def]
    rw [expander, same]
    refine spread_expandAll ?_ stack shift nodes known distinct room sound
    intro path template _ _ found
    obtain ⟨_, _, made⟩ := Option.map_eq_some_iff.mp found
    cases made
    exact spreads_expander left _

end Outline

namespace Template

-- The files that a template takes in.
def loads (template : Template) (options : Options) (loader : Loader) : List Load :=
  Outline.loading loader.templates.length loader.templates ⟨(Path.ofText options.filePath).normalize, []⟩ 0
    (Node.largestOf 0 0 template.nodes) template.nodes

-- If the identities of the template and of each file are distinct, so are those of all nodes together.
theorem identities_distinct {template : Template} {options : Options} {loader : Loader}
    (distinct : (Node.allIdentities template.nodes).Nodup) (nonzero : 0 ∉ Node.allIdentities template.nodes)
    (sound : ∀ load ∈ template.loads options loader, load.Sound) :
    (Sketch.allIdentities (Outline.flatten (template.outlines options loader))).Nodup ∧
      0 ∉ Sketch.allIdentities (Outline.flatten (template.outlines options loader)) := by
  have spread := Outline.spreads_expander loader.templates.length loader.templates
    ⟨(Path.ofText options.filePath).normalize, []⟩ 0 (Node.largestOf 0 0 template.nodes) template.nodes distinct
    (fun identity member => by
      have small := Node.allIdentities_le template.nodes identity member
      have covered := (Node.le_largestOf 0 template.nodes 0).2 identity member
      rw [Nat.add_zero, Nat.min_eq_left small] at covered
      exact ⟨small, covered⟩) sound
  refine ⟨spread.distinct, fun zero => ?_⟩
  rcases spread.among 0 zero with own | ⟨above, _⟩
  · obtain ⟨identity, listed, same⟩ := List.mem_map.mp own
    exact nonzero (same ▸ listed)
  · exact Nat.not_lt_zero _ above

end Template

end Stencil
