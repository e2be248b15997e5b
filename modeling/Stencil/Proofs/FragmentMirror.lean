import Stencil.Proofs.Inlining
import Stencil.Proofs.Reflection
import Stencil.Proofs.Unrolling

-- The fragment of a tag is the mirror of the control flow that leads to its attributes: when the children of the tag
-- have been compiled, it holds the applied form of each control tag and each attribute among them, nested as they
-- are, and nothing else.

namespace Stencil

def Tag.applied (tag : Tag) : Tag := { tag with name := TagKind.appliedName tag.name }

namespace Sketch

mutual

-- The mirror of a node: control flow in its applied form around the mirrors of its children, an attribute in its
-- applied form without children, and nothing for any other node.
def mirror : Sketch → List Sketch
  | .node ⟨identity, .tag tag, location⟩ children =>
    match TagKind.ofName? tag.name with
    | some (.control _ .content) => [.node ⟨identity, .tag tag.applied, location⟩ (mirrors children)]
    | some (.attr .content) => [.node ⟨identity, .tag tag.applied, location⟩ []]
    | _ => []
  | .node ⟨_, .leaf _, _⟩ _ => []

def mirrors : List Sketch → List Sketch
  | [] => []
  | first :: rest => mirror first ++ mirrors rest

end

mutual

theorem copy_eq_mirror : ∀ {sketch : Sketch}, sketch.Only (Tag.isApplied · = false) → copy sketch = mirror sketch
  | .node ⟨_, .leaf _, _⟩ _, _ => rfl
  | .node ⟨_, .tag tag, _⟩ children, only => by
    have below := copies_eq_mirrors only.2
    have own : tag.isApplied = false := only.1
    unfold copy mirror
    unfold Tag.isApplied at own
    split
    · simp [*, Tag.applied]
    · simp [*] at own
    · simp [*, Tag.applied]
    · split <;> simp_all

theorem copies_eq_mirrors : ∀ {sketches : List Sketch}, AllOnly (Tag.isApplied · = false) sketches →
    copies sketches = mirrors sketches
  | [], _ => rfl
  | _ :: _, only => by rw [copies, mirrors, copy_eq_mirror only.1, copies_eq_mirrors only.2]

end

end Sketch

-- The tag's own fragment holds the mirror of the tag's children, as the document has them now, and the next copy
-- would go to the top of the fragment again.
def Mirrored (e : Element) (place : Place) (s : Session) : Prop :=
  ∃ fragment, place.owner = some fragment ∧ s.fragments.get? e.id = some fragment ∧
    Tree.sketches (s.document.treesBelow fragment) = Sketch.mirrors (Tree.sketches (s.document.treesBelow e.id)) ∧
    s.fragments.cursors.get? fragment = some fragment

theorem Reflected.mirrored {e : Element} {place : Place} {s : Session}
    (reflected : Reflected (Tag.isApplied · = false) e place s) : Mirrored e place s := by
  obtain ⟨fragment, owner, linked, cursor, same, only⟩ := reflected
  exact ⟨fragment, owner, linked, by rw [same, Sketch.copies_eq_mirrors only], cursor⟩

namespace Template

-- Let neither the template nor a file that is asked for have a tag in its applied form. Then the fragment of a literal or
-- component tag is the mirror of what lies below the tag, whenever the children of the tag have been compiled.
theorem fragment_mirrors (template : Template) (options : Options) (loader : Loader) (shared : Names)
    (own : Node.AllOnly (Tag.isApplied · = false) template.nodes)
    (others : ∀ path ∈ template.asked options loader shared, ∀ part, loader.load path = .ok part →
      Node.AllOnly (Tag.isApplied · = false) part.nodes)
    (e : Element) (place : Place) (after : Session)
    (finished : .finished e place after ∈ template.chronicle options loader shared)
    (named : TagKind.ofName? e.tag.name = none) : Mirrored e place after := by
  -- The files that are not asked for may be left out.
  let files := loader.among (template.asked options loader shared)
  have same : (template.chronicle options files shared).filterMap Event.finished? =
      (template.chronicle options loader shared).filterMap Event.finished? :=
    template.finished_of_same options loader shared fun path asked => loader.same_among asked
  have there : .finished e place after ∈ template.chronicle options files shared := by
    rw [← Event.mem_finished, same, Event.mem_finished]
    exact finished
  have unapplied : ∀ entry ∈ files.templates, Node.AllOnly (Tag.isApplied · = false) entry.2.nodes := by
    intro entry member
    obtain ⟨asked, loaded⟩ := Loader.load_of_mem_among member
    exact others entry.1 asked entry.2 loaded
  exact Reflected.mirrored (template.finished_reflected options files shared own unapplied _ there named)

theorem fragment_mirrors_nestedIncludes : ∃ e place after,
    .finished e place after ∈ nestedIncludes.chronicle .standard nestedParts [] ∧ e.tag.name = "div" ∧
    (Sketch.mirrors (Tree.sketches (after.document.treesBelow e.id))).length = 1 ∧ Mirrored e place after := by
  have found : ((nestedIncludes.chronicle .standard nestedParts []).filterMap Event.finished?).any (fun entry =>
      entry.1.tag.name = "div" ∧
        (Sketch.mirrors (Tree.sketches (entry.2.2.document.treesBelow entry.1.id))).length = 1) = true := by
    decide +kernel
  obtain ⟨⟨e, place, after⟩, member, holds⟩ := List.any_eq_true.mp found
  have name : e.tag.name = "div" := (of_decide_eq_true holds).1
  have finished := Event.mem_finished.mp member
  refine ⟨e, place, after, finished, name, (of_decide_eq_true holds).2, ?_⟩
  refine nestedIncludes.fragment_mirrors .standard nestedParts [] ?_ ?_ e place after finished ?_
  · simp [nestedIncludes, Node.AllOnly, Node.Only, Tag.isApplied, TagKind.ofName?]
  · intro path _ part loaded
    have listed := Loader.entry_of_load loaded
    have all : ∀ entry ∈ nestedParts.templates, Node.AllOnly (Tag.isApplied · = false) entry.2.nodes := by
      simp [nestedParts, Node.AllOnly, Node.Only, Tag.isApplied, TagKind.ofName?]
    exact all (path, part) listed
  · rw [name]
    decide

-- The same for whatever looks at the tags: take any step that would do nothing at a mirrored tag. Called whenever the
-- children of a literal or component tag have been compiled, in the session of that moment, it does nothing: the
-- compilation is the same with it as without it.
theorem compileWatched_eq_compile (template : Template) (options : Options) (loader : Loader) (shared : Names)
    (own : Node.AllOnly (Tag.isApplied · = false) template.nodes)
    (others : ∀ entry ∈ loader.templates, Node.AllOnly (Tag.isApplied · = false) entry.2.nodes)
    (watch : Element → Place → Walk Unit)
    (silent : ∀ e place s, (TagKind.ofName? e.tag.name = none → Mirrored e place s) →
      (watch e place).run.run s = (.ok (), s)) :
    template.compileWatched watch options loader shared = template.compile options loader shared := by
  have quiet : Silent (Tag.isApplied · = false) watch :=
    fun e place s reflected => silent e place s fun named => (reflected named).mirrored
  rw [template.compileWatched_eq_draft options loader shared quiet own others, compile_eq_draft]

-- A watch is really called: one that always fails makes the compilation fail.
example : (nestedIncludes.compileWatched (fun _ _ => throw ⟨.attributeWithoutTag, "", .zero⟩) .standard nestedParts []).1.isOk = false := by
  decide +kernel

end Template

end Stencil
