import Stencil.Proofs.ContentAgreement

-- The walk with a watch, which is called when the children of a tag have been compiled. It may do anything; here are
-- the watches that do nothing as long as the fragment of the tag shows the tag's children.

namespace Stencil

namespace Walk

mutual

-- The walk, with a watch behind the children of each tag.
def watchedTree (watch : Element → Place → Walk Unit) (env : Env) (place : Place) (sink : Nat) : Tree → Walk Code
  | .node id ⟨identity, .leaf leaf, location⟩ _ => leafCode place sink id identity location leaf
  | .node id ⟨identity, .tag tag, location⟩ children =>
    tagCode env place sink ⟨id, identity, tag, location⟩ fun place sink => do
      let code ← watchedTrees watch env place sink children
      watch ⟨id, identity, tag, location⟩ place
      return code

def watchedTrees (watch : Element → Place → Walk Unit) (env : Env) (place : Place) (sink : Nat) : List Tree → Walk Code
  | [] => return .empty
  | tree :: rest => do
    let code ← watchedTree watch env place sink tree
    return code ++ (← watchedTrees watch env place sink rest)

end

def watchedNodes (watch : Element → Place → Walk Unit) (options : Options) (fault : Path → Fault) :
    (left : Nat) → List (Path × Template) → Compiler
  | 0, _ => watchedTrees watch ⟨options, fault, fun _ => none⟩
  | left + 1, templates => watchedTrees watch ⟨options, fault, fun path =>
      (templates.lookup path).map fun template =>
        (template, watchedNodes watch options fault left (templates.filter fun entry => entry.1 ≠ path))⟩

-- The watch that never does anything.
def idle (_ : Element) (_ : Place) : Walk Unit := return ()

mutual

theorem watchedTree_idle (env : Env) : ∀ (place : Place) (sink : Nat) (tree : Tree),
    watchedTree idle env place sink tree = contentTree env place sink tree
  | _, _, .node _ ⟨_, .leaf _, _⟩ _ => rfl
  | place, sink, .node id ⟨identity, .tag tag, location⟩ children => by
    have below : (fun place sink => do
        let code ← watchedTrees idle env place sink children
        idle ⟨id, identity, tag, location⟩ place
        return code) = fun place sink => contentTrees env place sink children := by
      funext place sink
      simp [watchedTrees_idle env place sink children, idle]
    rw [watchedTree, below, contentTree]

theorem watchedTrees_idle (env : Env) : ∀ (place : Place) (sink : Nat) (trees : List Tree),
    watchedTrees idle env place sink trees = contentTrees env place sink trees
  | _, _, [] => rfl
  | place, sink, tree :: rest => by
    rw [watchedTrees, contentTrees, watchedTree_idle env place sink tree, watchedTrees_idle env place sink rest]

end

theorem watchedNodes_idle (options : Options) (fault : Path → Fault) : ∀ (left : Nat) (templates : List (Path × Template)),
    watchedNodes idle options fault left templates = nodes options fault left templates
  | 0, _ => by
    funext place sink trees
    exact watchedTrees_idle _ place sink trees
  | left + 1, templates => by
    funext place sink trees
    rw [watchedNodes, watchedTrees_idle, nodes]
    simp only [watchedNodes_idle options fault left]

end Walk

namespace Template

def walkWatched (watch : Element → Place → Walk Unit) (template : Template) (options : Options) (loader : Loader)
    (shared : Names) : Except CompileError Code × Session :=
  let start := Session.start options shared
  let (trees, document) := start.document.importPage template.nodes none
  (Walk.watchedNodes watch options loader.fault loader.templates.length loader.templates .outermost Output.rootSink
    trees).run.run { start with document := document }

def compileWatched (watch : Element → Place → Walk Unit) (template : Template) (options : Options) (loader : Loader)
    (shared : Names) : Except CompileError String × Names :=
  let (outcome, session) := template.walkWatched watch options loader shared
  (outcome.map fun code => Output.opening ++ code.render session.scope ++ Output.closing, session.shared)

theorem compileWatched_idle (template : Template) (options : Options) (loader : Loader) (shared : Names) :
    template.compileWatched Walk.idle options loader shared = template.compile options loader shared := by
  rw [compileWatched, walkWatched, Walk.watchedNodes_idle]
  rfl

end Template

-- The fragment of a tag is linked to it, with its cursor at the top, and holds what the children of the tag leave
-- there. All tags below are allowed.
def Reflected (allowed : Tag → Prop) (e : Element) (place : Place) (s : Session) : Prop :=
  ∃ fragment, place.owner = some fragment ∧ s.fragments.get? e.id = some fragment ∧
    s.fragments.cursors.get? fragment = some fragment ∧
    Tree.sketches (s.document.treesBelow fragment) = Sketch.copies (Tree.sketches (s.document.treesBelow e.id)) ∧
    Sketch.AllOnly allowed (Tree.sketches (s.document.treesBelow e.id))

-- A watch that does nothing if the tag has a meaning of its own or is reflected in its fragment.
def Silent (allowed : Tag → Prop) (watch : Element → Place → Walk Unit) : Prop :=
  ∀ e place s, (TagKind.ofName? e.tag.name = none → Reflected allowed e place s) →
    (watch e place).run.run s = (.ok (), s)

open Session Document Tree

-- When its children have been compiled, a tag is reflected in its fragment.
theorem Opened.reflected {e : Element} {children : List Tree} {place : Place} {stop : Nat} {flat : List Sketch}
    {allowed : Tag → Prop} {s t : Session} (opened : Opened e children place s)
    (walked : Walked ⟨some e.id, place.owner, e.id + 1, stop⟩ children flat s t) (only : Sketch.AllOnly allowed flat)
    (named : TagKind.ofName? e.tag.name = none) : Reflected allowed e place t := by
  obtain ⟨⟨own, above, listed⟩, fragment, item, owner, linked, cursor, top⟩ := opened named
  have below : sketches (t.document.treesBelow e.id) = flat := by
    obtain ⟨new, holds, same, _, rise, replaces⟩ := walked.content
    have found : t.document.children e.id = new.map Tree.id := by
      rw [Document.children, replaces e.id own above [] [] rfl nofun (by simpa using listed)]
      simp
    rw [holds.treesBelow rise found, same]
  have copied : sketches (t.document.treesBelow fragment) = Sketch.copies flat := by
    obtain ⟨copies, holds, same, rise, extended⟩ := walked.copies fragment (by simp [Session.cursor?, owner, cursor])
    have found : t.document.children fragment = copies.map Tree.id := by
      rw [Document.children, extended _ _ _ top]
      rfl
    rw [holds.treesBelow (rise.mono (cell?_lt top)) found, same]
  exact ⟨fragment, owner, (walked.byTag _).trans linked, (walked.cursors _).trans cursor, by rw [below, copied],
    by rwa [below]⟩

end Stencil
