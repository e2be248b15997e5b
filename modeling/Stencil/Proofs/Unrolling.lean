import Mathlib.Data.List.Perm.Subperm
import Stencil.Proofs.Reliance

-- Includes without a bound on their depth. An include loads its file anew wherever it stands, and nothing but the files
-- around keeps it from loading the same file again. If only finitely many paths can be loaded, this ends: no file stands
-- twice among those around a node, so that they are as many as the paths and the page at most.

namespace Stencil

namespace Walk

-- The walk where every include loads its file, down to a depth. What lies beyond is compiled by `bottom`.
def unrolled (options : Options) (loader : Loader) (bottom : Compiler) : (depth : Nat) → Compiler
  | 0 => bottom
  | depth + 1 => contentTrees ⟨options, loader.fault, fun path =>
      (loader.load path).toOption.map fun template => (template, unrolled options loader bottom depth)⟩

-- An include that leads to one of the files around is refused; what its path leads to is not asked for.
theorem contentTree_cycle {env : Env} {place : Place} {sink : Nat} {id : NodeId} {identity : Nat}
    {tag : Tag} {location : Location} {children : List Tree} {part : Part} {source : String} {s : Session}
    (kind : TagKind.ofName? tag.name = some .including) (given : Attr.param? tag.attrs "from" = some part)
    (fixed : part.fixed? = some source) (cyclic : includePath s.file source ∈ s.stack.files) :
    (contentTree env place sink (.node id ⟨identity, .tag tag, location⟩ children)).run.run s =
      (.error ⟨.includeCycle (includePath s.file source).text, s.file.text, location⟩, s) := by
  have known : TagKind.classify (s.registry.contains s.shared) tag.name = .including := by
    rw [TagKind.classify, kind]
  have reads (next : Session → Walk Code) : (get >>= next).run.run s = (next s).run.run s := rfl
  have enters : (contentTree env place sink (.node id ⟨identity, .tag tag, location⟩ children)).run.run s =
      (including env place sink ⟨id, identity, tag, location⟩).run.run s := by
    rw [contentTree, tagCode, reads]
    simp only [known]
  rw [enters, including]
  simp only [Element.require, Element.param?, given, pure_bind, fixed]
  have around : includePath s.file source ∈ s.file :: s.including := cyclic
  rw [reads, if_pos around]
  rfl

end Walk

namespace Logged

variable (options : Options) (loader : Loader) (bottom : Stencil.Compiler)

def unrolled : (depth : Nat) → Compiler
  | 0 => fun place sink trees => quiet (bottom place sink trees)
  | depth + 1 => contentTrees ⟨options, loader.fault, fun path =>
      (loader.load path).toOption.map fun template => (template, unrolled depth)⟩

theorem walk_unrolled : ∀ (depth : Nat) (place : Place) (sink : Nat) (trees : List Tree),
    (unrolled options loader bottom depth place sink trees).walk =
      Walk.unrolled options loader bottom depth place sink trees
  | 0, _, _, _ => rfl
  | depth + 1, place, sink, trees => by
    rw [unrolled, walk_contentTrees, Walk.unrolled]
    simp only [Env.plain, Option.map_map, Function.comp_def, walk_unrolled depth]

end Logged

-- The files around a node differ, and all but the page are among the given paths.
structure Stack.Bounded (paths : List Path) (stack : Stack) : Prop where
  distinct : stack.files.Nodup
  loaded : stack.files.dropLast ⊆ paths

namespace Stack.Bounded

variable {paths : List Path} {stack : Stack}

theorem length_le (bounded : stack.Bounded paths) : stack.files.length ≤ paths.length + 1 := by
  have distinct : stack.files.dropLast.Nodup := bounded.distinct.sublist (List.dropLast_sublist _)
  have fits := (List.subperm_of_subset distinct bounded.loaded).length_le
  rw [List.length_dropLast] at fits
  omega

theorem push (bounded : stack.Bounded paths) {path : Path} (fresh : path ∉ stack.files) (loaded : path ∈ paths) :
    (stack.push path).Bounded paths := by
  refine ⟨List.nodup_cons.mpr ⟨fresh, bounded.distinct⟩, ?_⟩
  have split : (stack.push path).files.dropLast = path :: stack.files.dropLast :=
    List.dropLast_cons_of_ne_nil (List.cons_ne_nil _ _)
  rw [split]
  exact List.cons_subset.mpr ⟨loaded, bounded.loaded⟩

end Stack.Bounded

namespace Loader

variable {loader : Loader} {path : Path}

theorem load_some {template : Template} (found : loader.templates.lookup path = some template) :
    loader.load path = .ok template := by
  rw [load, found]

theorem load_none (missing : loader.templates.lookup path = none) : loader.load path = .error (loader.fault path) := by
  rw [load, missing]

theorem fault_of_load {fault : Fault} (failed : loader.load path = .error fault) : fault = loader.fault path := by
  cases found : loader.templates.lookup path with
  | none =>
    rw [load_none found] at failed
    exact (Except.error.inj failed).symm
  | some template =>
    rw [load_some found] at failed
    cases failed

theorem entry_of_load {template : Template} (loaded : loader.load path = .ok template) :
    (path, template) ∈ loader.templates := by
  cases found : loader.templates.lookup path with
  | none =>
    rw [load_none found] at loaded
    cases loaded
  | some other =>
    rw [load_some found] at loaded
    cases loaded
    exact entry_of_lookup found

theorem mem_of_load (loader : Loader) {path : Path} {template : Template} (loaded : loader.load path = .ok template) :
    path ∈ loader.templates.map Prod.fst :=
  List.mem_map_of_mem (f := Prod.fst) (entry_of_load loaded)

-- What two loaders say about a path.
inductive Same (alike : Fault → Fault → Prop) (first second : Loader) (path : Path) : Prop where
  | found {template : Template} : first.load path = .ok template → second.load path = .ok template →
    Same alike first second path
  | failed {fault other : Fault} : first.load path = .error fault → second.load path = .error other →
    alike fault other → Same alike first second path

theorem Same.refl (loader : Loader) (path : Path) : Same Eq loader loader path := by
  cases loaded : loader.load path with
  | ok template => exact .found loaded loaded
  | error fault => exact .failed loaded loaded rfl

-- The loader that has these files only.
def among (loader : Loader) (paths : List Path) : Loader where
  templates := paths.filterMap fun path => (loader.load path).toOption.map fun template => (path, template)
  fault := loader.fault

theorem load_of_mem_among {paths : List Path} {entry : Path × Template} (member : entry ∈ (loader.among paths).templates) :
    entry.1 ∈ paths ∧ loader.load entry.1 = .ok entry.2 := by
  obtain ⟨path, listed, found⟩ := List.mem_filterMap.mp member
  cases loaded : loader.load path with
  | error fault =>
    rw [loaded] at found
    cases found
  | ok template =>
    rw [loaded] at found
    cases found
    exact ⟨listed, loaded⟩

theorem lookup_among (loader : Loader) (path : Path) : ∀ paths : List Path,
    (loader.among paths).templates.lookup path = if path ∈ paths then (loader.load path).toOption else none
  | [] => rfl
  | first :: rest => by
    have later := lookup_among loader path rest
    cases loaded : loader.load first with
    | error fault =>
      have same : (loader.among (first :: rest)).templates = (loader.among rest).templates := by
        simp [among, loaded, Except.toOption]
      rw [same, later]
      by_cases at_first : path = first
      · simp [at_first, loaded, Except.toOption]
      · simp [at_first]
    | ok template =>
      have same : (loader.among (first :: rest)).templates = (first, template) :: (loader.among rest).templates := by
        simp [among, loaded, Except.toOption]
      rw [same, List.lookup_cons, later]
      by_cases at_first : path = first
      · simp [at_first, loaded, Except.toOption]
      · have apart : (path == first) = false := beq_eq_false_iff_ne.mpr at_first
        simp [at_first, apart]

theorem same_among {paths : List Path} (listed : path ∈ paths) : Same Eq loader (loader.among paths) path := by
  have found := loader.lookup_among path paths
  rw [if_pos listed] at found
  cases loaded : loader.load path with
  | ok template =>
    rw [loaded] at found
    exact .found loaded (load_some found)
  | error fault =>
    rw [loaded] at found
    exact .failed loaded ((load_none found).trans (congrArg _ (fault_of_load loaded).symm)) rfl

end Loader

section Others

variable {templates : List (Path × Template)} {path other : Path}

theorem lookup_others (apart : other ≠ path) :
    (templates.filter fun entry => entry.1 ≠ path).lookup other = templates.lookup other := by
  induction templates with
  | nil => rfl
  | cons entry rest ih =>
    obtain ⟨key, template⟩ := entry
    by_cases same : key = path
    · have differs : (other == key) = false := by simpa [same] using apart
      rw [List.filter_cons_of_neg (by simp [same]), ih, List.lookup_cons, differs]
    · rw [List.filter_cons_of_pos (by simp [same]), List.lookup_cons, List.lookup_cons, ih]

theorem length_others {template : Template} (found : templates.lookup path = some template) :
    (templates.filter fun entry => entry.1 ≠ path).length < templates.length :=
  List.length_filter_lt_length_iff_exists.mpr ⟨(path, template), entry_of_lookup found, by simp⟩

end Others

namespace Logged

variable {options : Options} {loader other : Loader} {bottom : Stencil.Compiler} {paths : List Path}
  {known : Path → Prop} {alike : Fault → Fault → Prop}

-- The templates at hand are those that the files around leave to be included, and the depth left is that of the paths
-- not among them. Each include takes one off both.
theorem tallies_unrolled (finite : ∀ path template, loader.load path = .ok template → path ∈ paths)
    (same : ∀ path, known path → Loader.Same alike loader other path) :
    ∀ (depth left : Nat) (templates : List (Path × Template)) (stack : Stack), templates.length ≤ left →
      (∀ path, path ∉ stack.files → templates.lookup path = loader.templates.lookup path) → stack.Bounded paths →
      paths.length + 1 < depth + stack.files.length → ∀ (place : Place) (sink : Nat) (trees : List Tree),
        Tallies ⟨known, alike, Stack.Bounded paths⟩ stack
          (nodes options loader.fault left templates place sink trees)
          (unrolled options other bottom depth place sink trees)
  | 0, _, _, stack, _, _, bounded, deep => by
    have := bounded.length_le
    omega
  | depth + 1, left, templates, stack, few, rest, bounded, deep => by
    -- A path that leads nowhere.
    have nowhere : ∀ {env : Env} {path : Path}, env.fault = loader.fault → env.reach path = none →
        templates.lookup path = none → path ∉ stack.files → known path →
        Finds ⟨known, alike, Stack.Bounded paths⟩ stack env ⟨options, other.fault, fun path =>
          (other.load path).toOption.map fun template => (template, unrolled options other bottom depth)⟩ path := by
      intro env path faults unreached missing fresh asked
      have fails := Loader.load_none ((rest path fresh).symm.trans missing)
      cases same path asked with
      | found loads _ =>
        rw [fails] at loads
        cases loads
      | failed loads loads' alikes =>
        refine .nowhere unreached (by simp only [loads']; rfl) ?_
        show alike (env.fault path) (other.fault path)
        rw [faults, ← Loader.fault_of_load loads, ← Loader.fault_of_load loads']
        exact alikes
    cases left with
    | zero =>
      refine tallies_contentTrees bounded ⟨rfl, fun path fresh asked => nowhere rfl rfl ?_ fresh asked⟩
      rw [List.eq_nil_of_length_eq_zero (Nat.le_zero.mp few)]
      rfl
    | succ left =>
      refine tallies_contentTrees bounded ⟨rfl, fun path fresh asked => ?_⟩
      cases found : templates.lookup path with
      | none => exact nowhere rfl (by simp only [found]; rfl) found fresh asked
      | some template =>
        have loads := Loader.load_some ((rest path fresh).symm.trans found)
        cases same path asked with
        | failed fails _ _ =>
          rw [loads] at fails
          cases fails
        | found loaded loaded' =>
          cases loads.symm.trans loaded
          have inner := bounded.push fresh (finite path template loads)
          refine .found (by simp only [found]; rfl) (by simp only [loaded']; rfl) inner ?_
          refine tallies_unrolled finite same depth left _ (stack.push path) ?_ ?_ inner ?_
          · have := length_others found
            omega
          · intro next outside
            have apart : next ≠ path := fun same => outside (same ▸ List.mem_cons_self)
            rw [lookup_others apart]
            exact rest next fun member => outside (List.mem_cons_of_mem _ member)
          · have : (stack.push path).files.length = stack.files.length + 1 := rfl
            omega

end Logged

-- The files around when something happens.
def Event.nestings : Event → List Stack
  | .visited visit before => visit.nestings before
  | _ => []

def Event.asks : Event → List Path
  | .visited visit before => (visit.asks? before.stack).toList
  | _ => []

namespace Template

variable (template : Template) (options : Options) (loader : Loader) (shared : Names)

-- The files around in all states that the walk goes through: they change only with an include.
def nestings : List Stack :=
  (template.opened options shared).stack :: (template.chronicle options loader shared).flatMap Event.nestings

-- All paths that the loader is asked for.
def asked : List Path := (template.chronicle options loader shared).flatMap Event.asks

theorem opened_bounded (paths : List Path) : (template.opened options shared).stack.Bounded paths :=
  ⟨List.nodup_cons.mpr ⟨List.not_mem_nil, .nil⟩, List.nil_subset _⟩

-- From the page on, the walk with the templates at hand is the unrolled one of any loader that says the same about all
-- paths asked for.
theorem tally_unrolled {other : Loader} {paths : List Path} {depth : Nat} {alike : Fault → Fault → Prop} (bottom : Compiler)
    (finite : ∀ path template, loader.load path = .ok template → path ∈ paths) (deep : paths.length < depth)
    (same : ∀ path ∈ template.asked options loader shared, Loader.Same alike loader other path) :
    Logged.Tally ⟨(· ∈ template.asked options loader shared), alike, Stack.Bounded paths⟩ (template.logged options loader)
      (Logged.unrolled options other bottom depth .outermost Output.rootSink (Tree.placeAll 0 0 template.nodes))
      (template.opened options shared) := by
  refine Logged.tallies_unrolled finite same depth _ _ _ (Nat.le_refl _) (fun _ _ => rfl) ?_ ?_ _ _ _ _ rfl ?_
  · exact opened_bounded template options shared paths
  · exact Nat.succ_lt_succ deep
  · intro visit before path member asks
    refine List.mem_flatMap.mpr ⟨.visited visit before, List.mem_cons_of_mem _ member, ?_⟩
    exact Option.mem_toList.mpr asks

theorem walk_unrolled {paths : List Path} (finite : ∀ path found, loader.load path = .ok found → path ∈ paths)
    (bottom : Compiler) {depth : Nat} (deep : paths.length < depth) :
    (Walk.unrolled options loader bottom depth .outermost Output.rootSink (Tree.placeAll 0 0 template.nodes)).run.run
      (template.opened options shared) = template.walk options loader shared := by
  obtain ⟨outcome, session, _, _⟩ :=
    template.tally_unrolled options loader shared bottom finite deep fun path _ => .refl loader path
  rw [Logged.walk_unrolled, walk_logged] at outcome session
  exact Prod.ext outcome.eq session

-- A compilation depends on its loader for the paths asked for only.
theorem compile_of_same {other : Loader} {alike : Fault → Fault → Prop}
    (same : ∀ path ∈ template.asked options loader shared, Loader.Same alike loader other path) :
    SameOutcome alike (template.compile options loader shared).1 (template.compile options other shared).1 ∧
      (template.compile options other shared).2 = (template.compile options loader shared).2 := by
  let paths := loader.templates.map Prod.fst ++ other.templates.map Prod.fst
  obtain ⟨outcome, session, _, _⟩ := template.tally_unrolled options loader shared (fun _ _ _ => pure .empty)
    (fun _ _ loaded => List.mem_append_left _ (loader.mem_of_load loaded)) (Nat.lt_succ_self paths.length) same
  rw [Logged.walk_unrolled, walk_logged, template.walk_unrolled options other shared
    (fun _ _ loaded => List.mem_append_right _ (other.mem_of_load loaded)) _ (Nat.lt_succ_self paths.length)]
    at outcome session
  unfold compile
  simp only [session]
  exact ⟨outcome.map _, trivial⟩

theorem finished_of_same {other : Loader} {alike : Fault → Fault → Prop}
    (same : ∀ path ∈ template.asked options loader shared, Loader.Same alike loader other path) :
    (template.chronicle options other shared).filterMap Event.finished? =
      (template.chronicle options loader shared).filterMap Event.finished? := by
  let paths := loader.templates.map Prod.fst ++ other.templates.map Prod.fst
  have here := template.tally_unrolled options loader shared (fun _ _ _ => pure .empty)
    (fun _ _ loaded => List.mem_append_left _ (loader.mem_of_load loaded)) (Nat.lt_succ_self paths.length) same
  have there := template.tally_unrolled options other shared (fun _ _ _ => pure .empty)
    (fun _ _ loaded => List.mem_append_right _ (other.mem_of_load loaded)) (Nat.lt_succ_self paths.length)
    fun path _ => .refl other path
  exact there.finished.symm.trans here.finished

-- If the loader can load these paths only, the walk that loads a file for each include ends at a depth of one more than
-- their number, whatever is beyond, and it is the walk of the template. In all its states the files around differ and are
-- one more than the paths at most, and an include that leads to one of them is refused without the loader.
theorem includes_end (paths : List Path) (finite : ∀ path found, loader.load path = .ok found → path ∈ paths) :
    (∀ (bottom : Compiler) (depth : Nat), paths.length < depth →
      (Walk.unrolled options loader bottom depth .outermost Output.rootSink (Tree.placeAll 0 0 template.nodes)).run.run
        (template.opened options shared) = template.walk options loader shared) ∧
    (∀ stack ∈ template.nestings options loader shared,
      stack.files.Nodup ∧ stack.files.length ≤ paths.length + 1) ∧
    (∀ (env : Env) (place : Place) (sink : Nat) (id : NodeId) (identity : Nat) (tag : Tag) (location : Location)
      (children : List Tree) (part : Part) (source : String) (s : Session),
      TagKind.ofName? tag.name = some .including → Attr.param? tag.attrs "from" = some part → part.fixed? = some source →
      Walk.includePath s.file source ∈ s.stack.files →
      (Walk.contentTree env place sink (.node id ⟨identity, .tag tag, location⟩ children)).run.run s =
        (.error ⟨.includeCycle (Walk.includePath s.file source).text, s.file.text, location⟩, s)) := by
  refine ⟨?_, ?_, ?_⟩
  · exact fun bottom depth deep => template.walk_unrolled options loader shared finite bottom deep
  · intro stack listed
    have bounded : stack.Bounded paths := by
      rcases List.mem_cons.mp listed with rfl | listed
      · exact opened_bounded template options shared paths
      · obtain ⟨event, happened, listed⟩ := List.mem_flatMap.mp listed
        cases event with
        | visited visit before =>
          have tally := template.tally_unrolled options loader shared (fun _ _ _ => pure .empty) finite
            (Nat.lt_succ_self _) fun path _ => .refl loader path
          rcases List.mem_cons.mp happened with imported | happened
          · cases imported
          · exact tally.visits visit before happened stack listed
        | _ => cases listed
    exact ⟨bounded.distinct, bounded.length_le⟩
  · exact fun _ _ _ _ _ _ _ _ _ _ _ kind given fixed cyclic => Walk.contentTree_cycle kind given fixed cyclic

-- Two parts that take in each other.
def mutualIncludes : Loader where
  templates :=
    [(Path.ofText "parts/left.json",
      ⟨[.tag 1 ⟨"include", [⟨.literal "from", some (.literal "right.json"), .zero⟩], true⟩ [] .zero]⟩),
    (Path.ofText "parts/right.json",
      ⟨[.tag 1 ⟨"include", [⟨.literal "from", some (.literal "left.json"), .zero⟩], true⟩ [] .zero]⟩)]
  fault path := .unreadable path.text

def mutualPage : Template :=
  ⟨[.tag 1 ⟨"div", [], false⟩
    [.tag 2 ⟨"include", [⟨.literal "from", some (.literal "parts/left.json"), .zero⟩], true⟩ [] .zero] .zero]⟩

theorem includes_end_mutualIncludes :
    (mutualPage.compile .standard mutualIncludes []).1.mapError CompileError.cause = .error (.includeCycle "parts/left.json") ∧
    (∀ (bottom : Compiler) (depth : Nat), 2 < depth →
      (Walk.unrolled .standard mutualIncludes bottom depth .outermost Output.rootSink (Tree.placeAll 0 0 mutualPage.nodes)).run.run
        (mutualPage.opened .standard []) = mutualPage.walk .standard mutualIncludes []) ∧
    ∀ stack ∈ mutualPage.nestings .standard mutualIncludes [], stack.files.Nodup ∧ stack.files.length ≤ 3 := by
  have ends := mutualPage.includes_end .standard mutualIncludes []
    (mutualIncludes.templates.map Prod.fst) fun _ _ => mutualIncludes.mem_of_load
  exact ⟨by decide +kernel, ends.1, ends.2.1⟩

end Template

end Stencil
