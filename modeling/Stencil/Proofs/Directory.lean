import Mathlib.Data.List.Sort
import Stencil.Proofs.ByteOrder
import Stencil.Proofs.Files
import Stencil.Proofs.Interference

-- Compiling a directory. The files that are found come in the order of their paths, each is compiled as if it were alone,
-- with the shared names that the files before it have left, and what else stands on the disk does not matter to it.

namespace Stencil

namespace Disk

theorem extension?_eq_json {name : String} :
    extension? name = some "json" ↔ ∃ stem : String, stem ≠ "" ∧ name = stem ++ ".json" := by
  constructor
  · intro known
    unfold extension? at known
    simp only at known
    split at known
    · cases known
    · next filled =>
      -- Behind the extension, in reverse, there is a point and then something.
      have called : name.toList.reverse.takeWhile (fun c => decide (c ≠ '.')) = ['n', 'o', 's', 'j'] := by
        have called := congrArg String.toList (Option.some.inj known)
        rw [String.toList_ofList] at called
        simpa using congrArg List.reverse called
      have split := List.takeWhile_append_dropWhile (p := fun c => decide (c ≠ '.')) (l := name.toList.reverse)
      have point := List.head?_dropWhile_not (fun c => decide (c ≠ '.')) name.toList.reverse
      rw [called] at split
      cases behind : name.toList.reverse.dropWhile fun c => decide (c ≠ '.') with
      | nil =>
        rw [behind] at filled
        simp at filled
      | cons c stem =>
        rw [behind] at filled split point
        have point : c = '.' := by simpa using point
        subst point
        refine ⟨String.ofList stem.reverse, ?_, ?_⟩
        · intro none
          rw [String.ofList_eq_empty_iff, List.reverse_eq_nil_iff] at none
          simp [none] at filled
        · apply String.toList_inj.mp
          rw [← List.reverse_inj, ← split]
          simp
  · rintro ⟨stem, filled, rfl⟩
    have text : (stem ++ ".json").toList.reverse = 'n' :: 'o' :: 's' :: 'j' :: '.' :: stem.toList.reverse := by
      rw [String.toList_append, List.reverse_append]
      rfl
    have proper : stem ++ ".json" ≠ ".." := fun same => by
      have last := congrArg (fun name => name.toList.reverse) same
      rw [text] at last
      cases last
    have before : stem.toList.reverse.isEmpty = false := by simp [filled]
    unfold extension?
    rw [text]
    show (if decide (stem ++ ".json" = "..") || stem.toList.reverse.isEmpty then none else
      some (String.ofList ['j', 's', 'o', 'n'])) = some "json"
    rw [before, decide_eq_false proper]
    rfl

-- The order of the texts of paths.
def Earlier (first second : String) : Prop := (Path.ofText first).Before (Path.ofText second)

instance : Std.Irrefl Earlier := ⟨fun _ before => Path.Before.asymm before before⟩

instance : Std.Antisymm Earlier := ⟨fun _ _ before after => absurd after (Path.Before.asymm before)⟩

-- The last name is that of a template.
def Called (names : List String) : Prop :=
  ∃ (front : List String) (stem : String), stem ≠ "" ∧ names = front ++ [stem ++ ".json"]

-- A template that is found, and its place: the path itself, or a file below it.
inductive Finds (disk : Disk) (dir : String) : (source : String) → (place : List String) → Prop where
  | here {names : List String} {bytes : ByteArray} : Called names → namesDirectory dir = false →
    disk.resolve (.ofText dir) = .ok (.below names) → disk.file? names = some bytes → Finds disk dir dir names
  | below {base names : List String} {bytes : ByteArray} : Called names → disk.resolve (.ofText dir) = .ok (.below base) →
    disk.file? (base ++ names) = some bytes → Finds disk dir (below dir names) (base ++ names)

theorem Called.ne_nil {names : List String} (called : Called names) : names ≠ [] := by
  obtain ⟨front, stem, _, rfl⟩ := called
  simp

theorem isTemplateFile_iff {names : List String} : isTemplateFile names = true ↔ Called names := by
  unfold isTemplateFile
  constructor
  · intro called
    cases last : names.getLast? with
    | none =>
      rw [last] at called
      cases called
    | some name =>
      rw [last] at called
      obtain ⟨stem, filled, rfl⟩ := extension?_eq_json.mp (of_decide_eq_true called)
      obtain ⟨front, rfl⟩ := List.getLast?_eq_some_iff.mp last
      exact ⟨front, stem, filled, rfl⟩
  · rintro ⟨front, stem, filled, rfl⟩
    simp [extension?_eq_json.mpr ⟨stem, filled, rfl⟩]

section Order

theorem precedes_iff {a b : List String} : precedes a b = true ↔ ¬b < a := by
  simp [precedes]

theorem precedes_trans {a b c : List String} (first : precedes a b = true) (second : precedes b c = true) :
    precedes a c = true := by
  apply precedes_iff.mpr
  exact List.le_trans (precedes_iff.mp first) (precedes_iff.mp second)

theorem precedes_total (a b : List String) : (precedes a b || precedes b a) = true := by
  rw [Bool.or_eq_true, precedes_iff, precedes_iff]
  exact List.le_total a b

theorem pairwise_mergeSort_precedes {files : List (List String)} (distinct : files.Nodup) :
    (files.mergeSort precedes).Pairwise (· < ·) := by
  have sorted : (files.mergeSort precedes).Pairwise fun a b => precedes a b = true :=
    @List.pairwise_mergeSort _ precedes (fun _ _ _ => precedes_trans) precedes_total files
  have apart : (files.mergeSort precedes).Nodup := (List.mergeSort_perm files precedes).nodup_iff.mpr distinct
  refine (sorted.and apart).imp fun {a b} ⟨first, differ⟩ => ?_
  exact Decidable.byContradiction fun after => differ (List.le_antisymm (precedes_iff.mp first) after)

end Order

variable {disk : Disk} {dir : String}

theorem mem_filesBelow (sound : disk.Sound) {base names : List String} :
    names ∈ disk.filesBelow base ↔ ∃ bytes, disk.file? (base ++ names) = some bytes := by
  unfold filesBelow
  rw [List.mem_filterMap]
  constructor
  · rintro ⟨⟨place, entry⟩, member, given⟩
    cases entry with
    | directory => cases given
    | file bytes =>
      simp only at given
      split at given
      · next above =>
        obtain ⟨rest, rfl⟩ := List.isPrefixOf_iff_prefix.mp above
        rw [List.drop_left] at given
        cases given
        exact ⟨bytes, file?_of_mem sound member⟩
      · cases given
  · rintro ⟨bytes, found⟩
    exact ⟨_, mem_of_file? found, by simp⟩

theorem nodup_filesBelow (sound : disk.Sound) (base : List String) : (disk.filesBelow base).Nodup := by
  have distinct : disk.entries.Pairwise fun first second => first.1 ≠ second.1 := List.pairwise_map.mp sound.distinct
  refine List.pairwise_filterMap.mpr (distinct.imp ?_)
  rintro ⟨first, entry⟩ ⟨second, entry'⟩ differ names given names' given' rfl
  cases entry with
  | directory => cases given
  | file bytes =>
    cases entry' with
    | directory => cases given'
    | file bytes' =>
      simp only [Option.ite_none_right_eq_some, List.isPrefixOf_iff_prefix] at given given'
      obtain ⟨⟨rest, rfl⟩, same⟩ := given
      obtain ⟨⟨rest', rfl⟩, same'⟩ := given'
      rw [List.drop_left] at same same'
      cases same
      cases same'
      exact differ rfl

theorem resolve_empty : disk.resolve (.ofText "") = .error .missing := rfl

theorem dir_filled {spot : Spot} (leads : disk.resolve (.ofText dir) = .ok spot) : dir ≠ "" := by
  rintro rfl
  rw [resolve_empty] at leads
  cases leads

theorem valid_of_file? (sound : disk.Sound) {base names : List String} {bytes : ByteArray}
    (found : disk.file? (base ++ names) = some bytes) : ∀ name ∈ names, ValidName name := fun name member =>
  sound.valid _ (mem_of_file? found) name (List.mem_append_right _ member)

-- In the order of the paths.
theorem pairwise_candidates (sound : disk.Sound) (dir : String) :
    (disk.candidates dir).Pairwise Earlier := by
  unfold candidates
  split
  · exact .nil
  · exact .nil
  · next base leads =>
    split
    · split
      · exact List.pairwise_singleton _ _
      · exact .nil
    · have distinct : ((disk.filesBelow base).filter isTemplateFile).Nodup := (nodup_filesBelow sound base).filter _
      refine List.pairwise_map.mpr ((pairwise_mergeSort_precedes distinct).imp_of_mem ?_)
      intro first second member member' less
      have of_member {names : List String} (member : names ∈ ((disk.filesBelow base).filter isTemplateFile).mergeSort precedes) :
          Path.ofText (below dir names) = ⟨(Path.ofText dir).absolute, (Path.ofText dir).parts ++ names.map .name⟩ := by
        obtain ⟨listed, -⟩ := List.mem_filter.mp (List.mem_mergeSort.mp member)
        obtain ⟨bytes, found⟩ := (mem_filesBelow sound).mp listed
        exact Path.ofText_below (dir_filled leads) (valid_of_file? sound found)
      rw [Earlier, of_member member, of_member member']
      exact Path.before_names _ _ less

theorem candidates_file {names : List String} {bytes : ByteArray} (leads : disk.resolve (.ofText dir) = .ok (.below names))
    (found : disk.entry? names = some (.file bytes)) :
    disk.candidates dir = if isTemplateFile names && !namesDirectory dir then [dir] else [] := by
  unfold candidates
  rw [leads]
  simp only [found]

theorem candidates_directory {base : List String} (leads : disk.resolve (.ofText dir) = .ok (.below base))
    (other : ∀ bytes, disk.entry? base ≠ some (.file bytes)) : disk.candidates dir =
      (((disk.filesBelow base).filter isTemplateFile).mergeSort precedes).map (below dir) := by
  unfold candidates
  rw [leads]
  cases found : disk.entry? base with
  | none => simp only [found]
  | some entry =>
    cases entry with
    | directory => simp only [found]
    | file bytes => exact absurd found (other bytes)

theorem mem_candidates (sound : disk.Sound) {source : String} :
    source ∈ disk.candidates dir ↔ ∃ place, disk.Finds dir source place := by
  constructor
  · intro member
    cases leads : disk.resolve (.ofText dir) with
    | error e =>
      unfold candidates at member
      rw [leads] at member
      cases member
    | ok spot =>
      cases spot with
      | above =>
        unfold candidates at member
        rw [leads] at member
        cases member
      | below base =>
        by_cases file : ∃ bytes, disk.entry? base = some (.file bytes)
        · obtain ⟨bytes, found⟩ := file
          rw [candidates_file leads found] at member
          split at member
          · next called =>
            rw [Bool.and_eq_true] at called
            rw [List.mem_singleton.mp member]
            exact ⟨_, .here (isTemplateFile_iff.mp called.1) (by simpa using called.2) leads (entry?_eq_file.mp found)⟩
          · cases member
        · rw [candidates_directory leads fun bytes found => file ⟨bytes, found⟩] at member
          obtain ⟨names, listed, rfl⟩ := List.mem_map.mp member
          obtain ⟨listed, called⟩ := List.mem_filter.mp (List.mem_mergeSort.mp listed)
          obtain ⟨bytes, found⟩ := (mem_filesBelow sound).mp listed
          exact ⟨_, .below (isTemplateFile_iff.mp called) leads found⟩
  · rintro ⟨_, ⟨called, named, leads, found⟩ | @⟨base, names, bytes, called, leads, found⟩⟩
    · rw [candidates_file leads (entry?_eq_file.mpr found)]
      simp [isTemplateFile_iff.mpr called, named]
    · -- What has a file below it is a directory.
      obtain ⟨name, rest, split⟩ := List.exists_cons_of_ne_nil called.ne_nil
      have directory : disk.entry? base = some .directory := sound.entry?_above (split ▸ found)
      rw [candidates_directory leads fun bytes file => nomatch directory.symm.trans file]
      refine List.mem_map_of_mem (List.mem_mergeSort.mpr (List.mem_filter.mpr ⟨?_, isTemplateFile_iff.mpr called⟩))
      exact (mem_filesBelow sound).mpr ⟨bytes, found⟩

theorem mem_templateFiles (sound : disk.Sound) {source : String} :
    source ∈ disk.templateFiles dir ↔ textFault? source = none ∧ ∃ place, disk.Finds dir source place := by
  unfold templateFiles
  rw [List.mem_filter, mem_candidates sound, and_comm, Option.isNone_iff_eq_none]

theorem pairwise_templateFiles (sound : disk.Sound) (dir : String) :
    (disk.templateFiles dir).Pairwise Earlier :=
  (pairwise_candidates sound dir).filter _

section Reordered

variable {other : Disk} (sound : disk.Sound) (reordered : other.entries.Perm disk.entries)
include sound reordered

theorem Sound.of_perm : other.Sound where
  distinct := (reordered.map Prod.fst).nodup_iff.mpr sound.distinct
  valid entry member := sound.valid entry (reordered.mem_iff.mp member)
  apart names bytes member entry member' :=
    sound.apart names bytes (reordered.mem_iff.mp member) entry (reordered.mem_iff.mp member')

theorem finds_reordered {source : String} {place : List String} (finds : disk.Finds dir source place) :
    other.Finds dir source place := by
  have files (names : List String) : other.file? names = disk.file? names := by
    rw [file?, lookup?_reordered sound.distinct reordered, file?]
  cases finds with
  | here called named leads found =>
    exact .here called named ((resolve_reordered sound.distinct reordered _).trans leads) ((files _).trans found)
  | below called leads found =>
    exact .below called ((resolve_reordered sound.distinct reordered _).trans leads) ((files _).trans found)

theorem templateFiles_reordered : other.templateFiles dir = disk.templateFiles dir := by
  have sound' := sound.of_perm reordered
  refine (pairwise_templateFiles sound' dir).eq_of_mem_iff (pairwise_templateFiles sound dir) fun source => ?_
  rw [mem_templateFiles sound', mem_templateFiles sound]
  refine and_congr_right fun _ => exists_congr fun place => ?_
  exact ⟨finds_reordered sound' reordered.symm, finds_reordered sound reordered⟩

theorem compileFile_reordered (source : String) (options : Options) (shared : Names) :
    other.compileFile source options shared = disk.compileFile source options shared := by
  have loads := load_reordered sound.distinct reordered
  unfold compileFile
  rw [loads]
  cases disk.load (.ofText source) with
  | error fault => rfl
  | ok template =>
    have same (path : Path) (normal : path.Normal) : Loader.Same Eq disk.loader other.loader path := by
      cases loaded : disk.load path with
      | ok found =>
        exact .found ((load_loader normal).trans loaded) ((load_loader normal).trans ((loads path).trans loaded))
      | error fault =>
        exact .failed ((load_loader normal).trans loaded) ((load_loader normal).trans ((loads path).trans loaded)) rfl
    obtain ⟨outcome, names⟩ := template.compile_of_same { options with filePath := source } disk.loader shared
      fun path asked => same path (Template.normal_of_asked asked)
    exact Prod.ext outcome.eq names

theorem compileFiles_reordered (options : Options) (files : List String) (shared : Names) :
    other.compileFiles options files shared = disk.compileFiles options files shared := by
  induction files generalizing shared with
  | nil => rfl
  | cons source rest ih => simp only [compileFiles, compileFile_reordered sound reordered, ih]

end Reordered

theorem compileFiles_cons (options : Options) (shared : Names) (source : String) (rest : List String) :
    disk.compileFiles options (source :: rest) shared =
      (⟨source, (disk.compileFile source options shared).1⟩ ::
          (disk.compileFiles options rest (disk.compileFile source options shared).2).1,
        (disk.compileFiles options rest (disk.compileFile source options shared).2).2) := by
  rw [compileFiles]

theorem map_source_compileFiles (options : Options) (shared : Names) (files : List String) :
    (disk.compileFiles options files shared).1.map CompiledFile.source = files := by
  induction files generalizing shared with
  | nil => rfl
  | cons source rest ih => rw [compileFiles_cons, List.map_cons, ih]

theorem compileFiles_append (options : Options) (shared : Names) (before after : List String) :
    disk.compileFiles options (before ++ after) shared =
      ((disk.compileFiles options before shared).1 ++
          (disk.compileFiles options after (disk.compileFiles options before shared).2).1,
        (disk.compileFiles options after (disk.compileFiles options before shared).2).2) := by
  induction before generalizing shared with
  | nil => rfl
  | cons source rest ih => rw [List.cons_append, compileFiles_cons, ih, compileFiles_cons, List.cons_append]

-- The names that the imports in a file register, if the file can be loaded at all.
def imports (disk : Disk) (source : String) (options : Options) (known : Names) : List String :=
  match disk.load (.ofText source) with
  | .ok template => Event.imports (template.chronicle { options with filePath := source } disk.loader known)
  | .error _ => []

-- The paths that the includes in a file and in the files that it includes ask for.
def asked (disk : Disk) (source : String) (options : Options) (known : Names) : List Path :=
  match disk.load (.ofText source) with
  | .ok template => template.asked { options with filePath := source } disk.loader known
  | .error _ => []

section Alone

variable {source : String} {options : Options}

theorem compileFile_session (session : options.registryScope = .session) (known names : Names) :
    (disk.compileFile source options known).2 = known ∧
      (disk.compileFile source options names).1 = (disk.compileFile source options known).1 := by
  unfold compileFile
  cases disk.load (.ofText source) with
  | error fault => exact ⟨rfl, rfl⟩
  | ok template =>
    let call : Call := ⟨template, { options with filePath := source }, disk.loader⟩
    exact @Call.run_session call session known names

theorem compileFile_process (process : options.registryScope = .process) (known : Names) :
    (∀ name, name ∈ (disk.compileFile source options known).2 ↔ name ∈ known ∨ name ∈ disk.imports source options known) ∧
      ∀ names, (∀ name, name ∈ names ↔ name ∈ known) →
        (disk.compileFile source options names).1 = (disk.compileFile source options known).1 := by
  unfold compileFile imports
  cases disk.load (.ofText source) with
  | error fault => simp
  | ok template =>
    let call : Call := ⟨template, { options with filePath := source }, disk.loader⟩
    constructor
    · intro name
      rw [Event.mem_imports]
      exact ((@Call.Agree.refl call known).run_process process).2 name
    · intro names same
      have all (nodes : List Node) : Node.AllOnly (fun tag => tag.name ∈ known ↔ tag.name ∈ names) nodes :=
        Node.allOnly_of_all (fun tag => (same tag.name).symm) nodes
      have agree : call.Agree known names := ⟨all _, fun _ _ => all _⟩
      exact (agree.run_process process).1

theorem mem_known (process : options.registryScope = .process) (files : List String) (shared : Names) (name : String) :
    name ∈ (disk.compileFiles options files shared).2 ↔ name ∈ shared ∨ ∃ front file back, files = front ++ file :: back ∧
      name ∈ disk.imports file options (disk.compileFiles options front shared).2 := by
  induction files generalizing shared with
  | nil => simp [compileFiles]
  | cons source rest ih =>
    rw [compileFiles_cons, ih, (compileFile_process process shared).1]
    constructor
    · rintro ((old | own) | ⟨front, file, back, rfl, imported⟩)
      · exact .inl old
      · exact .inr ⟨[], source, rest, rfl, own⟩
      · exact .inr ⟨source :: front, file, back, rfl, imported⟩
    · rintro (old | ⟨front, file, back, split, imported⟩)
      · exact .inl (.inl old)
      · cases front with
        | nil =>
          cases split
          exact .inl (.inr imported)
        | cons first front =>
          cases split
          exact .inr ⟨front, file, back, rfl, imported⟩

end Alone

-- Another disk has the same files where a compilation looks for them: at the path of the file itself, and wherever an
-- include leads.
structure Agrees (disk other : Disk) (source : String) (options : Options) (known : Names) : Prop where
  own : ∀ names, disk.resolve (.ofText source) = .ok (.below names) → other.file? names = disk.file? names
  included : ∀ names, pathOf names ∈ disk.asked source options known → other.file? names = disk.file? names

-- The path of a file that is found leads to it.
theorem Finds.leads (sound : disk.Sound) {source : String} {place : List String} (finds : disk.Finds dir source place) :
    disk.resolve (.ofText source) = .ok (.below place) ∧ ∃ bytes, disk.file? place = some bytes := by
  cases finds with
  | here _ _ leads found => exact ⟨leads, _, found⟩
  | @below base names bytes called leads found =>
    refine ⟨?_, bytes, found⟩
    have valid := valid_of_file? sound found
    have goes := sound.walk_names base names found fun name member => (valid name member).short
    rw [Path.ofText_below (dir_filled leads) valid]
    unfold resolve at leads ⊢
    split at leads
    · cases leads
    · have filled : ((Path.ofText dir).parts ++ names.map PathPart.name).isEmpty = false := by
        cases names with
        | nil => exact absurd rfl called.ne_nil
        | cons _ _ => simp
      simp only [filled, Bool.false_and, Bool.false_eq_true, if_false, List.foldlM_append]
      rw [leads]
      exact goes

section Elsewhere

variable {other : Disk} {source : String} {place place' : List String} {options : Options} {known : Names}

theorem load_agrees (sound : disk.Sound) (sound' : other.Sound) (finds : disk.Finds dir source place)
    (finds' : other.Finds dir source place') (agrees : disk.Agrees other source options known) :
    other.load (.ofText source) = disk.load (.ofText source) := by
  obtain ⟨leads, bytes, found⟩ := finds.leads sound
  obtain ⟨leads', _⟩ := finds'.leads sound'
  have same : place' = place := by
    have first := (resolve_ok leads).1
    have second := (resolve_ok leads').1
    exact Spot.below.inj (second.trans first.symm)
  subst same
  have found' := (agrees.own _ leads).trans found
  have reads : other.read (.ofText source) = disk.read (.ofText source) := by
    cases usable : textFault? (Path.ofText source).text with
    | none => rw [read_of_file? usable leads found, read_of_file? usable leads' found']
    | some e => simp only [read, usable]
  rw [load, reads, load]

theorem compileFile_agrees (sound : disk.Sound) (sound' : other.Sound) (finds : disk.Finds dir source place)
    (finds' : other.Finds dir source place') (agrees : disk.Agrees other source options known) :
    SameOutcome Fault.Alike (disk.compileFile source options known).1 (other.compileFile source options known).1 ∧
      (other.compileFile source options known).2 = (disk.compileFile source options known).2 := by
  have included := agrees.included
  unfold compileFile
  unfold asked at included
  rw [load_agrees sound sound' finds finds' agrees]
  cases loaded : disk.load (.ofText source) with
  | error fault => exact ⟨.refl _, rfl⟩
  | ok template =>
    rw [loaded] at included
    refine template.compile_of_same { options with filePath := source } disk.loader known fun path asks => ?_
    refine sound.same_loader sound' (Template.normal_of_asked asks) fun names is => ?_
    subst is
    exact included names asks

-- Files one after the other, as long as the disks agree.
theorem known_agrees (sound : disk.Sound) (sound' : other.Sound) {shared : Names} {files : List String}
    (found : ∀ file ∈ files, (∃ place, disk.Finds dir file place) ∧ ∃ place, other.Finds dir file place)
    (agrees : ∀ front file back, files = front ++ file :: back →
      disk.Agrees other file options (disk.compileFiles options front shared).2) :
    (other.compileFiles options files shared).2 = (disk.compileFiles options files shared).2 := by
  induction files generalizing shared with
  | nil => rfl
  | cons source rest ih =>
    obtain ⟨⟨_, finds⟩, _, finds'⟩ := found source List.mem_cons_self
    have same := (compileFile_agrees sound sound' finds finds' (agrees [] source rest rfl)).2
    have first : (disk.compileFiles options [] shared).2 = shared := rfl
    rw [first] at same
    rw [compileFiles_cons, compileFiles_cons, same]
    refine ih (fun file member => found file (List.mem_cons_of_mem _ member)) fun front file back split => ?_
    exact agrees (source :: front) file back (congrArg _ split)

end Elsewhere

-- Files up to one of them, in two lists in order that have the same files up to there.
theorem front_agrees {files files' before after : List String} {source : String} (ordered : files.Pairwise Earlier)
    (ordered' : files'.Pairwise Earlier) (split : files = before ++ source :: after)
    (same : ∀ file, ¬ Earlier source file → (file ∈ files' ↔ file ∈ files)) :
    ∃ after', files' = before ++ source :: after' := by
  subst split
  have here : source ∈ files' := (same source (Std.Irrefl.irrefl source)).mpr (by simp)
  obtain ⟨before', after', rfl⟩ := List.append_of_mem here
  obtain ⟨front, behind, across⟩ := List.pairwise_append.mp ordered
  obtain ⟨front', behind', across'⟩ := List.pairwise_append.mp ordered'
  -- What comes before the file in one list, does in the other.
  have equal : before' = before := by
    refine front'.eq_of_mem_iff front fun file => ⟨fun member => ?_, fun member => ?_⟩
    · have earlier := across' file member source List.mem_cons_self
      have listed := (same file (Path.Before.asymm earlier)).mp (List.mem_append_left _ member)
      rcases List.mem_append.mp listed with early | late
      · exact early
      · rcases List.mem_cons.mp late with rfl | late
        · exact absurd earlier (Std.Irrefl.irrefl _)
        · exact absurd (List.rel_of_pairwise_cons behind late) (Path.Before.asymm earlier)
    · have earlier := across file member source List.mem_cons_self
      have listed := (same file (Path.Before.asymm earlier)).mpr (List.mem_append_left _ member)
      rcases List.mem_append.mp listed with early | late
      · exact early
      · rcases List.mem_cons.mp late with rfl | late
        · exact absurd earlier (Std.Irrefl.irrefl _)
        · exact absurd (List.rel_of_pairwise_cons behind' late) (Path.Before.asymm earlier)
  exact ⟨after', by rw [equal]⟩

theorem getElem?_compileDirectory {options : Options} {shared : Names} {before after : List String} {source : String}
    (split : disk.templateFiles dir = before ++ source :: after) :
    (disk.compileDirectory dir options shared).1[before.length]? =
      some ⟨source, (disk.compileFile source options (disk.compileFiles options before shared).2).1⟩ := by
  have length : (disk.compileFiles options before shared).1.length = before.length := by
    rw [← List.length_map CompiledFile.source, map_source_compileFiles]
  rw [compileDirectory, split, compileFiles_append, List.getElem?_append_right (Nat.le_of_eq length), length,
    Nat.sub_self]
  rfl

section Entry

variable {other : Disk} {options : Options} {shared known : Names} {source : String}

-- On another disk that agrees, a file has an entry with the same outcome wherever it is listed, if names are not shared.
theorem entry_of_session (sound : disk.Sound) (sound' : other.Sound) (session : options.registryScope = .session)
    (here : source ∈ disk.templateFiles dir) (there : source ∈ other.templateFiles dir)
    (agrees : disk.Agrees other source options known) :
    ∃ entry ∈ (other.compileDirectory dir options shared).1, entry.source = source ∧
      SameOutcome Fault.Alike (disk.compileFile source options known).1 entry.output := by
  obtain ⟨_, _, finds⟩ := (mem_templateFiles sound).mp here
  obtain ⟨_, _, finds'⟩ := (mem_templateFiles sound').mp there
  obtain ⟨before, after, split⟩ := List.append_of_mem there
  have listed := List.mem_of_getElem? (@getElem?_compileDirectory other dir options shared _ _ _ split)
  refine ⟨_, listed, rfl, ?_⟩
  show SameOutcome Fault.Alike _ (other.compileFile source options (other.compileFiles options before shared).2).1
  rw [(@compileFile_session other source options session known _).2]
  exact (compileFile_agrees sound sound' finds finds' agrees).1

-- If the disks list the same files up to one and agree on all of them, its entry stands in the same place.
theorem entry_of_front (sound : disk.Sound) (sound' : other.Sound) {before after : List String}
    (split : disk.templateFiles dir = before ++ source :: after)
    (same : ∀ file, ¬ Earlier source file → (file ∈ other.templateFiles dir ↔ file ∈ disk.templateFiles dir))
    (agrees : ∀ front file back, before ++ [source] = front ++ file :: back →
      disk.Agrees other file options (disk.compileFiles options front shared).2) :
    ∃ output, (other.compileDirectory dir options shared).1[before.length]? = some ⟨source, output⟩ ∧
      SameOutcome Fault.Alike (disk.compileFile source options (disk.compileFiles options before shared).2).1 output := by
  obtain ⟨after', split'⟩ := front_agrees (pairwise_templateFiles sound dir) (pairwise_templateFiles sound' dir) split same
  have found (file : String) (member : file ∈ before ++ [source]) :
      (∃ place, disk.Finds dir file place) ∧ ∃ place, other.Finds dir file place := by
    have listed (tail : List String) : file ∈ before ++ source :: tail := by
      rcases List.mem_append.mp member with early | late
      · exact List.mem_append_left _ early
      · rw [List.mem_singleton.mp late]
        exact List.mem_append_right _ List.mem_cons_self
    constructor
    · exact ((mem_templateFiles sound).mp (split ▸ listed after)).2
    · exact ((mem_templateFiles sound').mp (split' ▸ listed after')).2
  have names : (other.compileFiles options before shared).2 = (disk.compileFiles options before shared).2 := by
    apply known_agrees sound sound' fun file member => found file (List.mem_append_left _ member)
    intro front file back split
    exact agrees front file (back ++ [source]) (by rw [split, List.append_assoc, List.cons_append])
  obtain ⟨⟨_, finds⟩, _, finds'⟩ := found source (by simp)
  refine ⟨_, getElem?_compileDirectory split', ?_⟩
  rw [names]
  exact (compileFile_agrees sound sound' finds finds' (agrees before source [] rfl)).1

end Entry

-- A template that takes in a file, alone and beside another one.
def includingEntry : DiskEntry :=
  .file ("\x7b\"nodes\":[\x7b\"type\":\"tag\",\"id\":1,\"name\":\"include\",\"attrs\":[\x7b\"name\":\x7b" ++
    "\"type\":\"string\",\"value\":\"from\"\x7d,\"value\":\x7b\"type\":\"string\",\"value\":\"b.json/c\"\x7d\x7d]\x7d]\x7d").toUTF8

def withoutNeighbour : Disk := ⟨[(["a.json"], includingEntry)]⟩

def withNeighbour : Disk := ⟨[(["a.json"], includingEntry), (["b.json"], .file "\x7b\"nodes\":[]\x7d".toUTF8)]⟩

theorem templateFiles_withoutNeighbour : withoutNeighbour.templateFiles "." = ["./a.json"] := by
  have leads : withoutNeighbour.resolve (.ofText ".") = .ok (.below []) := rfl
  rw [templateFiles, candidates_directory leads nofun, List.mergeSort_of_pairwise (by decide)]
  decide

theorem templateFiles_withNeighbour : withNeighbour.templateFiles "." = ["./a.json", "./b.json"] := by
  have leads : withNeighbour.resolve (.ofText ".") = .ok (.below []) := rfl
  rw [templateFiles, candidates_directory leads nofun, List.mergeSort_of_pairwise (by decide)]
  decide

theorem sound_withNeighbour : withNeighbour.Sound where
  distinct := by decide
  valid entry member name listed := by
    have named : ∀ name ∈ ["a.json", "b.json"], ValidName name := by
      intro name member
      rcases List.mem_cons.mp member with rfl | member
      · exact ⟨by decide, by decide, by decide, by decide⟩
      · rw [List.mem_singleton.mp member]
        exact ⟨by decide, by decide, by decide, by decide⟩
    rcases List.mem_cons.mp member with rfl | member
    · exact named name (List.mem_cons.mpr (.inl (List.mem_singleton.mp listed)))
    · cases List.mem_singleton.mp member
      exact named name (List.mem_cons_of_mem _ listed)
  apart names bytes member entry member' above := by
    have flat : ∀ entry ∈ withNeighbour.entries, entry.1.length = 1 := by simp [withNeighbour]
    have short : names.length = 1 := flat _ member
    exact (above.eq_of_length (short.trans (flat entry member').symm)).symm

end Disk

end Stencil
