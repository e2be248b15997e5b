import Stencil.Proofs.Resolution
import Stencil.Proofs.Unrolling
import Stencil.Batch

-- What a path leads to. A file is found by the names on its way, and what else stands on the disk matters only for the
-- reason why nothing is found.

namespace Stencil

namespace Path

theorem pieces_ne_nil : ∀ chars : List Char, pieces chars ≠ []
  | [] => by simp [pieces]
  | c :: rest => by
    unfold pieces
    split
    · simp
    · split <;> simp

theorem pieces_append_slash (back : List Char) : ∀ front : List Char,
    pieces (front ++ '/' :: back) = pieces front ++ pieces back
  | [] => by simp [pieces]
  | c :: rest => by
    rw [List.cons_append, pieces, pieces_append_slash back rest, pieces]
    by_cases slash : c = '/'
    · simp [slash]
    · rw [if_neg slash, if_neg slash]
      cases found : pieces rest with
      | nil => exact absurd found (pieces_ne_nil rest)
      | cons piece more => rfl

theorem pieces_of_plain {chars : List Char} (plain : '/' ∉ chars) : pieces chars = [chars] := by
  induction chars with
  | nil => rfl
  | cons c rest ih =>
    obtain ⟨apart, plain⟩ := not_or.mp (mt List.mem_cons.mpr plain)
    rw [pieces, if_neg (Ne.symm apart), ih plain]

end Path

-- A name that a file can have.
structure ValidName (name : String) : Prop where
  filled : name ≠ ""
  plain : '/' ∉ name.toList
  proper : name ≠ "." ∧ name ≠ ".."
  short : name.utf8ByteSize ≤ Disk.nameLimit

-- A part that can be read back from its text. A name is not empty, has no slash and does not look like a step.
def PathPart.Spelt : PathPart → Prop
  | .name text => text ≠ "" ∧ '/' ∉ text.toList ∧ text ≠ "." ∧ text ≠ ".."
  | _ => True

theorem ValidName.spelt {name : String} (valid : ValidName name) : (PathPart.name name).Spelt :=
  ⟨valid.filled, valid.plain, valid.proper⟩

namespace Path

section Spelt

variable {part : PathPart} (spelt : part.Spelt)
include spelt

theorem partText_ne_empty : partText part ≠ "" := by
  cases part with
  | name text => exact spelt.1
  | _ => decide

theorem slash_not_mem_partText : '/' ∉ (partText part).toList := by
  cases part with
  | name text => exact spelt.2.1
  | _ => decide

theorem partOf_partText : partOf (partText part).toList = part := by
  cases part with
  | name text =>
    have current : text.toList ≠ ['.'] := fun same => spelt.2.2.1 (String.toList_inj.mp same)
    have up : text.toList ≠ ['.', '.'] := fun same => spelt.2.2.2 (String.toList_inj.mp same)
    rw [partText, partOf, if_neg current, if_neg up, String.ofList_toList]
  | _ => decide

end Spelt

theorem pieces_intercalate {parts : List PathPart} (some : parts ≠ []) (spelt : ∀ part ∈ parts, part.Spelt) :
    pieces (String.intercalate "/" (parts.map partText)).toList = parts.map fun part => (partText part).toList := by
  induction parts with
  | nil => exact absurd rfl some
  | cons part rest ih =>
    have first := pieces_of_plain (slash_not_mem_partText (spelt part List.mem_cons_self))
    cases rest with
    | nil => simp [first]
    | cons next more =>
      have text : (String.intercalate "/" ((part :: next :: more).map partText)).toList =
          (partText part).toList ++ '/' :: (String.intercalate "/" ((next :: more).map partText)).toList := by
        simp [String.intercalate_cons_cons]
      rw [text, pieces_append_slash, first, ih (by simp) fun part member => spelt part (List.mem_cons_of_mem _ member)]
      rfl

-- The parts of a text, with every `.` in it.
def rawParts (text : String) : List PathPart := ((pieces text.toList).filter fun piece => !piece.isEmpty).map partOf

theorem rawParts_append_slash (front back : String) : rawParts (front ++ "/" ++ back) = rawParts front ++ rawParts back := by
  have chars : (front ++ "/" ++ back).toList = front.toList ++ '/' :: back.toList := by simp
  rw [rawParts, chars, pieces_append_slash, List.filter_append, List.map_append]
  rfl

theorem rawParts_intercalate {parts : List PathPart} (spelt : ∀ part ∈ parts, part.Spelt) :
    rawParts (String.intercalate "/" (parts.map partText)) = parts := by
  by_cases none : parts = []
  · subst none
    rfl
  · have filled : ∀ piece ∈ parts.map (fun part => (partText part).toList), (!piece.isEmpty) = true := by
      intro piece member
      obtain ⟨part, listed, rfl⟩ := List.mem_map.mp member
      simpa using partText_ne_empty (spelt part listed)
    rw [rawParts, pieces_intercalate none spelt, List.filter_eq_self.mpr filled, List.map_map]
    calc parts.map (partOf ∘ fun part => (partText part).toList)
      _ = parts.map id := List.map_congr_left fun part listed => partOf_partText (spelt part listed)
      _ = parts := List.map_id parts

theorem rawParts_below {names : List String} (dir : String) (valid : ∀ name ∈ names, ValidName name) :
    rawParts (Disk.below dir names) = rawParts dir ++ names.map .name := by
  have read : rawParts (String.intercalate "/" names) = names.map .name := by
    have spelt : ∀ part ∈ names.map PathPart.name, part.Spelt := by
      intro part member
      obtain ⟨name, listed, rfl⟩ := List.mem_map.mp member
      exact (valid name listed).spelt
    have texts : (names.map PathPart.name).map partText = names := by simp [Function.comp_def, partText]
    rw [← rawParts_intercalate spelt, texts]
  unfold Disk.below
  by_cases slash : dir.toList.getLast? = some '/'
  · -- The last slash of the directory stands before the names.
    obtain ⟨front, ends⟩ := List.getLast?_eq_some_iff.mp slash
    have text : dir = String.ofList front ++ "/" := by
      apply String.toList_inj.mp
      simp [ends]
    have closed := rawParts_append_slash (String.ofList front) ""
    rw [String.append_empty, ← text] at closed
    rw [if_pos slash, closed, text, rawParts_append_slash, read]
    simp [rawParts, pieces]
  · rw [if_neg slash, rawParts_append_slash, read]

-- The parts that count.
def settled (absolute : Bool) (parts : List PathPart) : List PathPart :=
  if !absolute && parts.head? = some .current then .current :: parts.filter fun part => !isCurrent part
  else parts.filter fun part => !isCurrent part

theorem ofText_eq (text : String) : ofText text =
    ⟨text.toList.head? = some '/', settled (text.toList.head? = some '/') (rawParts text)⟩ := rfl

theorem settled_names (absolute : Bool) (front : List PathPart) (names : List String) :
    settled absolute (front ++ names.map .name) = settled absolute front ++ names.map .name := by
  have kept : (names.map PathPart.name).filter (fun part => !isCurrent part) = names.map .name := by
    refine List.filter_eq_self.mpr fun part member => ?_
    obtain ⟨name, _, rfl⟩ := List.mem_map.mp member
    rfl
  have head : (front ++ names.map PathPart.name).head? = some .current ↔ front.head? = some .current := by
    cases front with
    | nil => cases names <;> simp
    | cons part more => simp
  unfold settled
  simp only [head, List.filter_append, kept]
  split <;> rfl

theorem ofText_below {dir : String} {names : List String} (given : dir ≠ "")
    (valid : ∀ name ∈ names, ValidName name) :
    ofText (Disk.below dir names) = { ofText dir with parts := (ofText dir).parts ++ names.map .name } := by
  have head : (Disk.below dir names).toList.head? = dir.toList.head? := by
    have filled : dir.toList ≠ [] := fun none => given (String.toList_eq_nil_iff.mp none)
    obtain ⟨c, rest, starts⟩ := List.exists_cons_of_ne_nil filled
    unfold Disk.below
    split <;> simp [starts]
  rw [ofText_eq, head, rawParts_below dir valid, settled_names]
  rfl

end Path

namespace Path

-- A path where every `..` has been resolved that has something before it.
def Normal (path : Path) : Prop :=
  ∃ names : List String, path.parts = names.map .name ∨ path.parts = .up :: names.map .name

theorem normal_normalize (path : Path) : path.normalize.Normal := by
  refine ⟨path.trail.names.reverse, ?_⟩
  rw [parts_normalize, Trail.folded, List.reverse_append, List.map_reverse]
  split
  · exact .inr rfl
  · exact .inl rfl

end Path

namespace Disk

-- A disk as it can be: every place has one entry, the names are such that files can have them, and nothing stands below
-- a file.
structure Sound (disk : Disk) : Prop where
  distinct : (disk.entries.map Prod.fst).Nodup
  valid : ∀ entry ∈ disk.entries, ∀ name ∈ entry.1, ValidName name
  apart : ∀ names bytes, (names, .file bytes) ∈ disk.entries → ∀ entry ∈ disk.entries, names <+: entry.1 → entry.1 = names

-- The content of the file at a place.
def file? (disk : Disk) (names : List String) : Option ByteArray :=
  match disk.lookup? names with
  | some (.file bytes) => some bytes
  | _ => none

variable {disk : Disk} {names : List String} {bytes : ByteArray}

theorem lookup_of_file? (found : disk.file? names = some bytes) : disk.lookup? names = some (.file bytes) := by
  unfold file? at found
  split at found
  · next looked =>
    cases found
    exact looked
  · cases found

theorem mem_of_file? (found : disk.file? names = some bytes) : (names, .file bytes) ∈ disk.entries :=
  entry_of_lookup (lookup_of_file? found)

theorem entry?_eq_file : disk.entry? names = some (.file bytes) ↔ disk.file? names = some bytes := by
  unfold entry? file?
  cases disk.lookup? names with
  | none => simp
  | some entry => cases entry <;> simp

theorem lookup_of_mem {entry : DiskEntry} (distinct : (disk.entries.map Prod.fst).Nodup)
    (member : (names, entry) ∈ disk.entries) : disk.lookup? names = some entry := by
  obtain ⟨entries⟩ := disk
  unfold lookup?
  simp only at distinct member ⊢
  induction entries with
  | nil => cases member
  | cons first rest ih =>
    obtain ⟨key, value⟩ := first
    obtain ⟨fresh, distinct⟩ := List.nodup_cons.mp distinct
    rcases List.mem_cons.mp member with same | later
    · cases same
      exact List.lookup_cons_self
    · have differs : (names == key) = false := by
        refine beq_false_of_ne fun same => fresh ?_
        exact List.mem_map.mpr ⟨_, later, same⟩
      rw [List.lookup_cons, differs]
      exact ih distinct later

theorem file?_of_mem (sound : disk.Sound) (member : (names, .file bytes) ∈ disk.entries) :
    disk.file? names = some bytes := by
  rw [file?, lookup_of_mem sound.distinct member]

-- Above a file there are directories.
theorem Sound.entry?_above (sound : disk.Sound) {front back : List String} {name : String}
    (found : disk.file? (front ++ name :: back) = some bytes) : disk.entry? front = some .directory := by
  have member := mem_of_file? found
  unfold entry?
  cases looked : disk.lookup? front with
  | none =>
    have above : (front.isEmpty || disk.entries.any fun entry => front.isPrefixOf entry.1) = true := by
      rw [Bool.or_eq_true]
      exact .inr (List.any_eq_true.mpr ⟨_, member, by simp⟩)
    simp only [above, if_true]
  | some entry =>
    cases entry with
    | directory => rfl
    | file other =>
      have same := sound.apart front other (entry_of_lookup looked) _ member (List.prefix_append _ _)
      simp at same

theorem Sound.entry?_isSome (sound : disk.Sound) {front back : List String}
    (found : disk.file? (front ++ back) = some bytes) : (disk.entry? front).isSome = true := by
  cases back with
  | nil =>
    rw [List.append_nil] at found
    rw [entry?_eq_file.mpr found]
    rfl
  | cons name rest =>
    rw [sound.entry?_above found]
    rfl

-- The names of a file lead to it.
theorem Sound.walk_names (sound : disk.Sound) : ∀ (front names : List String),
    disk.file? (front ++ names) = some bytes → (∀ name ∈ names, name.utf8ByteSize ≤ nameLimit) →
      (names.map PathPart.name).foldlM disk.step (.below front) = .ok (.below (front ++ names))
  | front, [], _, _ => by simp [pure, Except.pure]
  | front, name :: rest, found, short => by
    have deeper : disk.file? (front ++ [name] ++ rest) = some bytes := by rwa [List.append_assoc]
    have goes : disk.step (.below front) (.name name) = .ok (.below (front ++ [name])) := by
      have further : (disk.entry? (front ++ [name])).isSome = true := sound.entry?_isSome deeper
      have fits : ¬ nameLimit < name.utf8ByteSize := Nat.not_lt.mpr (short name List.mem_cons_self)
      simp only [step, sound.entry?_above found, if_neg fits, further, if_true]
    rw [List.map_cons, List.foldlM_cons, goes]
    have rest := walk_names sound (front ++ [name]) rest deeper fun name member =>
      short name (List.mem_cons_of_mem _ member)
    rw [List.append_assoc] at rest
    exact rest

end Disk

-- Where a path leads, if it leads anywhere, is a matter of its parts.
def Spot.go : Spot → PathPart → Spot
  | .above, _ => .above
  | .below names, .current => .below names
  | .below names, .up => if names.isEmpty then .above else .below names.dropLast
  | .below names, .name text => .below (names ++ [text])

theorem Spot.go_above (parts : List PathPart) : parts.foldl go .above = .above := by
  induction parts with
  | nil => rfl
  | cons part rest ih => exact ih

theorem Spot.go_names (front names : List String) :
    (names.map PathPart.name).foldl go (.below front) = .below (front ++ names) := by
  induction names generalizing front with
  | nil => simp
  | cons name rest ih =>
    have next := ih (front ++ [name])
    rw [List.append_assoc] at next
    exact next

namespace Disk

variable {disk : Disk} {names : List String} {bytes : ByteArray}

theorem step_ok {spot reached : Spot} {part : PathPart} (goes : disk.step spot part = .ok reached) :
    reached = spot.go part ∧ ∀ text, part = .name text → text.utf8ByteSize ≤ nameLimit := by
  unfold step at goes
  cases spot with
  | above =>
    cases part with
    | name text => cases goes
    | current | up =>
      cases goes
      exact ⟨rfl, nofun⟩
  | below names =>
    simp only at goes
    split at goes
    · cases goes
    · cases goes
    · cases part with
      | current | up =>
        cases goes
        exact ⟨rfl, nofun⟩
      | name text =>
        simp only at goes
        split at goes
        · cases goes
        · next fits =>
          split at goes
          · cases goes
            refine ⟨rfl, ?_⟩
            rintro _ ⟨⟩
            exact Nat.not_lt.mp fits
          · cases goes

theorem foldlM_step_ok {reached : Spot} {parts : List PathPart} {spot : Spot}
    (goes : parts.foldlM disk.step spot = .ok reached) :
    reached = parts.foldl Spot.go spot ∧ ∀ text, .name text ∈ parts → text.utf8ByteSize ≤ nameLimit := by
  induction parts generalizing spot with
  | nil =>
    cases goes
    exact ⟨rfl, nofun⟩
  | cons part rest ih =>
    rw [List.foldlM_cons] at goes
    cases first : disk.step spot part with
    | error e =>
      rw [first] at goes
      cases goes
    | ok next =>
      rw [first] at goes
      obtain ⟨rfl, short⟩ := step_ok first
      obtain ⟨same, shorts⟩ := ih goes
      refine ⟨same, fun text member => ?_⟩
      rcases List.mem_cons.mp member with here | later
      · exact short text here.symm
      · exact shorts text later

theorem resolve_ok {path : Path} {spot : Spot} (leads : disk.resolve path = .ok spot) :
    spot = path.parts.foldl Spot.go (if path.absolute then .above else .below []) ∧
      ∀ text, .name text ∈ path.parts → text.utf8ByteSize ≤ nameLimit := by
  unfold resolve at leads
  split at leads
  · cases leads
  · exact foldlM_step_ok leads

-- A file that can be read stands at the end of its path.
theorem read_ok {path : Path} {text : String} (reads : disk.read path = .ok text) :
    ∃ names bytes, textFault? path.text = none ∧ disk.resolve path = .ok (.below names) ∧
      disk.file? names = some bytes ∧ textOf bytes = .ok text := by
  unfold read at reads
  split at reads
  · cases reads
  · next usable =>
    cases leads : disk.resolve path with
    | error e =>
      rw [leads] at reads
      cases reads
    | ok spot =>
      rw [leads] at reads
      cases spot with
      | above => cases reads
      | below names =>
        cases found : disk.entry? names with
        | none =>
          simp only [bind, Except.bind, found] at reads
          cases reads
        | some entry =>
          cases entry with
          | directory =>
            simp only [bind, Except.bind, found] at reads
            cases reads
          | file bytes =>
            simp only [bind, Except.bind, found] at reads
            exact ⟨names, bytes, usable, rfl, entry?_eq_file.mp found, reads⟩

theorem read_of_file? {path : Path} (usable : textFault? path.text = none) (leads : disk.resolve path = .ok (.below names))
    (found : disk.file? names = some bytes) : disk.read path = textOf bytes := by
  unfold read
  simp only [usable, leads, bind, Except.bind, entry?_eq_file.mpr found]

-- In normal form, the path of a file is made of its names.
theorem read_normal {path : Path} {text : String} (normal : path.Normal) (reads : disk.read path = .ok text) :
    ∃ names bytes, path = pathOf names ∧ names ≠ [] ∧ textFault? path.text = none ∧
      (∀ name ∈ names, name.utf8ByteSize ≤ nameLimit) ∧ disk.file? names = some bytes ∧ textOf bytes = .ok text := by
  obtain ⟨place, bytes, usable, leads, found, decoded⟩ := read_ok reads
  obtain ⟨same, short⟩ := resolve_ok leads
  obtain ⟨absolute, parts⟩ := path
  cases absolute with
  | true =>
    -- Nothing is known above the working directory.
    simp only [if_true, Spot.go_above] at same
    cases same
  | false =>
    obtain ⟨names, shape⟩ := normal
    simp only at shape
    rcases shape with rfl | rfl
    · simp only [Bool.false_eq_true, if_false, Spot.go_names, List.nil_append] at same
      cases same
      refine ⟨place, bytes, rfl, ?_, usable, fun name member => short name (List.mem_map_of_mem member), found, decoded⟩
      rintro rfl
      cases leads
    · have above : (PathPart.up :: names.map PathPart.name).foldl Spot.go (.below []) = .above := Spot.go_above _
      simp only [Bool.false_eq_true, if_false, above] at same
      cases same

theorem Sound.resolve_pathOf (sound : disk.Sound) (some : names ≠ []) (found : disk.file? names = Option.some bytes)
    (short : ∀ name ∈ names, name.utf8ByteSize ≤ nameLimit) : disk.resolve (pathOf names) = .ok (.below names) := by
  have filled : (pathOf names).parts.isEmpty = false := by
    cases names with
    | nil => exact absurd rfl some
    | cons _ _ => rfl
  unfold resolve
  rw [filled]
  exact sound.walk_names [] names found short

-- What one disk reads at a path in normal form, the other does that has the same file there.
theorem Sound.read_same {other : Disk} (sound : other.Sound) {path : Path} {text : String} (normal : path.Normal)
    (same : ∀ names, path = pathOf names → other.file? names = disk.file? names) (reads : disk.read path = .ok text) :
    other.read path = .ok text := by
  obtain ⟨names, bytes, rfl, some, usable, short, found, decoded⟩ := read_normal normal reads
  have found : other.file? names = Option.some bytes := (same names rfl).trans found
  rw [read_of_file? usable (sound.resolve_pathOf some found short) found, decoded]

theorem load_of_read {path : Path} {text : String} (reads : disk.read path = .ok text) :
    disk.load path = (Template.ofText? text).elim (.error .malformed) .ok := by
  simp only [load, reads]
  cases Template.ofText? text <;> rfl

theorem load_of_fault {path : Path} {e : ReadError} (fails : disk.read path = .error e) :
    disk.load path = .error (.unreadable e.message) := by
  unfold load
  rw [fails]

theorem load_error {path : Path} {fault : Fault} (fails : disk.load path = .error fault) :
    fault = disk.loader.fault path := by
  cases reads : disk.read path with
  | error e =>
    rw [load_of_fault reads] at fails
    cases fails
    simp only [loader, reads]
  | ok text =>
    rw [load_of_read reads] at fails
    cases parsed : Template.ofText? text with
    | some template =>
      rw [parsed] at fails
      cases fails
    | none =>
      rw [parsed] at fails
      cases fails
      simp only [loader, reads]

-- For includes, the templates at hand are what loading gives.
theorem load_loader {path : Path} (normal : path.Normal) : disk.loader.load path = disk.load path := by
  cases listed : disk.loader.templates.lookup path with
  | some template =>
    rw [Loader.load_some listed]
    obtain ⟨entry, _, given⟩ := List.mem_filterMap.mp (entry_of_lookup listed)
    split at given
    · next loads =>
      cases given
      exact loads.symm
    · cases given
  | none =>
    rw [Loader.load_none listed]
    cases loads : disk.load path with
    | error fault => rw [load_error loads]
    | ok template =>
      -- A template that loads is listed under its path.
      exfalso
      cases reads : disk.read path with
      | error e =>
        rw [load_of_fault reads] at loads
        cases loads
      | ok text =>
        obtain ⟨names, bytes, rfl, _, _, _, found, _⟩ := read_normal normal reads
        have member : (pathOf names, template) ∈ disk.loader.templates :=
          List.mem_filterMap.mpr ⟨_, mem_of_file? found, by simp only [loads]⟩
        have missing := List.lookup_eq_none_iff.mp listed _ member
        simp at missing

end Disk

-- Faults that differ at most in the reason why a file could not be read.
inductive Fault.Alike : Fault → Fault → Prop where
  | refl (fault : Fault) : Alike fault fault
  | unreadable (reason other : String) : Alike (.unreadable reason) (.unreadable other)

namespace Disk

variable {disk other : Disk}

theorem Sound.same_loader (sound : disk.Sound) (sound' : other.Sound) {path : Path} (normal : path.Normal)
    (same : ∀ names, path = pathOf names → other.file? names = disk.file? names) :
    Loader.Same Fault.Alike disk.loader other.loader path := by
  cases reads : disk.read path with
  | ok text =>
    have reads' := sound'.read_same normal same reads
    have loads := load_of_read reads
    have loads' := load_of_read reads'
    rw [← load_loader normal] at loads loads'
    cases parsed : Template.ofText? text with
    | some template =>
      rw [parsed] at loads loads'
      exact .found loads loads'
    | none =>
      rw [parsed] at loads loads'
      exact .failed loads loads' (.refl _)
  | error e =>
    cases reads' : other.read path with
    | ok text =>
      have reads' := sound.read_same normal (fun names is => (same names is).symm) reads'
      rw [reads] at reads'
      cases reads'
    | error e' =>
      have loads := load_of_fault reads
      have loads' := load_of_fault reads'
      rw [← load_loader normal] at loads loads'
      exact .failed loads loads' (.unreadable _ _)

end Disk

-- Includes ask for paths in normal form.
theorem Template.normal_of_asked {template : Template} {options : Options} {loader : Loader} {shared : Names} {path : Path}
    (asked : path ∈ template.asked options loader shared) : path.Normal := by
  obtain ⟨event, _, asks⟩ := List.mem_flatMap.mp asked
  cases event with
  | visited visit before =>
    have asks : visit.asks? before.stack = some path := Option.mem_toList.mp asks
    unfold Visit.asks? at asks
    split at asks
    · obtain ⟨source, rfl, _⟩ := Tag.asks?_eq_some asks
      exact Path.normal_normalize _
    · cases asks
  | _ => cases asks

namespace Disk

variable {disk other : Disk}

section Reordered

variable (distinct : (disk.entries.map Prod.fst).Nodup) (reordered : other.entries.Perm disk.entries)
include distinct reordered

theorem lookup?_reordered (names : List String) : other.lookup? names = disk.lookup? names := by
  have distinct' : (other.entries.map Prod.fst).Nodup := (reordered.map Prod.fst).nodup_iff.mpr distinct
  cases found : disk.lookup? names with
  | some entry => exact lookup_of_mem distinct' (reordered.mem_iff.mpr (entry_of_lookup found))
  | none =>
    cases found' : other.lookup? names with
    | none => rfl
    | some entry =>
      rw [lookup_of_mem distinct (reordered.mem_iff.mp (entry_of_lookup found'))] at found
      cases found

theorem entry?_reordered (names : List String) : other.entry? names = disk.entry? names := by
  have any : (other.entries.any fun entry => names.isPrefixOf entry.1) =
      disk.entries.any fun entry => names.isPrefixOf entry.1 := by
    rw [Bool.eq_iff_iff, List.any_eq_true, List.any_eq_true]
    simp only [reordered.mem_iff]
  unfold entry?
  rw [lookup?_reordered distinct reordered, any]

theorem step_reordered : other.step = disk.step := by
  funext spot part
  unfold step
  simp only [entry?_reordered distinct reordered]

theorem resolve_reordered (path : Path) : other.resolve path = disk.resolve path := by
  unfold resolve
  rw [step_reordered distinct reordered]

theorem read_reordered (path : Path) : other.read path = disk.read path := by
  unfold read
  simp only [resolve_reordered distinct reordered, entry?_reordered distinct reordered]

theorem load_reordered (path : Path) : other.load path = disk.load path := by
  unfold load
  rw [read_reordered distinct reordered]

end Reordered

end Disk

end Stencil
