import Stencil.Proofs.Files

-- The normal form of a path. It has no `.`, and `..` stands at most in front. The paths of this form are those that stay as
-- they are, so nothing changes when a path is brought to its normal form twice. The text of a normal form is read back as
-- that form.

namespace Stencil

namespace Path

theorem normal_iff {path : Path} : path.Normal ↔ .current ∉ path.parts ∧ .up ∉ path.parts.tail := by
  have names (parts : List PathPart) : .current ∉ parts → .up ∉ parts → ∃ names : List String, parts = names.map .name := by
    intro still down
    induction parts with
    | nil => exact ⟨[], rfl⟩
    | cons part rest ih =>
      rw [List.mem_cons, not_or] at still down
      obtain ⟨names, rfl⟩ := ih still.2 down.2
      cases part with
      | current => exact absurd rfl still.1
      | up => exact absurd rfl down.1
      | name text => exact ⟨text :: names, rfl⟩
  constructor
  · rintro ⟨texts, shape | shape⟩
    · cases texts <;> simp [shape]
    · simp [shape]
  · rintro ⟨still, down⟩
    cases listed : path.parts with
    | nil => exact ⟨[], .inl listed⟩
    | cons part rest =>
      rw [listed, List.mem_cons, not_or] at still
      rw [listed, List.tail_cons] at down
      obtain ⟨texts, rfl⟩ := names rest still.2 down
      cases part with
      | current => exact absurd rfl still.1
      | up => exact ⟨texts, .inr listed⟩
      | name text => exact ⟨text :: texts, .inl listed⟩

-- A normal form is what is left of a trail that leaves its base once at most.
theorem Normal.folded {path : Path} (normal : path.Normal) :
    ∃ trail : Trail, trail.climbs < 2 ∧ path.parts = trail.folded.reverse := by
  obtain ⟨names, shape | shape⟩ := normal
  · exact ⟨⟨0, names.reverse⟩, Nat.zero_lt_two, by simp [shape, Trail.folded]⟩
  · exact ⟨⟨1, names.reverse⟩, Nat.one_lt_two, by simp [shape, Trail.folded]⟩

theorem Normal.normalize_eq {path : Path} (normal : path.Normal) : path.normalize = path := by
  obtain ⟨trail, near, parts⟩ := normal.folded
  have walked : path.trail = trail := by
    rw [Path.trail, parts, run_folded, Nat.mod_eq_of_lt near]
  have same : path.normalize.parts = path.parts := by rw [parts_normalize, walked, parts]
  exact congrArg (Path.mk path.absolute) same

section Text

theorem slash_not_mem_pieces : ∀ {chars piece : List Char}, piece ∈ pieces chars → '/' ∉ piece
  | [], piece, member => by
    cases List.mem_singleton.mp member
    simp
  | c :: rest, piece, member => by
    rw [pieces] at member
    by_cases slash : c = '/'
    · rw [if_pos slash] at member
      rcases List.mem_cons.mp member with rfl | later
      · simp
      · exact slash_not_mem_pieces later
    · rw [if_neg slash] at member
      cases found : pieces rest with
      | nil => exact absurd found (pieces_ne_nil rest)
      | cons first more =>
        rw [found] at member
        rcases List.mem_cons.mp member with rfl | later
        · have plain : '/' ∉ first := slash_not_mem_pieces (found ▸ List.mem_cons_self)
          intro own
          rcases List.mem_cons.mp own with same | inner
          · exact slash same.symm
          · exact plain inner
        · exact slash_not_mem_pieces (found ▸ List.mem_cons_of_mem _ later)

theorem spelt_partOf {piece : List Char} (filled : piece ≠ []) (plain : '/' ∉ piece) : (partOf piece).Spelt := by
  have back {text : String} (same : String.ofList piece = text) : piece = text.toList := by
    rw [← same, String.toList_ofList]
  unfold partOf
  split
  · trivial
  · rename_i still
    split
    · trivial
    · rename_i down
      refine ⟨fun same => filled (back same), ?_, fun same => still (back same), fun same => down (back same)⟩
      rwa [String.toList_ofList]

theorem spelt_rawParts {text : String} {part : PathPart} (member : part ∈ rawParts text) : part.Spelt := by
  obtain ⟨piece, listed, rfl⟩ := List.mem_map.mp member
  obtain ⟨among, filled⟩ := List.mem_filter.mp listed
  exact spelt_partOf (by simpa using filled) (slash_not_mem_pieces among)

theorem spelt_ofText (text : String) : ∀ part ∈ (ofText text).parts, part.Spelt := by
  intro part member
  rw [ofText_eq] at member
  unfold settled at member
  split at member
  · rcases List.mem_cons.mp member with rfl | later
    · trivial
    · exact spelt_rawParts (List.mem_filter.mp later).1
  · exact spelt_rawParts (List.mem_filter.mp member).1

theorem mem_resolve {reversed : List PathPart} {next part : PathPart} (member : part ∈ resolve reversed next) :
    part = .up ∨ part = next ∨ part ∈ reversed := by
  cases next with
  | current => exact .inr (.inr member)
  | name text => exact .inr (List.mem_cons.mp member)
  | up =>
    cases reversed with
    | nil => exact .inl (List.mem_singleton.mp member)
    | cons last rest => exact .inr (.inr (List.mem_cons_of_mem _ member))

theorem mem_normalize {path : Path} {part : PathPart} (member : part ∈ path.normalize.parts) :
    part = .up ∨ part ∈ path.parts := by
  have steps (parts : List PathPart) : ∀ reversed : List PathPart, part ∈ parts.foldl resolve reversed →
      part = .up ∨ part ∈ parts ∨ part ∈ reversed := by
    induction parts with
    | nil => exact fun _ member => .inr (.inr member)
    | cons first rest ih =>
      intro reversed member
      rcases ih (resolve reversed first) member with up | later | before
      · exact .inl up
      · exact .inr (.inl (List.mem_cons_of_mem _ later))
      · rcases mem_resolve before with up | rfl | earlier
        · exact .inl up
        · exact .inr (.inl List.mem_cons_self)
        · exact .inr (.inr earlier)
  rcases steps path.parts [] (List.mem_reverse.mp member) with up | own | none
  · exact .inl up
  · exact .inr own
  · cases none

theorem spelt_normalize {path : Path} (spelt : ∀ part ∈ path.parts, part.Spelt) :
    ∀ part ∈ path.normalize.parts, part.Spelt := by
  intro part member
  rcases mem_normalize member with rfl | own
  · trivial
  · exact spelt part own

theorem settled_of_still {absolute : Bool} {parts : List PathPart} (still : .current ∉ parts) :
    settled absolute parts = parts := by
  have first : parts.head? ≠ some .current := fun same => still (List.mem_of_head? same)
  have kept : parts.filter (fun part => !isCurrent part) = parts := by
    apply List.filter_eq_self.mpr
    intro part member
    have other : part ≠ .current := fun same => still (same ▸ member)
    simp [isCurrent, other]
  simp [settled, first, kept]

-- Only an absolute path is written with a slash in front.
theorem head_intercalate {parts : List PathPart} (spelt : ∀ part ∈ parts, part.Spelt) :
    (String.intercalate "/" (parts.map partText)).toList.head? ≠ some '/' := by
  intro slash
  obtain ⟨rest, begins⟩ := List.head?_eq_some_iff.mp slash
  by_cases none : parts = []
  · subst none
    cases begins
  · -- There would be an empty text before the slash.
    have first : [] ∈ parts.map fun part => (partText part).toList := by
      rw [← pieces_intercalate none spelt, begins, pieces, if_pos rfl]
      exact List.mem_cons_self
    obtain ⟨part, listed, empty⟩ := List.mem_map.mp first
    exact partText_ne_empty (spelt part listed) (String.toList_eq_nil_iff.mp empty)

theorem ofText_text {path : Path} (still : .current ∉ path.parts) (spelt : ∀ part ∈ path.parts, part.Spelt) :
    ofText path.text = path := by
  obtain ⟨absolute, parts⟩ := path
  cases absolute with
  | true =>
    have text : Path.text ⟨true, parts⟩ = "" ++ "/" ++ String.intercalate "/" (parts.map partText) := rfl
    have head : (Path.text ⟨true, parts⟩).toList.head? = some '/' := by simp [text]
    have read : rawParts (Path.text ⟨true, parts⟩) = parts := by
      rw [text, rawParts_append_slash, rawParts_intercalate spelt]
      rfl
    rw [ofText_eq, head, read, settled_of_still still]
    rfl
  | false =>
    have text : Path.text ⟨false, parts⟩ = String.intercalate "/" (parts.map partText) := String.empty_append
    have head := head_intercalate spelt
    rw [ofText_eq, text, rawParts_intercalate spelt, settled_of_still still, decide_eq_false head]

end Text

-- Bringing a path to its normal form changes nothing at those that have it, and these are the paths without `.` where `..`
-- stands only in front. A normal form can be written and read again.
theorem normalize_settles (path : Path) :
    path.normalize.normalize = path.normalize ∧
    .current ∉ path.normalize.parts ∧
    path.normalize.absolute = path.absolute ∧
    .up ∉ path.normalize.parts.tail ∧ path.normalize.parts.count .up ≤ 1 ∧
    (path.normalize = path ↔ .current ∉ path.parts ∧ .up ∉ path.parts.tail) ∧
    ∀ source : String, ofText (ofText source).normalize.text = (ofText source).normalize := by
  have normal := normal_normalize path
  obtain ⟨still, front⟩ := normal_iff.mp normal
  refine ⟨normal.normalize_eq, still, rfl, front, ?_, ?_, ?_⟩
  · cases listed : path.normalize.parts with
    | nil => exact Nat.zero_le _
    | cons part rest =>
      rw [listed, List.tail_cons] at front
      rw [List.count_cons, List.count_eq_zero.mpr front]
      split <;> decide
  · rw [← normal_iff]
    constructor
    · intro same
      rwa [same] at normal
    · exact Normal.normalize_eq
  · intro source
    exact ofText_text (normal_iff.mp (normal_normalize _)).1 (spelt_normalize (spelt_ofText source))

end Path

end Stencil
