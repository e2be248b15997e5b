import Stencil.Batch

-- The order of paths: part by part, each by the bytes of its text. Characters are ordered as their encodings are, so
-- that names in the order of their characters are in the order of their bytes.

namespace Stencil

-- Two texts that differ first where the one has a smaller byte.
def Diverges (first second : List UInt8) : Prop :=
  ∃ common x y rest rest', first = common ++ x :: rest ∧ second = common ++ y :: rest' ∧ x < y

namespace Diverges

variable {first second : List UInt8}

theorem lex (diverges : Diverges first second) (back back' : List UInt8) :
    List.Lex (· < ·) (first ++ back) (second ++ back') := by
  obtain ⟨common, x, y, rest, rest', rfl, rfl, less⟩ := diverges
  rw [List.append_assoc, List.append_assoc]
  induction common with
  | nil => exact .rel less
  | cons head tail ih => exact .cons ih

theorem head {a b : Nat} (small : b < 256) (less : a < b) :
    Diverges (UInt8.ofNat a :: first) (UInt8.ofNat b :: second) := by
  refine ⟨[], UInt8.ofNat a, UInt8.ofNat b, first, second, rfl, rfl, ?_⟩
  rw [UInt8.lt_iff_toNat_lt, UInt8.toNat_ofNat', UInt8.toNat_ofNat']
  omega

theorem digit {a b : Nat} (small : b < 256) (order : a < b ∨ a = b ∧ Diverges first second) :
    Diverges (UInt8.ofNat a :: first) (UInt8.ofNat b :: second) := by
  rcases order with less | ⟨rfl, common, x, y, rest, rest', rfl, rfl, less⟩
  · exact head small less
  · exact ⟨UInt8.ofNat a :: common, x, y, rest, rest', rfl, rfl, less⟩

-- The digits behind the first byte.

theorem last {v w : Nat} (less : v < w) (front : v / 64 = w / 64) :
    Diverges [UInt8.ofNat (v % 64 + 0x80)] [UInt8.ofNat (w % 64 + 0x80)] :=
  head (by omega) (by omega)

theorem lastTwo {v w : Nat} (less : v < w) (front : v / 4096 = w / 4096) :
    Diverges [UInt8.ofNat (v / 64 % 64 + 0x80), UInt8.ofNat (v % 64 + 0x80)]
      [UInt8.ofNat (w / 64 % 64 + 0x80), UInt8.ofNat (w % 64 + 0x80)] := by
  refine digit (by omega) ?_
  by_cases next : v / 64 = w / 64
  · exact .inr ⟨by omega, last less next⟩
  · exact .inl (by omega)

theorem lastThree {v w : Nat} (less : v < w) (front : v / 262144 = w / 262144) :
    Diverges [UInt8.ofNat (v / 4096 % 64 + 0x80), UInt8.ofNat (v / 64 % 64 + 0x80), UInt8.ofNat (v % 64 + 0x80)]
      [UInt8.ofNat (w / 4096 % 64 + 0x80), UInt8.ofNat (w / 64 % 64 + 0x80), UInt8.ofNat (w % 64 + 0x80)] := by
  refine digit (by omega) ?_
  by_cases next : v / 4096 = w / 4096
  · exact .inr ⟨by omega, lastTwo less next⟩
  · exact .inl (by omega)

end Diverges

-- The number of bytes grows with the character, and the first of them with their number; among as many bytes the digits
-- decide.
theorem diverges_encode {c d : Char} (less : c < d) :
    Diverges (String.utf8EncodeChar c) (String.utf8EncodeChar d) := by
  have bound : d.val.toNat < 0x110000 := by
    rcases d.valid with low | high
    · exact Nat.lt_trans low (by decide)
    · exact high.2
  have less : c.val.toNat < d.val.toNat := less
  unfold String.utf8EncodeChar
  generalize c.val.toNat = v at less
  generalize d.val.toNat = w at less bound
  dsimp only
  by_cases one : w ≤ 0x7f
  · rw [if_pos (by omega : v ≤ 0x7f), if_pos one]
    exact .head (by omega) less
  · rw [if_neg one]
    by_cases two : w ≤ 0x7ff
    · rw [if_pos two]
      split
      · exact .head (by omega) (by omega)
      · rw [if_pos (by omega : v ≤ 0x7ff)]
        refine .digit (by omega) ?_
        by_cases front : v / 64 = w / 64
        · exact .inr ⟨by omega, .last less front⟩
        · exact .inl (by omega)
    · rw [if_neg two]
      by_cases three : w ≤ 0xffff
      · rw [if_pos three]
        split
        · exact .head (by omega) (by omega)
        · split
          · exact .head (by omega) (by omega)
          · rw [if_pos (by omega : v ≤ 0xffff)]
            refine .digit (by omega) ?_
            by_cases front : v / 4096 = w / 4096
            · exact .inr ⟨by omega, .lastTwo less front⟩
            · exact .inl (by omega)
      · rw [if_neg three]
        split
        · exact .head (by omega) (by omega)
        · split
          · exact .head (by omega) (by omega)
          · split
            · exact .head (by omega) (by omega)
            · refine .digit (by omega) ?_
              by_cases front : v / 262144 = w / 262144
              · exact .inr ⟨by omega, .lastThree less front⟩
              · exact .inl (by omega)

namespace Text

-- The bytes of a text in its encoding.
def bytes (text : String) : List UInt8 := text.toByteArray.data.toList

theorem bytes_eq (text : String) : bytes text = text.toList.flatMap String.utf8EncodeChar := by
  rw [bytes, ← String.utf8Encode_toList, List.utf8Encode, List.toList_data_toByteArray]

theorem lex_encoded {first second : List Char} (less : List.Lex (· < ·) first second) :
    List.Lex (· < ·) (first.flatMap String.utf8EncodeChar) (second.flatMap String.utf8EncodeChar) := by
  induction less with
  | @nil c rest =>
    have filled : 0 < ((c :: rest).flatMap String.utf8EncodeChar).length := by
      rw [List.flatMap_cons, List.length_append, String.length_utf8EncodeChar]
      exact Nat.lt_of_lt_of_le c.utf8Size_pos (Nat.le_add_right _ _)
    cases encoded : (c :: rest).flatMap String.utf8EncodeChar with
    | nil => simp [encoded] at filled
    | cons byte more => exact .nil
  | cons _ ih =>
    rw [List.flatMap_cons, List.flatMap_cons]
    exact List.append_left_lt ih
  | rel less =>
    rw [List.flatMap_cons, List.flatMap_cons]
    exact (diverges_encode less).lex _ _

theorem lex_bytes {first second : String} (less : first < second) : List.Lex (· < ·) (bytes first) (bytes second) := by
  rw [bytes_eq, bytes_eq]
  exact lex_encoded less

end Text

namespace Path

-- The parts of a path as they are compared: the root before `.` before `..` before names.
def key : PathPart → List UInt8
  | .current => [1]
  | .up => [2]
  | .name text => 3 :: Text.bytes text

def keys (path : Path) : List (List UInt8) := (if path.absolute then [[0]] else []) ++ path.parts.map key

def Before (first second : Path) : Prop := List.Lex (List.Lex (· < ·)) first.keys second.keys

theorem Before.asymm {first second : Path} (before : first.Before second) : ¬ second.Before first := by
  have bytes {a b : List UInt8} (less : List.Lex (· < ·) a b) : ¬ List.Lex (· < ·) b a :=
    List.lex_asymm (fun {x y} => @UInt8.lt_asymm x y) less
  exact List.lex_asymm bytes before

theorem lex_append {α : Type} {r : α → α → Prop} {first second : List α} (common : List α)
    (lex : List.Lex r first second) : List.Lex r (common ++ first) (common ++ second) := by
  induction common with
  | nil => exact lex
  | cons head tail ih => exact .cons ih

theorem lex_names {names others : List String} (less : List.Lex (· < ·) names others) :
    List.Lex (List.Lex (· < ·)) (names.map fun name => key (.name name)) (others.map fun name => key (.name name)) := by
  induction less with
  | nil => exact .nil
  | cons _ ih => exact .cons ih
  | rel less => exact .rel (.cons (Text.lex_bytes less))

-- Names behind one path.
theorem before_names (absolute : Bool) (front : List PathPart) {names others : List String} (less : names < others) :
    Before ⟨absolute, front ++ names.map .name⟩ ⟨absolute, front ++ others.map .name⟩ := by
  unfold Before keys
  simp only [List.map_append, List.map_map]
  exact lex_append _ (lex_append _ (lex_names less))

end Path

end Stencil
