import Stencil.Proofs.Line

-- What can be seen of generated code. Two codes that render alike under every scope have the same chunks: no fixed text
-- looks like a root under every scope, so that the chunks can be told from the texts.

namespace Stencil

namespace Scope

theorem isLocal_empty (name : String) : empty.isLocal name = false := by simp [isLocal, empty]

-- The scope in which one name is local.
def only (name : String) : Scope := empty.promote name

theorem isLocal_only (name other : String) : (only name).isLocal other = (other == name) := by
  rw [only, isLocal_promote, isLocal_empty, Bool.or_false]

end Scope

namespace Chunk

open Scope (only isLocal_empty isLocal_only)

-- The characters that chunks render to.
def chars (scope : Scope) (chunks : List Chunk) : List Char := chunks.flatMap fun chunk => (chunk.render scope).toList

section Chars

variable {scope : Scope}

@[simp] theorem chars_text (value : String) (rest : List Chunk) :
    chars scope (.text value :: rest) = value.toList ++ chars scope rest := rfl

theorem chars_root (name : String) (rest : List Chunk) :
    chars scope (.root name :: rest) = (render scope (.root name)).toList ++ chars scope rest := rfl

theorem chars_root_local {name : String} (known : scope.isLocal name = true) (rest : List Chunk) :
    chars scope (.root name :: rest) = '$' :: '_' :: '_' :: 's' :: "cope".toList ++ chars scope rest := by
  simp [chars, render, known]

theorem chars_root_data {name : String} (unknown : scope.isLocal name = false) (rest : List Chunk) :
    chars scope (.root name :: rest) = '$' :: '_' :: '_' :: 'd' :: "ata".toList ++ chars scope rest := by
  simp [chars, render, unknown]

-- Where no text comes first there is nothing, or a root.
theorem head?_chars {chunks : List Chunk} (rooted : startsWithText chunks = false) {c : Char} {rest : List Char}
    (begins : chars scope chunks = c :: rest) : c = '$' := by
  cases chunks with
  | nil => cases begins
  | cons first others =>
    cases first with
    | text value => cases rooted
    | root name =>
      cases known : scope.isLocal name with
      | true =>
        rw [chars_root_local known] at begins
        exact (List.cons.inj begins).1.symm
      | false =>
        rw [chars_root_data known] at begins
        exact (List.cons.inj begins).1.symm

theorem chars_ne_nil {chunks : List Chunk} (normal : Normal chunks) (filled : chunks ≠ []) : chars scope chunks ≠ [] := by
  cases chunks with
  | nil => exact absurd rfl filled
  | cons first rest =>
    cases first with
    | text value =>
      intro empty
      rw [chars_text, List.append_eq_nil_iff] at empty
      exact normal.1 (String.toList_eq_nil_iff.mp empty.1)
    | root name =>
      cases known : scope.isLocal name with
      | true => simp [chars_root_local known]
      | false => simp [chars_root_data known]

end Chars

-- Text that agrees with both storages ends before they part, and then the next root comes too early.
theorem text_ne_root {front : List Char} (filled : front ≠ []) {rest : List Chunk} (rooted : startsWithText rest = false)
    {name : String} {others : List Chunk} :
    ¬ ∀ scope, front ++ chars scope rest = chars scope (.root name :: others) := by
  intro same
  have data := same .empty
  have own := same (only name)
  rw [chars_root_data (isLocal_empty name)] at data
  rw [chars_root_local (by simp [isLocal_only])] at own
  match front, filled with
  | [_], _ => exact absurd (head?_chars rooted (List.cons.inj data).2) (by decide)
  | [_, _], _ => exact absurd (head?_chars rooted (List.cons.inj (List.cons.inj data).2).2) (by decide)
  | [_, _, _], _ =>
    exact absurd (head?_chars rooted (List.cons.inj (List.cons.inj (List.cons.inj data).2).2).2) (by decide)
  | _ :: _ :: _ :: c :: _, _ =>
    simp only [List.cons_append, List.cons.injEq] at data own
    have both : 'd' = 's' := data.2.2.2.1.symm.trans own.2.2.2.1
    exact absurd both (by decide)

theorem root_inj {name other : String} {rest others : List Chunk}
    (same : ∀ scope, chars scope (.root name :: rest) = chars scope (.root other :: others)) : name = other := by
  by_cases equal : name = other
  · exact equal
  · have own := same (only name)
    have apart : (only name).isLocal other = false := by simpa [isLocal_only] using Ne.symm equal
    rw [chars_root_local (by simp [isLocal_only]), chars_root_data apart] at own
    simp at own

-- A shorter text in front of the same characters is the whole text, since what follows it is no text.
theorem text_inj {front back : List Char} {rest others : List Chunk} (rooted : startsWithText rest = false)
    (other : startsWithText others = false)
    (same : ∀ scope, front ++ chars scope rest = front ++ back ++ chars scope others) : back = [] := by
  by_cases empty : back = []
  · exact empty
  · have behind (scope : Scope) : back ++ chars scope others = chars scope rest := by
      have shared := same scope
      rw [List.append_assoc] at shared
      exact (List.append_cancel_left shared).symm
    cases rest with
    | nil => exact (List.append_eq_nil_iff.mp (behind .empty)).1
    | cons first more =>
      cases first with
      | text value => cases rooted
      | root name => exact absurd behind (text_ne_root empty other)

theorem value_inj {value asked : String} {rest others : List Chunk} (rooted : startsWithText rest = false)
    (other : startsWithText others = false)
    (same : ∀ scope, chars scope (.text value :: rest) = chars scope (.text asked :: others)) : value = asked := by
  simp only [chars_text] at same
  refine String.toList_inj.mp ?_
  rcases List.append_eq_append_iff.mp (same .empty) with ⟨back, longer, _⟩ | ⟨back, longer, _⟩
  · rw [longer] at same ⊢
    rw [text_inj rooted other same, List.append_nil]
  · rw [longer] at same ⊢
    rw [text_inj other rooted fun scope => (same scope).symm, List.append_nil]

theorem eq_of_chars {first second : List Chunk} (left : Normal first) (right : Normal second)
    (same : ∀ scope, chars scope first = chars scope second) : first = second := by
  induction first generalizing second with
  | nil =>
    by_cases filled : second = []
    · exact filled.symm
    · exact absurd (same .empty).symm (chars_ne_nil right filled)
  | cons chunk rest ih =>
    cases second with
    | nil => exact absurd (same .empty) (chars_ne_nil left (List.cons_ne_nil _ _))
    | cons other others =>
      cases chunk with
      | root name =>
        cases other with
        | text value =>
          have filled : value.toList ≠ [] := fun empty => right.1 (String.toList_eq_nil_iff.mp empty)
          exact absurd (fun scope => (same scope).symm) (text_ne_root filled right.2.1)
        | root asked =>
          obtain rfl := root_inj same
          simp only [chars_root, List.append_cancel_left_eq] at same
          have behind : Normal others := right
          rw [ih left behind same]
      | text value =>
        cases other with
        | root name =>
          have filled : value.toList ≠ [] := fun empty => left.1 (String.toList_eq_nil_iff.mp empty)
          exact absurd same (text_ne_root filled left.2.1)
        | text asked =>
          obtain rfl := value_inj left.2.1 right.2.1 same
          simp only [chars_text, List.append_cancel_left_eq] at same
          rw [ih left.2.2 right.2.2 same]

end Chunk

namespace Code

theorem toList_render (scope : Scope) (code : Code) : (code.render scope).toList = Chunk.chars scope code.chunks := by
  rw [render, String.toList_join, List.flatMap_map, Chunk.chars]

theorem render_join (scope : Scope) (separator : String) : ∀ parts : List Code,
    (join separator parts).render scope = separator.intercalate (parts.map (render scope))
  | [] => rfl
  | [part] => by simp [join]
  | first :: second :: rest => by
    rw [join, render_append, render_append, render_text, render_join scope separator (second :: rest), List.map_cons,
      List.map_cons, List.map_cons, String.intercalate_cons_cons, String.append_assoc]
    simp

theorem eq_of_render {a b : Code} (same : ∀ scope, a.render scope = b.render scope) : a = b := by
  refine ext (Chunk.eq_of_chars a.normal b.normal fun scope => ?_)
  rw [← toList_render, ← toList_render, same scope]

-- Codes are what they are seen to be, and each way of making code from others can be seen from the texts of these.
theorem chunks_eq_iff (a b : Code) :
    (a.chunks = b.chunks ↔ ∀ scope, a.render scope = b.render scope) ∧
      ∀ scope : Scope,
        empty.render scope = "" ∧
        (∀ name, (root name).render scope = if scope.isLocal name then "$__scope" else "$__data") ∧
        (∀ value, (a ++ text value).render scope = a.render scope ++ value) ∧
        (∀ name, (a ++ root name).render scope = a.render scope ++ if scope.isLocal name then "$__scope" else "$__data") ∧
        (a ++ b).render scope = a.render scope ++ b.render scope ∧
        (∀ separator parts, (join separator parts).render scope = separator.intercalate (parts.map (render scope))) ∧
        a.statement.render scope = "<?php " ++ a.render scope ++ " ?>\n" ∧
        a.safeRead.render scope = "(isset(" ++ a.render scope ++ ") ? " ++ a.render scope ++ " : \"\")" := by
  refine ⟨⟨fun same scope => ?_, fun same => ?_⟩, fun scope => ?_⟩
  · rw [ext same]
  · rw [eq_of_render same]
  · refine ⟨rfl, render_root scope, ?_, ?_, render_append scope a b, render_join scope, ?_, ?_⟩
    · intro value
      rw [render_append, render_text]
    · intro name
      rw [render_append, render_root]
    · simp [statement, String.append_assoc]
    · simp [safeRead, String.append_assoc]

end Code

end Stencil
