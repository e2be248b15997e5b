import Stencil.Fragments
import Stencil.Switch

-- What tables answer after a change, and with them the open switches and the live fragments.

namespace Stencil

namespace Table

variable {α : Type}

@[simp] theorem get?_cons (key : Nat) (value : α) (rest : Table α) (k : Nat) :
    get? ((key, value) :: rest) k = if k = key then some value else get? rest k := by
  by_cases same : k = key
  · simp [get?, same]
  · have apart : (k == key) = false := by simpa using same
    simp [get?, List.lookup_cons, same, apart]

theorem get?_insert (table : Table α) (key : Nat) (value : α) (k : Nat) :
    get? (insert key value table) k = if k = key then some value else get? table k := by
  induction table with
  | nil => simp [insert, get?_cons]
  | cons entry rest ih =>
    obtain ⟨known, old⟩ := entry
    by_cases same : known = key
    · subst same
      by_cases asked : k = known <;> simp [insert, asked]
    · by_cases asked : k = known
      · subst asked
        simp [insert, same]
      · simp [insert, same, asked, ih]

theorem erase_cons (known : Nat) (old : α) (rest : Table α) (key : Nat) :
    erase ((known, old) :: rest) key = if known = key then erase rest key else (known, old) :: erase rest key := by
  by_cases same : known = key <;> simp [erase, same]

theorem get?_erase (table : Table α) (key k : Nat) :
    get? (erase table key) k = if k = key then none else get? table k := by
  induction table with
  | nil => simp [erase, get?]
  | cons entry rest ih =>
    obtain ⟨known, old⟩ := entry
    rw [erase_cons]
    by_cases same : known = key
    · subst same
      rw [if_pos rfl, ih]
      by_cases asked : k = known <;> simp [asked]
    · by_cases asked : k = known
      · subst asked
        simp [same]
      · simp [same, asked, ih]

theorem contains_eq (table : Table α) (key : Nat) : table.contains key = (table.get? key).isSome := by
  induction table with
  | nil => rfl
  | cons entry rest ih =>
    obtain ⟨known, value⟩ := entry
    have split : Table.contains ((known, value) :: rest) key = (decide (known = key) || Table.contains rest key) := rfl
    rw [split, ih, get?_cons]
    by_cases same : key = known
    · simp [same]
    · simp [same, Ne.symm same]

-- What is forgotten may have been anything.
theorem erase_insert (table : Table α) (key : Nat) (value : α) : erase (insert key value table) key = erase table key := by
  induction table with
  | nil => simp [insert, erase]
  | cons entry rest ih =>
    obtain ⟨known, old⟩ := entry
    by_cases same : known = key
    · simp [insert, same, erase_cons]
    · simp [insert, same, erase_cons, ih]

end Table

namespace Switches

variable (switches : Switches) (id k : Nat)

theorem state_opened : (switches.opened id).state k = if k = id then fresh else switches.state k := by
  unfold opened state
  rw [Table.get?_insert]
  split <;> rfl

theorem state_withCase : (switches.withCase id).state k =
    if k = id ∧ (switches.state id).hasDefault = false then { switches.state id with hasCase := true }
    else switches.state k := by
  unfold withCase
  rw [state, Table.get?_insert]
  by_cases same : k = id
  · subst same
    cases refused : (switches.state k).hasDefault <;> simp [refused]
  · simp [same, state]

theorem state_withDefault : (switches.withDefault id).state k =
    if k = id then { switches.state id with hasDefault := true } else switches.state k := by
  unfold withDefault
  rw [state, Table.get?_insert]
  split <;> rfl

theorem state_closed : (switches.closed id).state k = if k = id then fresh else switches.state k := by
  unfold closed state
  rw [Table.get?_erase]
  split <;> rfl

end Switches

end Stencil
