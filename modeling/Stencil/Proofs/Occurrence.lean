import Stencil.Proofs.WellFormed

-- What the code of an expression depends on. It fails just if an unsupported expression occurs anywhere in it, also where
-- the code of a part would not be used. The scope has no part in it; what happens to the scope is told by the context and
-- by the expression itself, and not by its parts.

namespace Stencil

def Entry.parts : Entry → List Expr
  | .plain value => [value]
  | .keyed key value => [key, value]

theorem Entry.sizeOf_part {entry : Entry} {part : Expr} (member : part ∈ entry.parts) : sizeOf part < sizeOf entry := by
  cases entry with
  | plain value =>
    obtain rfl : part = value := by simpa [Entry.parts] using member
    simp only [Entry.plain.sizeOf_spec]
    omega
  | keyed key value =>
    simp only [Entry.keyed.sizeOf_spec]
    rcases (by simpa [Entry.parts] using member : part = key ∨ part = value) with rfl | rfl <;> omega

namespace Expr

-- The expressions that an expression is made of.
def parts : Expr → List Expr
  | .var _ keys => keys
  | .const _ => []
  | .str _ => []
  | .num _ => []
  | .binary _ left right => [left, right]
  | .unary _ value => [value]
  | .isset value => [value]
  | .ternary condition consequent alternate => [condition, consequent, alternate]
  | .concat values => values
  | .array entries => entries.flatMap Entry.parts
  | .range _ start stop => [start, stop]
  | .call callee args => callee :: args
  | .unsupported => []

-- An expression occurs in another if it is that other one, or occurs in one of its parts.
inductive Occurs (inner : Expr) : Expr → Prop where
  | here : Occurs inner inner
  | inside {e part : Expr} : part ∈ e.parts → Occurs inner part → Occurs inner e

theorem sizeOf_part {e part : Expr} (member : part ∈ e.parts) : sizeOf part < sizeOf e := by
  cases e with
  | var name keys =>
    have less : sizeOf part < sizeOf keys := List.sizeOf_lt_of_mem member
    simp only [var.sizeOf_spec]
    omega
  | binary op left right =>
    simp only [binary.sizeOf_spec]
    rcases (by simpa [parts] using member : part = left ∨ part = right) with rfl | rfl <;> omega
  | unary op value =>
    obtain rfl : part = value := by simpa [parts] using member
    simp only [unary.sizeOf_spec]
    omega
  | isset value =>
    obtain rfl : part = value := by simpa [parts] using member
    simp only [isset.sizeOf_spec]
    omega
  | ternary condition consequent alternate =>
    simp only [ternary.sizeOf_spec]
    have which : part = condition ∨ part = consequent ∨ part = alternate := by simpa [parts] using member
    rcases which with rfl | rfl | rfl <;> omega
  | concat values =>
    have less : sizeOf part < sizeOf values := List.sizeOf_lt_of_mem member
    simp only [concat.sizeOf_spec]
    omega
  | array entries =>
    obtain ⟨entry, listed, own⟩ := List.mem_flatMap.mp member
    have less := List.sizeOf_lt_of_mem listed
    have inside := Entry.sizeOf_part own
    simp only [array.sizeOf_spec]
    omega
  | range kind start stop =>
    simp only [range.sizeOf_spec]
    rcases (by simpa [parts] using member : part = start ∨ part = stop) with rfl | rfl <;> omega
  | call callee args =>
    simp only [call.sizeOf_spec]
    rcases List.mem_cons.mp member with rfl | listed
    · omega
    · have less := List.sizeOf_lt_of_mem listed
      omega
  | _ => cases member

section Support

theorem allSupported_eq (values : List Expr) : allSupported values = values.all isSupported := by
  induction values with
  | nil => rfl
  | cons first rest ih => rw [allSupported, ih, List.all_cons]

theorem entriesSupported_eq (entries : List Entry) :
    entriesSupported entries = (entries.flatMap Entry.parts).all isSupported := by
  induction entries with
  | nil => rfl
  | cons first rest ih =>
    rw [List.flatMap_cons, List.all_append, ← ih]
    cases first with
    | plain value => rw [entriesSupported, Entry.parts, List.all_cons, List.all_nil, Bool.and_true]
    | keyed key value => rw [entriesSupported, Entry.parts, List.all_cons, List.all_cons, List.all_nil, Bool.and_true]

-- Only the unsupported expression is not told by its parts.
theorem isSupported_eq {e : Expr} (other : e ≠ .unsupported) : e.isSupported = e.parts.all isSupported := by
  cases e with
  | unsupported => exact absurd rfl other
  | var name keys => exact allSupported_eq keys
  | concat values => exact allSupported_eq values
  | array entries => exact entriesSupported_eq entries
  | call callee args => rw [isSupported, allSupported_eq, parts, List.all_cons]
  | _ => simp [isSupported, parts, Bool.and_assoc]

theorem Occurs.spoils {e : Expr} (occurs : Occurs .unsupported e) : e.isSupported = false := by
  induction occurs with
  | here => rfl
  | @inside e part member _ ih =>
    have other : e ≠ .unsupported := by
      rintro rfl
      cases member
    rw [isSupported_eq other, List.all_eq_false]
    exact ⟨part, member, by rw [ih]; exact Bool.false_ne_true⟩

theorem occurs_of_spoilt (e : Expr) (spoilt : e.isSupported = false) : Occurs .unsupported e := by
  by_cases here : e = .unsupported
  · rw [here]
    exact .here
  · rw [isSupported_eq here, List.all_eq_false] at spoilt
    obtain ⟨part, member, unsupported⟩ := spoilt
    have smaller := sizeOf_part member
    exact .inside member (occurs_of_spoilt part (by simpa using unsupported))
termination_by sizeOf e

theorem emit?_eq_none (context : Context) (e : Expr) : e.emit? context = none ↔ Occurs .unsupported e := by
  rw [← Option.not_isSome_iff_eq_none, isSome_emit?, Bool.not_eq_true]
  exact ⟨occurs_of_spoilt e, Occurs.spoils⟩

-- The lowered call has no arguments, but they count.
example : (call (.var "num_rand" []) [.isset .unsupported]).emit? .value = none := by decide +kernel

end Support

-- As the target of an assignment, a variable without keys is made local. The reserved names are no variables.
def Promotes (context : Context) (e : Expr) (name : String) : Prop :=
  context = .target true ∧ e = .var name [] ∧ name ∉ ["children", "true", "false"]

theorem promoted?_eq_some {context : Context} {e : Expr} {name : String} :
    e.promoted? context = some name ↔ e.Promotes context name := by
  unfold promoted? Promotes
  constructor
  · intro promoted
    split at promoted
    · rename_i found bare
      split at promoted
      · cases promoted
      · rename_i free
        cases promoted
        refine ⟨rfl, eq_of_bare? bare, ?_⟩
        simpa [isReserved, or_assoc] using free
    · cases promoted
  · rintro ⟨rfl, rfl, free⟩
    have unreserved : isReserved name = false := by simpa [isReserved, and_assoc] using free
    simp [bare?, unreserved]

end Expr

namespace Scope

theorem isLocal_after (s : Scope) (context : Expr.Context) (e : Expr) (name : String) :
    (s.after context e).isLocal name = true ↔ s.isLocal name = true ∨ e.Promotes context name := by
  rw [← Expr.promoted?_eq_some, after]
  cases e.promoted? context with
  | none => simp
  | some promoted =>
    rw [isLocal_promote, Bool.or_eq_true, beq_iff_eq, Option.some.injEq, or_comm]
    exact or_congr_right eq_comm

theorem after_eq {context : Expr.Context} {e : Expr} (quiet : ∀ name, ¬ e.Promotes context name) (s : Scope) :
    s.after context e = s := by
  unfold after
  split
  · rename_i name promoted
    exact absurd (Expr.promoted?_eq_some.mp promoted) (quiet name)
  · rfl

end Scope

namespace Walk

-- The code of an expression is the same in every session, and there is none just if something unsupported occurs in the
-- expression. Either way, the session afterwards differs at most in the name that the expression makes local.
theorem run_expr (context : Expr.Context) (e : Expr) (location : Location) :
    ∃ found : Option Code, (found = none ↔ Expr.Occurs .unsupported e) ∧
      ∀ s : Session, ∃ scope : Scope,
        (expr context e location).run.run s =
          (found.elim (.error ⟨.unsupportedExpression, s.file.text, location⟩) .ok, { s with scope := scope }) ∧
        (∀ name, scope.isLocal name = true ↔ s.scope.isLocal name = true ∨ e.Promotes context name) ∧
        ((∀ name, ¬ e.Promotes context name) → scope = s.scope) := by
  refine ⟨e.emit? context, e.emit?_eq_none context, ?_⟩
  intro s
  refine ⟨s.scope.after context e, ?_, s.scope.isLocal_after context e, fun quiet => s.scope.after_eq quiet⟩
  unfold expr
  cases e.emit? context <;> rfl

end Walk

end Stencil
