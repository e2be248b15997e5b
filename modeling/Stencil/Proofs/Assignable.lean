import Stencil.Proofs.Evaluation
import Stencil.Proofs.Fusion

-- Expressions that can be assigned to. The generated code assigns to the variables that it keeps values in, with keys in
-- brackets behind them. By its lexemes, the code of an expression is such a place just if the expression is a variable
-- other than the two truth values.

namespace Stencil

namespace Lexeme

def brackets : List String := ["(", ")", "[", "]", "\x7b", "\x7d"]

-- Each bracket is closed by one of its kind.
inductive Balanced : List String → Prop where
  | empty : Balanced []
  | plain {lexeme : String} {rest : List String} : lexeme ∉ brackets → Balanced rest → Balanced (lexeme :: rest)
  | round {inner rest : List String} : Balanced inner → Balanced rest → Balanced (bracketed inner ++ rest)
  | square {inner rest : List String} : Balanced inner → Balanced rest → Balanced (indexed inner ++ rest)

-- The variables of the closure that a template may assign to.
def roots : List String := ["$__children", "$__scope", "$__data"]

-- A variable of the template, or the children, with keys behind it.
inductive Assignable : List String → Prop where
  | children : Assignable ["$__children"]
  | stored {root : String} {key : List String} : root ∈ ["$__scope", "$__data"] → key ≠ [] → Balanced key →
    Assignable (root :: indexed key)
  | item {place key : List String} : Assignable place → key ≠ [] → Balanced key → Assignable (place ++ indexed key)

namespace Balanced

theorem single {lexeme : String} (other : lexeme ∉ brackets) : Balanced [lexeme] := .plain other .empty

theorem bracketed {inner : List String} (balanced : Balanced inner) : Balanced (bracketed inner) := by
  have whole := Balanced.round balanced .empty
  rwa [List.append_nil] at whole

theorem indexed {inner : List String} (balanced : Balanced inner) : Balanced (indexed inner) := by
  have whole := Balanced.square balanced .empty
  rwa [List.append_nil] at whole

theorem append {front back : List String} (first : Balanced front) (second : Balanced back) :
    Balanced (front ++ back) := by
  induction first with
  | empty => exact second
  | plain other _ ih => exact .plain other ih
  | round inner _ _ ih =>
    rw [List.append_assoc]
    exact .round inner ih
  | square inner _ _ ih =>
    rw [List.append_assoc]
    exact .square inner ih

-- Two operands with an operator or a separator between them.
theorem between {front back : List String} {sign : String} (first : Balanced front) (other : sign ∉ brackets)
    (second : Balanced back) : Balanced (front ++ sign :: back) :=
  first.append (.plain other second)

theorem intercalate {mark : String} (other : mark ∉ brackets) {all : List (List String)}
    (balanced : ∀ own ∈ all, Balanced own) : Balanced ([mark].intercalate all) := by
  induction all with
  | nil => exact .empty
  | cons own rest ih =>
    have first := balanced own List.mem_cons_self
    have others := ih fun own member => balanced own (List.mem_cons_of_mem _ member)
    cases rest with
    | nil => simpa using first
    | cons =>
      rw [List.intercalate_cons_cons, List.append_assoc]
      exact first.append (.plain other others)

theorem called {name : String} (other : name ∉ brackets) {args : List (List String)}
    (balanced : ∀ own ∈ args, Balanced own) : Balanced (called name args) :=
  .plain other (intercalate (by decide) balanced).bracketed

theorem safelyRead {place : List String} (balanced : Balanced place) : Balanced (safelyRead place) :=
  have tested : Balanced ("isset" :: Lexeme.bracketed place) := .plain (by decide) balanced.bracketed
  ((tested.between (by decide) balanced).between (by decide) (single (by decide))).bracketed

theorem tail {lexeme : String} {rest : List String} (balanced : Balanced (lexeme :: rest)) (other : lexeme ∉ brackets) :
    Balanced rest := by
  cases balanced with
  | plain _ behind => exact behind
  | round => exact absurd (by decide) other
  | square => exact absurd (by decide) other

theorem glued {own : List String} (balanced : Balanced own) : Balanced (glued own) := by
  induction own using glued.induct with
  | case1 rest ih => exact .plain (by decide) (ih (balanced.tail (by decide)))
  | case2 rest => exact .plain (by decide) (balanced.tail (by decide))
  | case3 own double single =>
    rw [Lexeme.glued]
    · exact .plain (by decide) balanced
    · exact double
    · exact single

end Balanced

section Outer

def depthAfter (depth : Nat) (lexeme : String) : Nat :=
  if lexeme ∈ ["(", "["] then depth + 1 else if lexeme ∈ [")", "]"] then depth - 1 else depth

-- The lexemes outside of all brackets, with the brackets that are opened there.
def outer : Nat → List String → List String
  | _, [] => []
  | 0, lexeme :: rest => lexeme :: outer (depthAfter 0 lexeme) rest
  | depth + 1, lexeme :: rest => outer (depthAfter (depth + 1) lexeme) rest

theorem depthAfter_plain {lexeme : String} (other : lexeme ∉ brackets) (depth : Nat) :
    depthAfter depth lexeme = depth := by
  simp only [brackets, List.mem_cons, List.not_mem_nil, or_false, not_or] at other
  simp [depthAfter, other]

theorem outer_inside {front : List String} (balanced : Balanced front) (depth : Nat) (back : List String) :
    outer (depth + 1) (front ++ back) = outer (depth + 1) back := by
  induction balanced generalizing depth back with
  | empty => rfl
  | plain other _ ih => rw [List.cons_append, outer, depthAfter_plain other, ih]
  | @round inner rest _ _ within behind =>
    calc outer (depth + 1) (bracketed inner ++ rest ++ back)
        = outer (depth + 1 + 1) (inner ++ (")" :: (rest ++ back))) := by simp [bracketed, outer, depthAfter]
      _ = outer (depth + 1) (rest ++ back) := by rw [within]; rfl
      _ = outer (depth + 1) back := behind depth back
  | @square inner rest _ _ within behind =>
    calc outer (depth + 1) (indexed inner ++ rest ++ back)
        = outer (depth + 1 + 1) (inner ++ ("]" :: (rest ++ back))) := by simp [indexed, outer, depthAfter]
      _ = outer (depth + 1) (rest ++ back) := by rw [within]; rfl
      _ = outer (depth + 1) back := behind depth back

theorem outer_bracketed {inner : List String} (balanced : Balanced inner) (back : List String) :
    outer 0 (bracketed inner ++ back) = "(" :: outer 0 back := by
  calc outer 0 (bracketed inner ++ back)
      = "(" :: outer 1 (inner ++ (")" :: back)) := by simp [bracketed, outer, depthAfter]
    _ = "(" :: outer 0 back := by rw [outer_inside balanced]; rfl

theorem outer_indexed {inner : List String} (balanced : Balanced inner) (back : List String) :
    outer 0 (indexed inner ++ back) = "[" :: outer 0 back := by
  calc outer 0 (indexed inner ++ back)
      = "[" :: outer 1 (inner ++ ("]" :: back)) := by simp [indexed, outer, depthAfter]
    _ = "[" :: outer 0 back := by rw [outer_inside balanced]; rfl

theorem outer_append {front : List String} (balanced : Balanced front) (back : List String) :
    outer 0 (front ++ back) = outer 0 front ++ outer 0 back := by
  induction balanced with
  | empty => rfl
  | plain other _ ih => rw [List.cons_append, outer, outer, depthAfter_plain other, ih, List.cons_append]
  | round inner _ _ behind =>
    rw [List.append_assoc, outer_bracketed inner, outer_bracketed inner, behind, List.cons_append]
  | square inner _ _ behind =>
    rw [List.append_assoc, outer_indexed inner, outer_indexed inner, behind, List.cons_append]

theorem outer_key {key : List String} (balanced : Balanced key) : outer 0 (indexed key) = ["["] := by
  have whole := outer_indexed balanced []
  rwa [List.append_nil] at whole

end Outer

theorem stored_not_mem_brackets {root : String} (stored : root ∈ ["$__scope", "$__data"]) : root ∉ brackets := by
  have apart : ∀ root ∈ ["$__scope", "$__data"], root ∉ brackets := by decide
  exact apart root stored

namespace Assignable

theorem balanced {place : List String} (assignable : Assignable place) : Balanced place := by
  induction assignable with
  | children => exact .single (by decide)
  | stored root _ key => exact .plain (stored_not_mem_brackets root) key.indexed
  | item _ _ key ih => exact ih.append key.indexed

theorem begins {place : List String} (assignable : Assignable place) :
    ∃ root ∈ roots, ∃ rest, place = root :: rest := by
  induction assignable with
  | children => exact ⟨_, by decide, [], rfl⟩
  | stored root => exact ⟨_, List.mem_cons_of_mem _ root, _, rfl⟩
  | item _ _ _ ih =>
    obtain ⟨root, member, rest, rfl⟩ := ih
    exact ⟨root, member, _, rfl⟩

-- Outside of brackets there is the variable and nothing else.
theorem mem_outer {place : List String} (assignable : Assignable place) {lexeme : String}
    (member : lexeme ∈ outer 0 place) : lexeme ∈ "[" :: roots := by
  induction assignable with
  | children =>
    rw [List.mem_singleton.mp member]
    decide
  | stored listed _ balanced =>
    rw [outer, depthAfter_plain (stored_not_mem_brackets listed), outer_key balanced] at member
    rcases List.mem_cons.mp member with rfl | member
    · exact List.mem_cons_of_mem _ (List.mem_cons_of_mem _ listed)
    · rw [List.mem_singleton.mp member]
      exact List.mem_cons_self
  | item before _ balanced ih =>
    rw [outer_append before.balanced, outer_key balanced] at member
    rcases List.mem_append.mp member with first | last
    · exact ih first
    · rw [List.mem_singleton.mp last]
      exact List.mem_cons_self

theorem keys {place : List String} (assignable : Assignable place) {keys : List (List String)}
    (operands : ∀ key ∈ keys, key ≠ [] ∧ Balanced key) : Assignable (place ++ keys.flatMap Lexeme.indexed) := by
  induction keys generalizing place with
  | nil => simpa using assignable
  | cons key rest ih =>
    obtain ⟨filled, balanced⟩ := operands key List.mem_cons_self
    rw [List.flatMap_cons, ← List.append_assoc]
    exact ih (assignable.item filled balanced) fun key member => operands key (List.mem_cons_of_mem _ member)

end Assignable

theorem not_assignable_of_begins {first : String} (other : first ∉ roots) (rest : List String) :
    ¬ Assignable (first :: rest) := by
  intro assignable
  obtain ⟨root, member, _, same⟩ := assignable.begins
  cases same
  exact other member

theorem not_assignable_of_outer {front : List String} (balanced : Balanced front) {sign : String}
    (other : sign ∉ "[" :: roots) (back : List String) : ¬ Assignable (front ++ sign :: back) := by
  intro assignable
  refine other (assignable.mem_outer ?_)
  rw [outer_append balanced]
  exact List.mem_append_right _ List.mem_cons_self

section Words

def bracketChars : List Char := ['(', ')', '[', ']', '\x7b', '\x7d']

theorem not_mem_brackets {lexeme : String} {c : Char} {own : List Char} (chars : lexeme.toList = c :: own)
    (other : c ∉ bracketChars) : lexeme ∉ brackets := by
  intro member
  have heads : ∀ bracket ∈ brackets, bracket.toList.head? ∈ bracketChars.map some := by decide
  have head := heads lexeme member
  rw [chars, List.head?_cons, List.mem_map] at head
  obtain ⟨bracket, listed, same⟩ := head
  exact other (Option.some.inj same ▸ listed)

theorem quoted_begin (text : String) : ∃ own, (Text.quoted text).toList = '"' :: own :=
  ⟨_, by simp [Text.quoted]; rfl⟩

theorem quoted_not_mem_brackets (text : String) : Text.quoted text ∉ brackets := by
  obtain ⟨own, chars⟩ := quoted_begin text
  exact not_mem_brackets chars (by decide)

theorem begins_of_isWord {name : String} (named : isWord name.toList = true) :
    ∃ c own, name.toList = c :: own ∧ Literal.beginsName c = true := by
  cases chars : name.toList with
  | nil =>
    rw [chars] at named
    cases named
  | cons c own =>
    rw [chars, isWord, Bool.and_eq_true] at named
    exact ⟨c, own, rfl, named.1⟩

theorem word_not_mem_brackets {name : String} (named : isWord name.toList = true) : name ∉ brackets := by
  obtain ⟨c, own, chars, begun⟩ := begins_of_isWord named
  refine not_mem_brackets chars fun member => ?_
  have apart : Literal.beginsName c = false := eq_false_of_all (by decide) member
  rw [apart] at begun
  cases begun

theorem not_mem_roots {lexeme : String} {c : Char} {own : List Char} (chars : lexeme.toList = c :: own)
    (other : c ≠ '$') : lexeme ∉ roots := by
  intro member
  have dollar : ∀ root ∈ roots, root.toList.head? = some '$' := by decide
  have head := dollar lexeme member
  rw [chars, List.head?_cons] at head
  exact other (Option.some.inj head)

theorem word_not_mem_roots {name : String} (named : isWord name.toList = true) : name ∉ roots := by
  obtain ⟨c, own, chars, begun⟩ := begins_of_isWord named
  refine not_mem_roots chars ?_
  rintro rfl
  cases begun

theorem glued_begin (own : List String) : ∃ first rest, glued own = first :: rest ∧ first ∉ roots := by
  unfold glued
  split <;> exact ⟨_, _, rfl, by decide⟩

theorem Spells.ne_nil {text : List Char} {lexemes : List String} (spells : Spells text lexemes) : lexemes ≠ [] := by
  cases spells with
  | plain lexes =>
    obtain ⟨first, rest, rfl, _⟩ := lexes.unsigned
    exact List.cons_ne_nil _ _
  | @minus _ own =>
    obtain ⟨first, rest, same, _⟩ := glued_begin own
    rw [same]
    exact List.cons_ne_nil _ _

end Words

end Lexeme

open Lexeme (Balanced Assignable bracketed indexed glued called safelyRead)

namespace Builtin

theorem balanced_getD {all : List (List String)} (balanced : ∀ own ∈ all, Balanced own) (i : Nat) {other : List String}
    (missing : Balanced other) : Balanced (all.getD i other) := by
  rw [List.getD_eq_getElem?_getD]
  cases found : all[i]? with
  | none => exact missing
  | some own => exact balanced own (List.mem_of_getElem? found)

theorem balanced_splitLexemes {all : List (List String)} (balanced : ∀ own ∈ all, Balanced own) (raw : List Expr) :
    Balanced (splitLexemes all raw) := by
  have blank : Balanced ["\"\""] := .single (by decide)
  have held : Balanced [separator] := .single (by decide)
  have subject := balanced_getD balanced 0 blank
  have between := balanced_getD balanced 1 blank
  have chars : Balanced (called "mb_str_split" [all.getD 0 ["\"\""]]) :=
    .called (by decide) (List.forall_mem_singleton.mpr subject)
  have pieces {first : List String} (own : Balanced first) :
      Balanced (called "explode" [first, all.getD 0 ["\"\""]]) :=
    .called (by decide) (List.forall_mem_cons.mpr ⟨own, List.forall_mem_singleton.mpr subject⟩)
  unfold splitLexemes
  split
  · exact chars
  · split
    · exact chars
    · exact pieces between
  · have stored : Balanced (bracketed ([separator] ++ "=" :: all.getD 1 ["\"\""])) :=
      (held.between (by decide) between).bracketed
    exact (((stored.between (by decide) blank).between (by decide) chars).between (by decide) (pieces held)).bracketed

theorem balanced_lexemes {name : String} {builtin : Builtin} (known : lookup? name = some builtin)
    {all : List (List String)} (balanced : ∀ own ∈ all, Balanced own) (raw : List Expr) :
    Balanced (builtin.lexemes all raw) := by
  have named := isNamed_of_lookup? known
  have missing : Balanced ["NULL"] := .single (by decide)
  have given (i : Nat) {other : List String} (own : Balanced other) := balanced_getD balanced i own
  have zero : Balanced ["0"] := .single (by decide)
  have list : Balanced ["[", "]"] := Balanced.empty.indexed
  cases builtin with
  | rename target => exact .called (Lexeme.word_not_mem_brackets named) balanced
  | renameWith target last =>
    simp only [isNamed, Bool.and_eq_true, Bool.or_eq_true, decide_eq_true_eq] at named
    refine .called (Lexeme.word_not_mem_brackets named.1) (List.forall_mem_append.mpr ⟨balanced, ?_⟩)
    refine List.forall_mem_singleton.mpr (.single ?_)
    rcases named.2 with rfl | word
    · decide
    · exact Lexeme.word_not_mem_brackets word.1
  | classes => exact .called (by decide) balanced
  | substring =>
    have padded (own : List String) (member : own ∈ List.replicate (3 - all.length) ["NULL"]) : Balanced own := by
      rw [List.eq_of_mem_replicate member]
      exact missing
    refine .called (by decide) (List.forall_mem_append.mpr ⟨List.forall_mem_append.mpr ⟨balanced, padded⟩, ?_⟩)
    exact List.forall_mem_singleton.mpr (.single (by decide))
  | replace =>
    refine .called (by decide) ?_
    simpa using ⟨given 1 missing, given 2 missing, given 0 missing⟩
  | split => exact balanced_splitLexemes balanced raw
  | format =>
    have point : Balanced ["\".\""] := .single (by decide)
    refine .called (by decide) ?_
    simpa using ⟨given 0 missing, given 1 zero, given 2 point⟩
  | contains =>
    have searched : Balanced (called "array_search" [all.getD 1 ["NULL"], all.getD 0 ["[", "]"]]) := by
      refine .called (by decide) ?_
      simpa using ⟨given 1 missing, given 0 list⟩
    exact (searched.between (by decide) (.single (by decide))).bracketed
  | join =>
    have blank : Balanced ["\"\""] := .single (by decide)
    refine .called (by decide) ?_
    simpa using ⟨given 1 blank, given 0 list⟩
  | round => exact .called (by decide) (List.forall_mem_singleton.mpr (given 0 zero))
  | random =>
    have drawn (name : String) (other : name ∉ Lexeme.brackets) : Balanced ("(float)" :: called name []) :=
      .plain (by decide) (.called other (List.forall_mem_nil _))
    exact ((drawn "rand" (by decide)).between (by decide) (drawn "getrandmax" (by decide))).bracketed

-- A call by name begins with the name of a function or with a bracket.
theorem lexemes_begin {name : String} {builtin : Builtin} (known : lookup? name = some builtin)
    (all : List (List String)) (raw : List Expr) : ∃ first rest, builtin.lexemes all raw = first :: rest ∧ first ∉ Lexeme.roots := by
  have named := isNamed_of_lookup? known
  cases builtin with
  | rename target => exact ⟨_, _, rfl, Lexeme.word_not_mem_roots named⟩
  | renameWith target last =>
    simp only [isNamed, Bool.and_eq_true] at named
    exact ⟨_, _, rfl, Lexeme.word_not_mem_roots named.1⟩
  | split =>
    simp only [lexemes, splitLexemes]
    split
    · exact ⟨_, _, rfl, by decide⟩
    · split <;> exact ⟨_, _, rfl, by decide⟩
    · exact ⟨_, _, rfl, by decide⟩
  | _ => exact ⟨_, _, rfl, by decide⟩

end Builtin

namespace Expr

variable {scope : Scope}

theorem balanced_varLexemes {root : String} (other : root ∉ Lexeme.brackets) (name : String) {keys : List (List String)}
    (balanced : ∀ key ∈ keys, Balanced key) : Balanced (varLexemes root name keys) := by
  have bracketed : Balanced (keys.flatMap indexed) := by
    induction keys with
    | nil => exact .empty
    | cons key rest ih =>
      rw [List.flatMap_cons]
      obtain ⟨first, others⟩ := List.forall_mem_cons.mp balanced
      exact .square first (ih others)
  unfold varLexemes
  split
  · rename_i truth
    simp only [Bool.and_eq_true, Bool.or_eq_true, decide_eq_true_eq] at truth
    rcases truth.1 with rfl | rfl <;> exact .single (by decide)
  · refine Balanced.append ?_ bracketed
    split
    · exact .single (by decide)
    · exact .plain other (Balanced.single (Lexeme.quoted_not_mem_brackets name)).indexed

theorem root_not_mem_brackets (root : Root) : root.text ∉ Lexeme.brackets := by
  cases root <;> decide

theorem balanced_unaryLexemes (op : UnaryOp) {value : List String} (balanced : Balanced value) :
    Balanced (unaryLexemes glued op value) := by
  cases op with
  | not => exact .plain (by decide) balanced
  | bitNot => exact .plain (by decide) balanced
  | minus => exact balanced.glued
  | brackets => exact balanced.bracketed

theorem balanced_zipWith {all : List (List String)} (balanced : ∀ own ∈ all, Balanced own) (raw : List Expr) :
    ∀ own ∈ List.zipWith (fun arg own => if isStored arg then safelyRead own else own) raw all, Balanced own := by
  induction all generalizing raw with
  | nil => simp
  | cons first rest ih =>
    obtain ⟨before, behind⟩ := List.forall_mem_cons.mp balanced
    cases raw with
    | nil => exact nofun
    | cons arg raw =>
      refine List.forall_mem_cons.mpr ⟨?_, ih behind raw⟩
      beta_reduce
      split
      · exact before.safelyRead
      · exact before

theorem balanced_callLexemes {name : String} (named : Lexeme.isWord name.toList = true) {all : List (List String)}
    (balanced : ∀ own ∈ all, Balanced own) (raw : List Expr) : Balanced (callLexemes name all raw) := by
  cases known : Builtin.lookup? name with
  | none =>
    simp only [callLexemes, known]
    exact .called (Lexeme.word_not_mem_brackets named) balanced
  | some builtin =>
    cases builtin with
    | classes =>
      simp only [callLexemes, known]
      exact .called (by decide) (balanced_zipWith balanced raw)
    | _ =>
      simp only [callLexemes, known]
      exact Builtin.balanced_lexemes known balanced raw

theorem figures_not_mem_brackets {figures : List Char} (known : Number.Unsigned figures) :
    String.ofList figures ∉ Lexeme.brackets := by
  cases figures with
  | nil => cases known.1
  | cons c own =>
    refine Lexeme.not_mem_brackets String.toList_ofList fun member => ?_
    have digit : c.isDigit = true := known.1
    have apart : c.isDigit = false := Lexeme.eq_false_of_all (by decide) member
    rw [apart] at digit
    cases digit

theorem balanced_number (value : Number) : Balanced value.lexemes := by
  obtain ⟨figures, known, written | written⟩ := value.unsigned_text
  · unfold Number.lexemes
    rw [written]
    split
    · cases known.1
    · exact .single (figures_not_mem_brackets known)
  · unfold Number.lexemes
    rw [written]
    exact .plain (by decide) (.single (figures_not_mem_brackets known))

mutual

theorem balanced_lexemes : ∀ {e : Expr}, Regular e → Balanced (e.lexemes scope glued)
  | .var name keys, regular =>
    balanced_varLexemes (root_not_mem_brackets _) name (balanced_allLexemes fun part member => regular.part member)
  | .const text, regular => by
    have known : ∀ text ∈ ["true", "false", "null"], text ∉ Lexeme.brackets := by decide
    exact .single (known text (regular.consts text .here))
  | .str text, _ => .single (Lexeme.quoted_not_mem_brackets text)
  | .num value, _ => balanced_number value
  | .binary op left right, regular => by
    have before := balanced_lexemes (regular.part (show left ∈ parts _ by simp [parts]))
    have after := balanced_lexemes (regular.part (show right ∈ parts _ by simp [parts]))
    exact before.between (by cases op <;> decide) after
  | .unary op value, regular =>
    balanced_unaryLexemes op (balanced_lexemes (regular.part (show value ∈ parts _ by simp [parts])))
  | .isset value, regular =>
    .plain (by decide) (balanced_lexemes (regular.part (show value ∈ parts _ by simp [parts]))).bracketed
  | .ternary condition consequent alternate, regular => by
    have test := balanced_lexemes (regular.part (show condition ∈ parts _ by simp [parts]))
    have met := balanced_lexemes (regular.part (show consequent ∈ parts _ by simp [parts]))
    have unmet := balanced_lexemes (regular.part (show alternate ∈ parts _ by simp [parts]))
    exact ((test.between (by decide) met).between (by decide) unmet).bracketed
  | .concat values, regular =>
    .intercalate (by decide) (balanced_allLexemes fun part member => regular.part member)
  | .array entries, regular =>
    (Balanced.intercalate (by decide) (balanced_entryLexemes fun part member => regular.part member)).indexed
  | .range kind start stop, regular => by
    have before := balanced_lexemes (regular.part (show start ∈ parts _ by simp [parts]))
    have after := balanced_lexemes (regular.part (show stop ∈ parts _ by simp [parts]))
    have mode : Balanced [rangeMode kind] := .single (by cases kind <;> decide)
    refine .called (by decide) ?_
    simpa using ⟨before, after, mode⟩
  | .call callee args, regular => by
    have balanced := balanced_allLexemes fun part (member : part ∈ args) =>
      regular.part (List.mem_cons_of_mem _ member)
    rw [lexemes]
    cases named : callee.bare? with
    | some name =>
      obtain rfl := eq_of_bare? named
      exact balanced_callLexemes (regular.names name args .here) balanced args
    | none =>
      have before := balanced_lexemes (regular.part (List.mem_cons_self (a := callee)))
      exact before.append (Balanced.intercalate (by decide) balanced).bracketed
  | .unsupported, _ => .empty

theorem balanced_allLexemes : ∀ {values : List Expr}, (∀ value ∈ values, Regular value) →
    ∀ own ∈ allLexemes scope glued values, Balanced own
  | [], _ => nofun
  | value :: rest, regular => by
    rw [allLexemes]
    exact List.forall_mem_cons.mpr ⟨balanced_lexemes (regular value List.mem_cons_self),
      balanced_allLexemes fun value member => regular value (List.mem_cons_of_mem _ member)⟩

theorem balanced_entryLexemes {numbered : Bool} : ∀ {entries : List Entry} {next : Nat},
    (∀ value ∈ entries.flatMap Entry.parts, Regular value) →
    ∀ own ∈ entryLexemes scope glued numbered next entries, Balanced own
  | [], _, _ => nofun
  | .plain value :: rest, next, regular => by
    have first := balanced_lexemes (regular value (by simp [Entry.parts]))
    have others (part : Expr) (member : part ∈ rest.flatMap Entry.parts) : Regular part :=
      regular part (by simp [List.flatMap_cons, member])
    rw [entryLexemes]
    split
    · refine List.forall_mem_cons.mpr ⟨.plain ?_ (.plain (by decide) first), balanced_entryLexemes others⟩
      have figures := figures_not_mem_brackets (Number.unsigned_toString next)
      rwa [String.ofList_toList] at figures
    · exact List.forall_mem_cons.mpr ⟨first, balanced_entryLexemes others⟩
  | .keyed key value :: rest, next, regular => by
    have before := balanced_lexemes (regular key (by simp [Entry.parts]))
    have after := balanced_lexemes (regular value (by simp [Entry.parts]))
    rw [entryLexemes]
    exact List.forall_mem_cons.mpr ⟨before.between (by decide) after,
      balanced_entryLexemes fun part member => regular part (by simp [List.flatMap_cons, member])⟩

end

theorem callLexemes_begin {name : String} (named : Lexeme.isWord name.toList = true) (all : List (List String))
    (raw : List Expr) : ∃ first rest, callLexemes name all raw = first :: rest ∧ first ∉ Lexeme.roots := by
  cases known : Builtin.lookup? name with
  | none => exact ⟨name, _, by simp only [callLexemes, known]; rfl, Lexeme.word_not_mem_roots named⟩
  | some builtin =>
    cases builtin with
    | classes => exact ⟨"classes", _, by simp only [callLexemes, known]; rfl, by decide⟩
    | _ =>
      simp only [callLexemes, known]
      exact Builtin.lexemes_begin known all raw

theorem number_begin (value : Number) : ∃ first rest, value.lexemes = first :: rest ∧ first ∉ Lexeme.roots := by
  unfold Number.lexemes
  split
  · exact ⟨_, _, rfl, by decide⟩
  · obtain ⟨figures, known, written | written⟩ := value.unsigned_text
    · rw [written]
      cases figures with
      | nil => cases known.1
      | cons c own =>
        refine ⟨_, _, rfl, Lexeme.not_mem_roots String.toList_ofList ?_⟩
        rintro rfl
        cases known.1
    · rename_i other
      exact absurd written (other figures)

theorem operands_allLexemes {values : List Expr} (regular : ∀ value ∈ values, Regular value) :
    ∀ own ∈ allLexemes scope glued values, own ≠ [] ∧ Balanced own := by
  induction values with
  | nil => exact nofun
  | cons value rest ih =>
    obtain ⟨first, others⟩ := List.forall_mem_cons.mp regular
    obtain ⟨code, _, spells⟩ := @spells_operand scope value first
    exact List.forall_mem_cons.mpr ⟨⟨spells.ne_nil, balanced_lexemes first⟩, ih others⟩

theorem assignable_varLexemes {root : String} (stored : root ∈ ["$__scope", "$__data"]) (name : String)
    {keys : List Expr} (regular : ∀ key ∈ keys, Regular key) :
    Assignable (varLexemes root name (allLexemes scope glued keys)) ↔ (Expr.var name keys).isPlace = true := by
  have empty : (allLexemes scope glued keys).isEmpty = keys.isEmpty := by cases keys <;> rfl
  rw [varLexemes, empty, isPlace]
  cases truth : (decide (name = "true") || decide (name = "false")) && keys.isEmpty with
  | true =>
    simp only [Bool.and_eq_true, Bool.or_eq_true, decide_eq_true_eq] at truth
    refine iff_of_false ?_ Bool.false_ne_true
    rcases truth.1 with rfl | rfl <;> exact Lexeme.not_assignable_of_begins (by decide) []
  | false =>
    refine iff_of_true (Assignable.keys ?_ (operands_allLexemes regular)) rfl
    split
    · exact .children
    · exact .stored stored (List.cons_ne_nil _ _) (.single (Lexeme.quoted_not_mem_brackets name))

-- What stands first, or an operator outside of all brackets, tells that the code is no place.
theorem assignable_lexemes : ∀ {e : Expr}, Regular e → (Assignable (e.lexemes scope glued) ↔ e.isPlace = true)
  | .var name keys, regular =>
    assignable_varLexemes (by cases scope.root name <;> decide) name fun key member => regular.part member
  | .concat [], regular => absurd .here regular.filled
  | .concat [value], regular => by
    show Assignable (["."].intercalate [value.lexemes scope glued]) ↔ value.isPlace = true
    rw [List.intercalate_singleton]
    exact assignable_lexemes (regular.part List.mem_cons_self)
  | .concat (first :: second :: rest), regular => by
    refine iff_of_false ?_ Bool.false_ne_true
    have before : Balanced (first.lexemes scope glued) := balanced_lexemes (regular.part List.mem_cons_self)
    rw [lexemes, allLexemes, allLexemes, List.intercalate_cons_cons, List.append_assoc]
    exact Lexeme.not_assignable_of_outer before (by decide) _
  | .const text, regular => by
    have known : ∀ text ∈ ["true", "false", "null"], text ∉ Lexeme.roots := by decide
    exact iff_of_false (Lexeme.not_assignable_of_begins (known text (regular.consts text .here)) []) Bool.false_ne_true
  | .str text, _ => by
    obtain ⟨own, chars⟩ := Lexeme.quoted_begin text
    exact iff_of_false (Lexeme.not_assignable_of_begins (Lexeme.not_mem_roots chars (by decide)) []) Bool.false_ne_true
  | .num value, _ => by
    obtain ⟨first, rest, same, other⟩ := number_begin value
    rw [lexemes, same]
    exact iff_of_false (Lexeme.not_assignable_of_begins other rest) Bool.false_ne_true
  | .binary op left right, regular => by
    have before : Balanced (left.lexemes scope glued) := balanced_lexemes (regular.part List.mem_cons_self)
    refine iff_of_false (Lexeme.not_assignable_of_outer before ?_ _) Bool.false_ne_true
    cases op <;> decide
  | .unary op value, _ => by
    refine iff_of_false ?_ Bool.false_ne_true
    rw [lexemes]
    cases op with
    | minus =>
      obtain ⟨first, rest, same, other⟩ := Lexeme.glued_begin (value.lexemes scope glued)
      rw [unaryLexemes, same]
      exact Lexeme.not_assignable_of_begins other rest
    | _ => exact Lexeme.not_assignable_of_begins (by decide) _
  | .isset _, _ => iff_of_false (Lexeme.not_assignable_of_begins (by decide) _) Bool.false_ne_true
  | .ternary _ _ _, _ => iff_of_false (Lexeme.not_assignable_of_begins (by decide) _) Bool.false_ne_true
  | .array _, _ => iff_of_false (Lexeme.not_assignable_of_begins (by decide) _) Bool.false_ne_true
  | .range _ _ _, _ => iff_of_false (Lexeme.not_assignable_of_begins (by decide) _) Bool.false_ne_true
  | .call callee args, regular => by
    refine iff_of_false ?_ Bool.false_ne_true
    rw [lexemes]
    cases named : callee.bare? with
    | some name =>
      obtain rfl := eq_of_bare? named
      obtain ⟨first, rest, same, other⟩ :=
        callLexemes_begin (regular.names name args .here) (allLexemes scope glued args) args
      simp only [same]
      exact Lexeme.not_assignable_of_begins other rest
    | none =>
      have before : Balanced (callee.lexemes scope glued) := balanced_lexemes (regular.part List.mem_cons_self)
      exact Lexeme.not_assignable_of_outer before (by decide) _
  | .unsupported, regular => absurd .here regular.supported

-- As the target of an assignment or of a parameter.
theorem assignable_emitted {context : Context} (targeted : context ≠ .value) {e : Expr} (regular : Regular e) :
    Assignable (e.emitted scope glued context) ↔ e.isPlace = true := by
  unfold emitted
  split
  · exact absurd rfl targeted
  · exact assignable_varLexemes (by decide) _ fun key member => regular.part member
  · exact assignable_lexemes regular

end Expr

end Stencil
