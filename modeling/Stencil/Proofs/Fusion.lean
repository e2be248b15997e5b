import Stencil.Proofs.Apart
import Stencil.Proofs.Occurrence
import Mathlib.Data.List.Forall2

-- The lexemes of expressions. An expression adds its operators, brackets and separators to the lexemes of its parts, and
-- the text of its code is split into just these lexemes. The exception is a minus sign before an operand whose text begins
-- with another one.

namespace Stencil

open Lexeme (bracketed indexed glued)

namespace Lexeme

def called (name : String) (args : List (List String)) : List String := name :: bracketed ([","].intercalate args)

def safelyRead (place : List String) : List String :=
  bracketed ("isset" :: bracketed place ++ "?" :: place ++ ":" :: [Text.quoted ""])

end Lexeme

open Lexeme (called safelyRead)

namespace Builtin

def splitLexemes (args : List (List String)) (raw : List Expr) : List String :=
  let subject := args.getD 0 ["\"\""]
  let between := args.getD 1 ["\"\""]
  match (raw[1]? : Option Expr) with
  | none => called "mb_str_split" [subject]
  | some (.str text) => if text = "" then called "mb_str_split" [subject] else called "explode" [between, subject]
  | some _ =>
    bracketed (bracketed ([separator] ++ "=" :: between) ++ "===" :: ["\"\""] ++
      "?" :: called "mb_str_split" [subject] ++ ":" :: called "explode" [[separator], subject])

def lexemes (builtin : Builtin) (args : List (List String)) (raw : List Expr) : List String :=
  match builtin with
  | .rename target => called target args
  | .renameWith target last => called target (args ++ [[last]])
  | .classes => called "classes" args
  | .substring => called "mb_substr" (args ++ List.replicate (3 - args.length) ["NULL"] ++ [["'UTF-8'"]])
  | .replace => called "str_replace" [args.getD 1 ["NULL"], args.getD 2 ["NULL"], args.getD 0 ["NULL"]]
  | .split => splitLexemes args raw
  | .format => called "toFixed" [args.getD 0 ["NULL"], args.getD 1 ["0"], args.getD 2 ["\".\""]]
  | .contains => bracketed (called "array_search" [args.getD 1 ["NULL"], args.getD 0 ["[", "]"]] ++ "!==" :: ["false"])
  | .join => called "implode" [args.getD 1 ["\"\""], args.getD 0 ["[", "]"]]
  | .round => called "round" [args.getD 0 ["0"]]
  | .random => bracketed ("(float)" :: called "rand" [] ++ "/" :: "(float)" :: called "getrandmax" [])

end Builtin

namespace Expr

def varLexemes (root : String) (name : String) (keys : List (List String)) : List String :=
  if (name = "true" || name = "false") && keys.isEmpty then [name]
  else (if name = "children" then ["$__children"] else root :: indexed [Text.quoted name]) ++ keys.flatMap indexed

def callLexemes (name : String) (args : List (List String)) (raw : List Expr) : List String :=
  match Builtin.lookup? name with
  | some .classes => called "classes" (List.zipWith (fun arg own => if arg.isStored then safelyRead own else own) raw args)
  | some builtin => builtin.lexemes args raw
  | none => called name args

-- With a minus sign in front of them.
def unaryLexemes (minus : List String → List String) (op : UnaryOp) (value : List String) : List String :=
  match op with
  | .not => "!" :: value
  | .bitNot => "~" :: value
  | .minus => minus value
  | .brackets => bracketed value

section Lexemes

variable (scope : Scope) (minus : List String → List String)

mutual

-- The lexemes of an expression, by those of its parts. What a minus sign makes of the lexemes behind it is left open.
def lexemes : Expr → List String
  | .var name keys => varLexemes (scope.root name).text name (allLexemes keys)
  | .const text => [text]
  | .str text => [Text.quoted text]
  | .num value => value.lexemes
  | .binary op left right => lexemes left ++ op.symbol :: lexemes right
  | .unary op value => unaryLexemes minus op (lexemes value)
  | .isset value => "isset" :: bracketed (lexemes value)
  | .ternary condition consequent alternate =>
    bracketed (lexemes condition ++ "?" :: lexemes consequent ++ ":" :: lexemes alternate)
  | .concat values => ["."].intercalate (allLexemes values)
  | .array entries =>
    indexed ([","].intercalate (entryLexemes (entries.any fun entry => entry.key?.isSome) 0 entries))
  | .range kind start stop => called "mkArr" [lexemes start, lexemes stop, [rangeMode kind]]
  | .call callee args =>
    match callee.bare? with
    | some name => callLexemes name (allLexemes args) args
    | none => lexemes callee ++ bracketed ([","].intercalate (allLexemes args))
  | .unsupported => []

def allLexemes : List Expr → List (List String)
  | [] => []
  | value :: rest => lexemes value :: allLexemes rest

def entryLexemes (numbered : Bool) (next : Nat) : List Entry → List (List String)
  | [] => []
  | .plain value :: rest =>
    if numbered then (toString next :: "=>" :: lexemes value) :: entryLexemes numbered (next + 1) rest
    else lexemes value :: entryLexemes numbered next rest
  | .keyed key value :: rest => (lexemes key ++ "=>" :: lexemes value) :: entryLexemes numbered next rest

end

-- In its context.
def emitted (context : Context) (e : Expr) : List String :=
  match context, e with
  | .value, .isset value => safelyRead (lexemes scope minus value)
  | .dataTarget, .var name keys => varLexemes "$__data" name (allLexemes scope minus keys)
  | _, _ => lexemes scope minus e

end Lexemes

end Expr

namespace Code

section Spelling

variable (scope : Scope)

def chars (code : Code) : List Char := (code.render scope).toList

@[simp] theorem chars_append (a b : Code) : (a ++ b).chars scope = a.chars scope ++ b.chars scope := by simp [chars]

@[simp] theorem chars_empty : empty.chars scope = [] := rfl

@[simp] theorem chars_text (value : String) : (text value).chars scope = value.toList := by simp [chars]

@[simp] theorem chars_root (name : String) : (root name).chars scope = (scope.root name).text.toList := by
  rw [chars, render_root, Scope.root]
  split <;> rfl

-- The text of the code is one that is spelled with the given lexemes.
def Spells (code : Code) (lexemes : List String) : Prop := Lexeme.Spells (code.chars scope) lexemes

variable {scope}

open Lexeme (Fills Lexes)

theorem spells_quoted (value : String) : (text (Text.quoted value)).Spells scope [Text.quoted value] := by
  rw [Spells, chars_text]
  exact .plain (Lexeme.lexes_quoted value)

theorem spells_word {word : String} (named : (Lexeme.isWord word.toList && Lexeme.isUncast word.toList) = true) :
    (text word).Spells scope [word] := by
  rw [Bool.and_eq_true] at named
  have lexes := Lexeme.lexes_word _ named.1 named.2
  rw [String.ofList_toList] at lexes
  rw [Spells, chars_text]
  exact .plain lexes

theorem spells_join {separator mark : String}
    (trails : ∀ {right : List Char} {own : List String}, Lexeme.Spells right own →
      Lexeme.Trails (separator.toList ++ right) (mark :: own))
    {codes : List Code} {all : List (List String)} (spelled : List.Forall₂ (Spells scope) codes all) (filled : codes ≠ []) :
    (join separator codes).Spells scope ([mark].intercalate all) := by
  induction spelled with
  | nil => exact absurd rfl filled
  | @cons code own codes all spells rest ih =>
    cases rest with
    | nil => simpa [join] using spells
    | cons =>
      have longer := spells.extend (trails (ih (List.cons_ne_nil _ _)))
      simpa [Spells, join, List.intercalate_cons_cons] using longer

theorem fills_separated {codes : List Code} {all : List (List String)} (spelled : List.Forall₂ (Spells scope) codes all) :
    Fills ((join ", " codes).chars scope) ([","].intercalate all) := by
  cases spelled with
  | nil => exact Lexeme.fills_empty
  | cons spells rest => exact (spells_join Lexeme.trails_comma (.cons spells rest) (List.cons_ne_nil _ _)).fills

theorem lexes_call (name : String) (named : Lexeme.isWord name.toList = true) {codes : List Code} {all : List (List String)}
    (spelled : List.Forall₂ (Spells scope) codes all) : Lexes ((Builtin.call name codes).chars scope) (called name all) := by
  have lexes := Lexeme.lexes_called _ named (fills_separated spelled)
  simpa [Builtin.call, called] using lexes

theorem spells_safeRead {place : Code} {own : List String} (spells : place.Spells scope own) :
    place.safeRead.Spells scope (safelyRead own) := by
  have tested : Lexes ("isset".toList ++ '(' :: (place.chars scope ++ [')'])) ("isset" :: bracketed own) :=
    Lexeme.lexes_called _ (by decide) spells.fills
  have chosen := ((Lexeme.Spells.plain tested).operator "?" (by decide) spells).operator ":" (by decide)
    (.plain (Lexeme.lexes_quoted ""))
  have whole := Lexeme.lexes_bracketed chosen.fills
  refine .plain ?_
  simpa [safeRead, safelyRead, Text.quoted] using whole

end Spelling

end Code

namespace Builtin

variable {scope : Scope}

open Code (spells_word spells_quoted lexes_call)

theorem spells_getD {codes : List Code} {all : List (List String)} (spelled : List.Forall₂ (Code.Spells scope) codes all)
    (i : Nat) {other : Code} {own : List String} (spells : other.Spells scope own) :
    (codes.getD i other).Spells scope (all.getD i own) := by
  induction spelled generalizing i with
  | nil => exact spells
  | cons first _ ih =>
    cases i with
    | zero => exact first
    | succ i => exact ih i

theorem spells_call (name : String) (named : Lexeme.isWord name.toList = true) {codes : List Code}
    {all : List (List String)} (spelled : List.Forall₂ (Code.Spells scope) codes all) :
    (call name codes).Spells scope (called name all) :=
  .plain (lexes_call name named spelled)

-- The names that a function stands for are words, with one literal among them.
def isNamed : Builtin → Bool
  | .rename target => Lexeme.isWord target.toList
  | .renameWith target last =>
    Lexeme.isWord target.toList &&
      (last = "'UTF-8'" || (Lexeme.isWord last.toList && Lexeme.isUncast last.toList))
  | _ => true

theorem isNamed_table : ∀ entry ∈ table, entry.2.isNamed = true := by decide

theorem isNamed_of_lookup? {name : String} {builtin : Builtin} (known : lookup? name = some builtin) :
    builtin.isNamed = true :=
  isNamed_table (name, builtin) (entry_of_lookup known)

theorem spells_encoding : (Code.text "'UTF-8'").Spells scope ["'UTF-8'"] := by
  rw [Code.Spells, Code.chars_text]
  exact .plain Lexeme.lexes_encoding

theorem spells_zero : (Code.text "0").Spells scope ["0"] := by
  rw [Code.Spells, Code.chars_text]
  exact .plain (Number.unsigned_toString 0).lexes

theorem spells_emptyList : (Code.text "[]").Spells scope ["[", "]"] := by
  rw [Code.Spells, Code.chars_text]
  exact .plain (Lexeme.lexes_indexed Lexeme.fills_empty)

theorem spells_lowerSplit {args : List Code} {all : List (List String)}
    (spelled : List.Forall₂ (Code.Spells scope) args all) (raw : List Expr) :
    (lowerSplit args raw).Spells scope (splitLexemes all raw) := by
  have blank : (Code.text "\"\"").Spells scope ["\"\""] := spells_quoted ""
  have subject := spells_getD spelled 0 blank
  have between := spells_getD spelled 1 blank
  have chars := spells_call "mb_str_split" (by decide) (.cons subject .nil)
  have held : (Code.text separator).Spells scope [separator] := by
    rw [Code.Spells, Code.chars_text]
    exact .plain (Lexeme.lexes_variable "__separator".toList (by decide))
  have tested : (Code.concat ["((", separator, " = ", args.getD 1 "\"\"", ") === \"\" ? ",
      call "mb_str_split" [args.getD 0 "\"\""], " : ", call "explode" [separator, args.getD 0 "\"\""], ")"]).Spells scope
      (bracketed (bracketed ([separator] ++ "=" :: all.getD 1 ["\"\""]) ++ "===" :: ["\"\""] ++
        "?" :: called "mb_str_split" [all.getD 0 ["\"\""]] ++
        ":" :: called "explode" [[separator], all.getD 0 ["\"\""]])) := by
    have stored := Lexeme.Spells.plain (Lexeme.lexes_bracketed (held.operator "=" (by decide) between).fills)
    have parts := spells_call "explode" (by decide) (.cons held (.cons subject .nil))
    have chosen := ((stored.operator "===" (by decide) blank).operator "?" (by decide) chars).operator ":" (by decide) parts
    refine .plain ?_
    have whole := Lexeme.lexes_bracketed chosen.fills
    simpa using whole
  cases second : (raw[1]? : Option Expr) with
  | none =>
    simp only [lowerSplit, splitLexemes, second]
    exact chars
  | some source =>
    cases source with
    | str literal =>
      simp only [lowerSplit, splitLexemes, second]
      split
      · exact chars
      · exact spells_call _ (by decide) (.cons between (.cons subject .nil))
    | _ =>
      simp only [lowerSplit, splitLexemes, second]
      exact tested

theorem spells_replicate {code : Code} {own : List String} (spells : code.Spells scope own) (count : Nat) :
    List.Forall₂ (Code.Spells scope) (List.replicate count code) (List.replicate count own) := by
  induction count with
  | zero => exact .nil
  | succ count ih => exact .cons spells ih

theorem spells_lower {name : String} {builtin : Builtin} (known : lookup? name = some builtin) {args : List Code}
    {all : List (List String)} (spelled : List.Forall₂ (Code.Spells scope) args all) (raw : List Expr) :
    (builtin.lower args raw).Spells scope (builtin.lexemes all raw) := by
  have missing : (Code.text "NULL").Spells scope ["NULL"] := spells_word (by decide)
  have named := isNamed_of_lookup? known
  cases builtin with
  | rename target => exact spells_call _ named spelled
  | renameWith target last =>
    simp only [isNamed, Bool.and_eq_true, Bool.or_eq_true, decide_eq_true_eq] at named
    refine spells_call _ named.1 (List.rel_append spelled (.cons ?_ .nil))
    rcases named.2 with rfl | word
    · exact spells_encoding
    · exact spells_word (by simpa using word)
  | classes => exact spells_call _ (by decide) spelled
  | substring =>
    have padded := spells_replicate missing (3 - args.length)
    rw [lower, lexemes, ← spelled.length_eq]
    exact spells_call _ (by decide) (List.rel_append (List.rel_append spelled padded) (.cons spells_encoding .nil))
  | replace =>
    have at' (i : Nat) := spells_getD spelled i missing
    exact spells_call _ (by decide) (.cons (at' 1) (.cons (at' 2) (.cons (at' 0) .nil)))
  | split => exact spells_lowerSplit spelled raw
  | format =>
    have zero := spells_getD spelled 1 spells_zero
    have point := spells_getD spelled 2 (spells_quoted ".")
    exact spells_call _ (by decide) (.cons (spells_getD spelled 0 missing) (.cons zero (.cons point .nil)))
  | contains =>
    have searched := spells_call "array_search" (by decide)
      (.cons (spells_getD spelled 1 missing) (.cons (spells_getD spelled 0 spells_emptyList) .nil))
    have whole := Lexeme.lexes_bracketed
      (searched.operator "!==" (by decide) (.plain (Lexeme.lexes_word "false".toList (by decide) (by decide)))).fills
    refine .plain ?_
    simpa [lower, lexemes] using whole
  | join =>
    have between := spells_getD spelled 1 (spells_quoted "")
    exact spells_call _ (by decide) (.cons between (.cons (spells_getD spelled 0 spells_emptyList) .nil))
  | round => exact spells_call _ (by decide) (.cons (spells_getD spelled 0 spells_zero) .nil)
  | random =>
    have cast (name : String) (named : Lexeme.isWord name.toList = true) :=
      Lexeme.lexes_float (lexes_call name named (show List.Forall₂ (Code.Spells scope) [] [] from .nil))
    have whole := Lexeme.lexes_bracketed ((Lexeme.Spells.plain (cast "rand" (by decide))).operator "/" (by decide)
      (.plain (cast "getrandmax" (by decide)))).fills
    refine .plain ?_
    simpa [lower, lexemes, call, Code.join] using whole

end Builtin

namespace Expr

-- An expression whose constants are those of the language, whose functions are called by words, and whose
-- concatenations have operands.
structure Regular (e : Expr) : Prop where
  consts : ∀ text, Occurs (.const text) e → text ∈ ["true", "false", "null"]
  names : ∀ name args, Occurs (.call (.var name []) args) e → Lexeme.isWord name.toList = true
  filled : ¬ Occurs (.concat []) e
  supported : ¬ Occurs .unsupported e

theorem Regular.part {e part : Expr} (regular : Regular e) (member : part ∈ e.parts) : Regular part where
  consts text occurs := regular.consts text (.inside member occurs)
  names name args occurs := regular.names name args (.inside member occurs)
  filled occurs := regular.filled (.inside member occurs)
  supported occurs := regular.supported (.inside member occurs)

variable {scope : Scope}

open Code (spells_word spells_quoted lexes_call spells_join fills_separated spells_safeRead)
open Lexeme (Lexes)

theorem lexes_keys {keys : List Code} {all : List (List String)} (spelled : List.Forall₂ (Code.Spells scope) keys all)
    {base : Code} {own : List String} (lexes : Lexes (base.chars scope) own) :
    Lexes ((base ++ Code.concat (keys.map fun key => Code.concat ["[", key, "]"])).chars scope)
      (own ++ all.flatMap indexed) := by
  induction spelled generalizing base own with
  | nil => simpa using lexes
  | @cons key first keys all spells rest ih =>
    have longer : Lexes ((base ++ Code.concat ["[", key, "]"]).chars scope) (own ++ indexed first) := by
      simpa using lexes.extend (Lexeme.trails_indexed spells.fills)
    simpa using ih longer

theorem spells_varCode {root : Code} {word : String} (rooted : Lexes (root.chars scope) [word]) (name : String)
    {keys : List Code} {all : List (List String)} (spelled : List.Forall₂ (Code.Spells scope) keys all) :
    (varCode root name keys).Spells scope (varLexemes word name all) := by
  have empty : keys.isEmpty = all.isEmpty := by cases spelled <;> rfl
  unfold varCode varLexemes
  rw [empty]
  split
  · rename_i truth
    simp only [Bool.and_eq_true, Bool.or_eq_true, decide_eq_true_eq] at truth
    rcases truth.1 with rfl | rfl <;> exact spells_word (by decide)
  · refine .plain (lexes_keys spelled ?_)
    split
    · rw [Code.chars_text]
      exact Lexeme.lexes_variable "__children".toList (by decide)
    · have place := rooted.extend (Lexeme.trails_indexed (Lexeme.Spells.plain (Lexeme.lexes_quoted name)).fills)
      simpa using place

theorem lexes_root (name : String) : Lexes ((Code.root name).chars scope) [(scope.root name).text] := by
  rw [Code.chars_root]
  cases scope.root name with
  | scope => exact Lexeme.lexes_variable "__scope".toList (by decide)
  | data => exact Lexeme.lexes_variable "__data".toList (by decide)

theorem symbol_listed (op : BinaryOp) : op.symbol ∈ Lexeme.signs ∧ op.symbol ≠ "(" := by
  cases op <;> decide

theorem spells_unaryCode (op : UnaryOp) {value : Code} {own : List String} (spells : value.Spells scope own) :
    (unaryCode op value).Spells scope (unaryLexemes glued op own) := by
  cases op with
  | not =>
    have lexes := Lexeme.lexes_not spells
    exact .plain (by simpa [unaryCode, unaryLexemes] using lexes)
  | bitNot =>
    have lexes := Lexeme.lexes_bitNot spells
    exact .plain (by simpa [unaryCode, unaryLexemes] using lexes)
  | minus =>
    have signed := Lexeme.Spells.minus spells
    simpa [Code.Spells, unaryCode, unaryLexemes] using signed
  | brackets =>
    have lexes := Lexeme.lexes_bracketed spells.fills
    exact .plain (by simpa [unaryCode, unaryLexemes] using lexes)

theorem spells_zipWith {args : List Code} {all : List (List String)} (spelled : List.Forall₂ (Code.Spells scope) args all)
    (raw : List Expr) : List.Forall₂ (Code.Spells scope)
      (List.zipWith (fun arg code => if arg.isStored then code.safeRead else code) raw args)
      (List.zipWith (fun arg own => if arg.isStored then safelyRead own else own) raw all) := by
  induction spelled generalizing raw with
  | nil => simp
  | cons spells _ ih =>
    cases raw with
    | nil => exact .nil
    | cons arg raw =>
      refine .cons ?_ (ih raw)
      beta_reduce
      split
      · exact spells_safeRead spells
      · exact spells

theorem spells_callCode {name : String} (named : Lexeme.isWord name.toList = true) {args : List Code}
    {all : List (List String)} (spelled : List.Forall₂ (Code.Spells scope) args all) (raw : List Expr) :
    (callCode name args raw).Spells scope (callLexemes name all raw) := by
  cases known : Builtin.lookup? name with
  | none =>
    simp only [callCode, callLexemes, known]
    exact Builtin.spells_call _ named spelled
  | some builtin =>
    cases builtin with
    | classes =>
      simp only [callCode, callLexemes, known]
      exact Builtin.spells_call _ (by decide) (spells_zipWith spelled raw)
    | _ =>
      simp only [callCode, callLexemes, known]
      exact Builtin.spells_lower known spelled raw

section Code

mutual

-- The induction is on the expression.
theorem spells_code? : ∀ {e : Expr} {code : Code}, e.code? = some code → Regular e →
    code.Spells scope (e.lexemes scope glued)
  | .var name keys, code, made, regular => by
    simp only [code?, Option.bind_eq_bind, Option.bind_eq_some_iff, Option.some.injEq] at made
    obtain ⟨codes, found, rfl⟩ := made
    exact spells_varCode (lexes_root name) name (spells_codes? found fun part member => regular.part member)
  | .const text, code, made, regular => by
    cases made
    have known : ∀ text ∈ ["true", "false", "null"], (Lexeme.isWord text.toList && Lexeme.isUncast text.toList) = true := by
      decide
    exact spells_word (known text (regular.consts text .here))
  | .str text, code, made, _ => by
    cases made
    exact spells_quoted text
  | .num value, code, made, _ => by
    cases made
    rw [Code.Spells, Code.chars_text]
    exact value.spells_text
  | .binary op left right, code, made, regular => by
    simp only [code?, Option.bind_eq_bind, Option.bind_eq_some_iff, Option.some.injEq] at made
    obtain ⟨first, leftMade, second, rightMade, rfl⟩ := made
    have before := spells_code? leftMade (regular.part (by simp [parts]))
    have after := spells_code? rightMade (regular.part (by simp [parts]))
    have whole := before.operator op.symbol (symbol_listed op) after
    simpa [Code.Spells, lexemes] using whole
  | .unary op value, code, made, regular => by
    simp only [code?, Option.bind_eq_bind, Option.bind_eq_some_iff, Option.some.injEq] at made
    obtain ⟨inner, found, rfl⟩ := made
    exact spells_unaryCode op (spells_code? found (regular.part (by simp [parts])))
  | .isset value, code, made, regular => by
    simp only [code?, Option.bind_eq_bind, Option.bind_eq_some_iff, Option.some.injEq] at made
    obtain ⟨inner, found, rfl⟩ := made
    have spells := spells_code? found (regular.part (by simp [parts]))
    have lexes := Lexeme.lexes_called "isset".toList (by decide) spells.fills
    exact .plain (by simpa [lexemes] using lexes)
  | .ternary condition consequent alternate, code, made, regular => by
    simp only [code?, Option.bind_eq_bind, Option.bind_eq_some_iff, Option.some.injEq] at made
    obtain ⟨first, tested, second, thenMade, third, elseMade, rfl⟩ := made
    have test := spells_code? tested (regular.part (by simp [parts]))
    have met := spells_code? thenMade (regular.part (by simp [parts]))
    have unmet := spells_code? elseMade (regular.part (by simp [parts]))
    have whole := Lexeme.lexes_bracketed
      ((test.operator "?" (by decide) met).operator ":" (by decide) unmet).fills
    exact .plain (by simpa [lexemes] using whole)
  | .concat values, code, made, regular => by
    simp only [code?, Option.bind_eq_bind, Option.bind_eq_some_iff, Option.some.injEq] at made
    obtain ⟨codes, found, rfl⟩ := made
    have spelled := spells_codes? found fun part member => regular.part member
    have dotted {right : List Char} {own : List String} (spells : Lexeme.Spells right own) :
        Lexeme.Trails (" . ".toList ++ right) ("." :: own) :=
      Lexeme.trails_operator "." (by decide) spells
    refine spells_join dotted spelled ?_
    rintro rfl
    cases values with
    | nil => exact regular.filled .here
    | cons first rest => cases spelled
  | .array entries, code, made, regular => by
    simp only [code?, Option.bind_eq_bind, Option.bind_eq_some_iff, Option.some.injEq] at made
    obtain ⟨codes, found, rfl⟩ := made
    have spelled := spells_entryCodes? found fun part member => regular.part member
    have lexes := Lexeme.lexes_indexed (fills_separated spelled)
    exact .plain (by simpa [lexemes] using lexes)
  | .range kind start stop, code, made, regular => by
    simp only [code?, Option.bind_eq_bind, Option.bind_eq_some_iff, Option.some.injEq] at made
    obtain ⟨first, startMade, last, stopMade, rfl⟩ := made
    have before := spells_code? startMade (regular.part (by simp [parts]))
    have after := spells_code? stopMade (regular.part (by simp [parts]))
    have mode : (Code.text (rangeMode kind)).Spells scope [rangeMode kind] := spells_word (by cases kind <;> decide)
    have lexes := lexes_call "mkArr" (by decide) (.cons before (.cons after (.cons mode .nil)))
    exact .plain (by simpa [lexemes, Builtin.call, Code.join] using lexes)
  | .call callee args, code, made, regular => by
    unfold code? at made
    cases named : callee.bare? with
    | some name =>
      obtain rfl := eq_of_bare? named
      simp only [named, Option.bind_eq_bind, Option.bind_eq_some_iff, Option.some.injEq] at made
      obtain ⟨codes, found, rfl⟩ := made
      have spelled := spells_codes? found fun part member => regular.part (List.mem_cons_of_mem _ member)
      rw [lexemes, named]
      exact spells_callCode (regular.names name args .here) spelled args
    | none =>
      simp only [named, Option.bind_eq_bind, Option.bind_eq_some_iff, Option.some.injEq] at made
      obtain ⟨function, calleeMade, codes, found, rfl⟩ := made
      have spelled := spells_codes? found fun part member => regular.part (List.mem_cons_of_mem _ member)
      have spells := spells_code? calleeMade (regular.part List.mem_cons_self)
      have whole := spells.extend (Lexeme.trails_bracketed (fills_separated spelled))
      rw [lexemes, named]
      simpa [Code.Spells] using whole
  | .unsupported, code, made, _ => by cases made

theorem spells_codes? : ∀ {values : List Expr} {codes : List Code}, codes? values = some codes →
    (∀ value ∈ values, Regular value) → List.Forall₂ (Code.Spells scope) codes (allLexemes scope glued values)
  | [], codes, made, _ => by
    cases made
    exact .nil
  | value :: rest, codes, made, regular => by
    simp only [codes?, Option.bind_eq_bind, Option.bind_eq_some_iff, Option.some.injEq] at made
    obtain ⟨first, valueMade, others, restMade, rfl⟩ := made
    exact .cons (spells_code? valueMade (regular value List.mem_cons_self))
      (spells_codes? restMade fun value member => regular value (List.mem_cons_of_mem _ member))

theorem spells_entryCodes? {numbered : Bool} : ∀ {entries : List Entry} {next : Nat} {codes : List Code},
    entryCodes? numbered next entries = some codes → (∀ value ∈ entries.flatMap Entry.parts, Regular value) →
    List.Forall₂ (Code.Spells scope) codes (entryLexemes scope glued numbered next entries)
  | [], _, codes, made, _ => by
    cases made
    exact .nil
  | .plain value :: rest, next, codes, made, regular => by
    simp only [entryCodes?, Option.bind_eq_bind, Option.bind_eq_some_iff] at made
    obtain ⟨first, valueMade, made⟩ := made
    have spells := spells_code? valueMade (regular value (by simp [Entry.parts]))
    have others (part : Expr) (member : part ∈ rest.flatMap Entry.parts) : Regular part :=
      regular part (by simp [List.flatMap_cons, member])
    cases numbered with
    | true =>
      simp only [if_true, Option.bind_eq_some_iff, Option.some.injEq] at made
      obtain ⟨codes, restMade, rfl⟩ := made
      have key := Lexeme.Spells.plain (Number.unsigned_toString next).lexes
      rw [String.ofList_toList] at key
      have entry := key.operator "=>" (by decide) spells
      refine .cons ?_ (spells_entryCodes? restMade others)
      simpa [Code.Spells] using entry
    | false =>
      simp only [Bool.false_eq_true, if_false, Option.bind_eq_some_iff, Option.some.injEq] at made
      obtain ⟨codes, restMade, rfl⟩ := made
      exact .cons spells (spells_entryCodes? restMade others)
  | .keyed key value :: rest, next, codes, made, regular => by
    simp only [entryCodes?, Option.bind_eq_bind, Option.bind_eq_some_iff, Option.some.injEq] at made
    obtain ⟨first, keyMade, second, valueMade, codes, restMade, rfl⟩ := made
    have before := spells_code? keyMade (regular key (by simp [Entry.parts]))
    have after := spells_code? valueMade (regular value (by simp [Entry.parts]))
    have entry := before.operator "=>" (by decide) after
    refine .cons ?_ (spells_entryCodes? restMade fun part member => regular part (by simp [List.flatMap_cons, member]))
    simpa [Code.Spells] using entry

end

end Code

section Apart

variable {minus other : List String → List String}

-- Two ways of putting a minus sign are the same for the operands that occur.
def Agrees (scope : Scope) (minus other : List String → List String) (e : Expr) : Prop :=
  ∀ value, Occurs (.unary .minus value) e → minus (value.lexemes scope minus) = other (value.lexemes scope minus)

theorem Agrees.part {e part : Expr} (agrees : Agrees scope minus other e) (member : part ∈ e.parts) :
    Agrees scope minus other part :=
  fun value occurs => agrees value (.inside member occurs)

mutual

theorem lexemes_congr : ∀ {e : Expr}, Agrees scope minus other e → e.lexemes scope minus = e.lexemes scope other
  | .var name keys, agrees => by
    rw [lexemes, lexemes, allLexemes_congr fun part (member : part ∈ keys) => agrees.part member]
  | .const _, _ => rfl
  | .str _, _ => rfl
  | .num _, _ => rfl
  | .binary op left right, agrees => by
    rw [lexemes, lexemes, lexemes_congr (agrees.part (show left ∈ parts _ by simp [parts])),
      lexemes_congr (agrees.part (show right ∈ parts _ by simp [parts]))]
  | .unary op value, agrees => by
    have inner := lexemes_congr (agrees.part (show value ∈ parts _ by simp [parts]))
    rw [lexemes, lexemes, ← inner]
    cases op with
    | minus => exact agrees value .here
    | _ => rfl
  | .isset value, agrees => by
    rw [lexemes, lexemes, lexemes_congr (agrees.part (show value ∈ parts _ by simp [parts]))]
  | .ternary condition consequent alternate, agrees => by
    rw [lexemes, lexemes, lexemes_congr (agrees.part (show condition ∈ parts _ by simp [parts])),
      lexemes_congr (agrees.part (show consequent ∈ parts _ by simp [parts])),
      lexemes_congr (agrees.part (show alternate ∈ parts _ by simp [parts]))]
  | .concat values, agrees => by
    rw [lexemes, lexemes, allLexemes_congr fun part (member : part ∈ values) => agrees.part member]
  | .array entries, agrees => by
    rw [lexemes, lexemes, entryLexemes_congr fun part member => agrees.part member]
  | .range kind start stop, agrees => by
    rw [lexemes, lexemes, lexemes_congr (agrees.part (show start ∈ parts _ by simp [parts])),
      lexemes_congr (agrees.part (show stop ∈ parts _ by simp [parts]))]
  | .call callee args, agrees => by
    rw [lexemes, lexemes, lexemes_congr (agrees.part (show callee ∈ parts _ from List.mem_cons_self)),
      allLexemes_congr fun part member => agrees.part (List.mem_cons_of_mem _ member)]
  | .unsupported, _ => rfl

theorem allLexemes_congr : ∀ {values : List Expr}, (∀ value ∈ values, Agrees scope minus other value) →
    allLexemes scope minus values = allLexemes scope other values
  | [], _ => rfl
  | value :: rest, agrees => by
    rw [allLexemes, allLexemes, lexemes_congr (agrees value List.mem_cons_self),
      allLexemes_congr fun value member => agrees value (List.mem_cons_of_mem _ member)]

theorem entryLexemes_congr {numbered : Bool} : ∀ {entries : List Entry} {next : Nat},
    (∀ value ∈ entries.flatMap Entry.parts, Agrees scope minus other value) →
    entryLexemes scope minus numbered next entries = entryLexemes scope other numbered next entries
  | [], _, _ => rfl
  | .plain value :: rest, next, agrees => by
    have others (part : Expr) (member : part ∈ rest.flatMap Entry.parts) : Agrees scope minus other part :=
      agrees part (by simp [List.flatMap_cons, member])
    rw [entryLexemes, entryLexemes, lexemes_congr (agrees value (by simp [Entry.parts])), entryLexemes_congr others,
      entryLexemes_congr others]
  | .keyed key value :: rest, next, agrees => by
    rw [entryLexemes, entryLexemes, lexemes_congr (agrees key (by simp [Entry.parts])),
      lexemes_congr (agrees value (by simp [Entry.parts])),
      entryLexemes_congr fun part member => agrees part (by simp [List.flatMap_cons, member])]

end

theorem emitted_congr (context : Context) {e : Expr} (agrees : Agrees scope minus other e) :
    e.emitted scope minus context = e.emitted scope other context := by
  unfold emitted
  split
  · rw [lexemes_congr (agrees.part (by simp [parts]))]
  · rename_i name keys
    rw [allLexemes_congr fun part (member : part ∈ keys) => agrees.part member]
  · exact lexemes_congr agrees

end Apart

theorem emitted_plain {context : Context} {e : Expr} {minus : List String → List String}
    (untested : ∀ value, context = .value → e = .isset value → False)
    (untargeted : ∀ name keys, context = .dataTarget → e = .var name keys → False) :
    e.emitted scope minus context = e.lexemes scope minus := by
  unfold emitted
  split
  · exact (untested _ rfl rfl).elim
  · exact (untargeted _ _ rfl rfl).elim
  · rfl

theorem spells_emit? (scope : Scope) (context : Context) {e : Expr} (regular : Regular e) :
    ∃ code, e.emit? context = some code ∧ code.Spells scope (e.emitted scope glued context) := by
  cases made : e.emit? context with
  | none => exact absurd ((emit?_eq_none context e).mp made) regular.supported
  | some code =>
    refine ⟨code, rfl, ?_⟩
    unfold emit? at made
    split at made
    · obtain ⟨inner, found, rfl⟩ := Option.map_eq_some_iff.mp made
      exact spells_safeRead (spells_code? found (regular.part (by simp [parts])))
    · obtain ⟨codes, found, rfl⟩ := Option.map_eq_some_iff.mp made
      refine spells_varCode ?_ _ (spells_codes? found fun part member => regular.part member)
      rw [Code.chars_text]
      exact Lexeme.lexes_variable "__data".toList (by decide)
    · rename_i untested untargeted
      rw [emitted_plain untested untargeted]
      exact spells_code? made regular

theorem Regular.occurring {e inner : Expr} (regular : Regular e) (occurs : Occurs inner e) : Regular inner := by
  induction occurs with
  | here => exact regular
  | inside member _ ih => exact ih (regular.part member)

theorem spells_operand {scope : Scope} {e : Expr} (regular : Regular e) :
    ∃ code, e.code? = some code ∧ code.Spells scope (e.lexemes scope glued) := by
  have plain : e.emit? .condition = e.code? := by cases e <;> rfl
  cases made : e.code? with
  | none => exact absurd ((emit?_eq_none .condition e).mp (plain.trans made)) regular.supported
  | some code => exact ⟨code, rfl, spells_code? made regular⟩

-- No minus sign stands before an operand whose text begins with one.
def Spaced (scope : Scope) (e : Expr) : Prop :=
  ∀ value operand, Occurs (.unary .minus value) e → value.code? = some operand →
    (operand.render scope).toList.head? ≠ some '-'

theorem agrees_of_spaced {scope : Scope} {e : Expr} (regular : Regular e) (spaced : Spaced scope e) :
    Agrees scope glued ("-" :: ·) e := by
  intro value occurs
  obtain ⟨operand, made, spells⟩ := spells_operand ((regular.occurring occurs).part List.mem_cons_self)
  exact spells.glued_of_head (spaced value operand occurs made)

-- The code of an expression is split into the lexemes of its parts and those that it puts between them, with the one
-- exception that a minus sign and another one directly behind it are read as one lexeme. Where this does not happen, no
-- two lexemes are fused.
theorem split_emitted (scope : Scope) (context : Context) {e : Expr} (regular : Regular e) :
    ∃ code, e.emit? context = some code ∧
      Lexeme.split (code.render scope) = some (e.emitted scope glued context) ∧
      (Spaced scope e → Lexeme.split (code.render scope) = some (e.emitted scope ("-" :: ·) context)) := by
  obtain ⟨code, made, spells⟩ := spells_emit? scope context regular
  refine ⟨code, made, spells.splitChars, fun spaced => ?_⟩
  rw [← emitted_congr context (agrees_of_spaced regular spaced)]
  exact spells.splitChars

section Minus

theorem Regular.num (value : Number) : Regular (.num value) where
  consts _ occurs := by cases occurs with | inside member => cases member
  names _ _ occurs := by cases occurs with | inside member => cases member
  filled occurs := by cases occurs with | inside member => cases member
  supported occurs := by cases occurs with | inside member => cases member

theorem Regular.unary {value : Expr} (regular : Regular value) (op : UnaryOp) : Regular (.unary op value) := by
  have inside {inner : Expr} (occurs : Occurs inner (.unary op value)) (other : inner ≠ .unary op value) :
      Occurs inner value := by
    cases occurs with
    | here => exact absurd rfl other
    | inside member occurs =>
      rwa [List.mem_singleton.mp member] at occurs
  exact ⟨fun text occurs => regular.consts text (inside occurs nofun),
    fun name args occurs => regular.names name args (inside occurs nofun),
    fun occurs => regular.filled (inside occurs nofun), fun occurs => regular.supported (inside occurs nofun)⟩

-- The minus sign of a number is one of its lexemes, so that the minus sign before it is fused with it. A third one is not.
theorem split_emitted_negations : Regular (.unary .minus (.unary .minus (.num (.integer (-5))))) ∧
    ∃ code, (Expr.unary .minus (.unary .minus (.num (.integer (-5))))).emit? .value = some code ∧
      Lexeme.split (code.render .empty) = some ["--", "-", "5"] := by
  have regular := ((Regular.num (.integer (-5))).unary .minus).unary .minus
  obtain ⟨code, made, read, _⟩ := split_emitted .empty .value regular
  exact ⟨regular, code, made, read⟩

-- The lexemes of a negated negation are not those that its minus signs were put for.
theorem negation_decrements :
    ∃ code, (Expr.unary .minus (.unary .minus (.var "x" []))).emit? .value = some code ∧
      code.render .empty = "--$__data[\"x\"]" ∧
      Lexeme.split (code.render .empty) = some ["--", "$__data", "[", "\"x\"", "]"] ∧
      (Expr.unary .minus (.unary .minus (.var "x" []))).emitted .empty ("-" :: ·) .value =
        ["-", "-", "$__data", "[", "\"x\"", "]"] := by
  refine ⟨Code.concat ["--", Code.root "x", "[\"x\"]"], ?_⟩
  decide +kernel

end Minus

end Expr

end Stencil
