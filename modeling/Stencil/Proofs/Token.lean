import Stencil.Proofs.Storage

-- Generated code as a sequence of tokens. Outside of string literals a reader sees variables and single characters; the
-- tokens of a text that is put together piece by piece are those of its pieces.

namespace Stencil

inductive Token where
  | named (name : String)
  | literal (text : String)
  | mark (c : Char)
  deriving DecidableEq

-- Where the reader of a text is: in code, in the name of a variable, in a string literal, or there behind a backslash,
-- which takes the next character as it is.
inductive Lexing where
  | code
  | name (taken : List Char)
  | quoted (taken : List Char)
  | escaped (taken : List Char)

namespace Lexing

def enter (c : Char) : List Token × Lexing :=
  if c = '$' then ([], .name []) else if c = '"' then ([], .quoted [])
  else if c.isWhitespace then ([], .code) else ([.mark c], .code)

def step : Lexing → Char → List Token × Lexing
  | .code, c => enter c
  | .name taken, c =>
    if Text.isName c then ([], .name (taken ++ [c])) else (.named (String.ofList taken) :: (enter c).1, (enter c).2)
  | .quoted taken, c =>
    if c = '\\' then ([], .escaped taken) else if c = '"' then ([.literal (String.ofList taken)], .code)
    else ([], .quoted (taken ++ [c]))
  | .escaped taken, c => ([], .quoted (taken ++ [c]))

def finish : Lexing → List Token
  | .name taken => [.named (String.ofList taken)]
  | _ => []

end Lexing

namespace Token

def lex : Lexing → List Char → List Token
  | mode, [] => mode.finish
  | mode, c :: rest => (mode.step c).1 ++ lex (mode.step c).2 rest

def ofChar (c : Char) : List Token := if c.isWhitespace then [] else [.mark c]

theorem lex_bare (chars tail : List Char) (bare : chars.all (fun c => c ≠ '$' && c ≠ '"') = true) :
    lex .code (chars ++ tail) = chars.flatMap ofChar ++ lex .code tail := by
  induction chars with
  | nil => rfl
  | cons c rest ih =>
    simp only [List.all_cons, Bool.and_eq_true, decide_eq_true_eq] at bare
    obtain ⟨⟨dollar, quote⟩, others⟩ := bare
    rw [List.cons_append, lex, List.flatMap_cons, List.append_assoc, ← ih (by simpa using others)]
    by_cases blank : c.isWhitespace = true <;> simp [Lexing.step, Lexing.enter, ofChar, dollar, quote, blank]

-- Nothing that would go on with a name.
def EndsName (tail : List Char) : Prop := ∀ c, tail.head? = some c → Text.isName c = false

theorem lex_name (taken chars tail : List Char) (named : chars.all Text.isName = true) (apart : EndsName tail) :
    lex (.name taken) (chars ++ tail) = .named (String.ofList (taken ++ chars)) :: lex .code tail := by
  induction chars generalizing taken with
  | nil =>
    cases tail with
    | nil => simp [lex, Lexing.finish]
    | cons c rest => simp [lex, Lexing.step, apart c rfl]
  | cons c rest ih =>
    rw [List.all_cons, Bool.and_eq_true] at named
    rw [List.cons_append, lex, Lexing.step, if_pos named.1, List.nil_append, ih _ named.2, List.append_assoc,
      List.singleton_append]

theorem lex_quoted (taken chars tail : List Char) :
    lex (.quoted taken) (chars.flatMap Text.escape ++ '"' :: tail) =
      .literal (String.ofList (taken ++ chars)) :: lex .code tail := by
  induction chars generalizing taken with
  | nil => simp [lex, Lexing.step]
  | cons c rest ih =>
    rw [List.flatMap_cons, List.append_assoc]
    by_cases escaped : Text.needsEscape c = true
    · simp [Text.escape, escaped, lex, Lexing.step, ih]
    · have plain : c ≠ '\\' ∧ c ≠ '"' := by
        simp only [Text.needsEscape, Bool.or_eq_true, decide_eq_true_eq, not_or] at escaped
        exact escaped.1
      simp [Text.escape, escaped, lex, Lexing.step, plain.1, plain.2, ih]

theorem lex_literal (text : String) (tail : List Char) :
    lex .code ((Text.quoted text).toList ++ tail) = .literal text :: lex .code tail := by
  have begun : (Text.quoted text).toList ++ tail = '"' :: (text.toList.flatMap Text.escape ++ '"' :: tail) := by
    simp [Text.quoted]
  have read := lex_quoted [] text.toList tail
  rw [List.nil_append, String.ofList_toList] at read
  rw [begun, lex, ← read]
  rfl

end Token

def Text.tokens (text : String) : List Token := Token.lex .code text.toList

def Text.marks (text : String) : List Token := text.toList.flatMap Token.ofChar

def Root.name : Root → String
  | .scope => "__scope"
  | .data => "__data"

namespace Piece

def tokens : Piece → List Token
  | .code text => Text.marks text
  | .named name => [.named name]
  | .literal text => [.literal text]
  | .raw text => Text.marks text
  | .access root name => [.named root.name, .mark '[', .literal name, .mark ']']

-- A piece whose text is read as the piece says.
def isPlain : Piece → Bool
  | .code text => Text.isBare text
  | .named name => name.toList.all Text.isName
  | .raw text => Text.isBare text
  | _ => true

open Token

theorem lex_render {piece : Piece} {tail : List Char} (plain : piece.isPlain = true)
    (apart : ∀ name, piece = .named name → EndsName tail) :
    lex .code (piece.render.toList ++ tail) = piece.tokens ++ lex .code tail := by
  cases piece with
  | code text => exact lex_bare text.toList tail plain
  | raw text => exact lex_bare text.toList tail plain
  | literal text => exact lex_literal text tail
  | named name =>
    have begun : (render (.named name)).toList ++ tail = '$' :: (name.toList ++ tail) := by simp [render]
    rw [begun, lex]
    show lex (.name []) _ = _
    rw [lex_name [] name.toList tail plain (apart name rfl), List.nil_append, String.ofList_toList]
    rfl
  | access root name =>
    have begun : (render (.access root name)).toList ++ tail =
        '$' :: (root.name.toList ++ '[' :: ((Text.quoted name).toList ++ ']' :: tail)) := by
      cases root <;> simp [render, Root.text, Root.name]
    have bracket : EndsName ('[' :: ((Text.quoted name).toList ++ ']' :: tail)) := by
      intro c first
      cases first
      rfl
    have named : root.name.toList.all Text.isName = true := by cases root <;> decide
    rw [begun, lex]
    show lex (.name []) _ = _
    rw [lex_name [] root.name.toList _ named bracket, List.nil_append, String.ofList_toList]
    have opened (rest : List Char) : lex .code ('[' :: rest) = .mark '[' :: lex .code rest := lex_bare ['['] rest rfl
    have closed (rest : List Char) : lex .code (']' :: rest) = .mark ']' :: lex .code rest := lex_bare [']'] rest rfl
    rw [opened, lex_literal, closed]
    rfl

end Piece

namespace Phrase

def tokens (phrase : Phrase) : List Token := phrase.flatMap Piece.tokens

@[simp] theorem tokens_nil : tokens [] = [] := rfl

@[simp] theorem tokens_cons (piece : Piece) (rest : Phrase) : tokens (piece :: rest) = piece.tokens ++ tokens rest := by
  simp [tokens]

@[simp] theorem tokens_append (front back : Phrase) : tokens (front ++ back) = tokens front ++ tokens back := by
  simp [tokens]

def isPlain (phrase : Phrase) : Bool := phrase.all Piece.isPlain

theorem apart_of_opens {phrase : Phrase} (opens : phrase.opens = true) : Token.EndsName phrase.render.toList := by
  cases phrase with
  | nil => intro c first; cases first
  | cons piece rest =>
    intro c first
    rw [render_cons, String.toList_append] at first
    cases piece with
    | code text =>
      simp only [Phrase.opens, Piece.breaks, Text.breaks] at opens
      cases chars : text.toList with
      | nil => simp [chars] at opens
      | cons head tail =>
        rw [chars] at opens
        simp only [Piece.render, chars, List.cons_append, List.head?_cons, Option.some.injEq] at first
        subst first
        simpa using opens
    | raw text => cases opens
    | named name =>
      simp [Piece.render] at first
      subst first
      rfl
    | literal text =>
      simp [Piece.render, Text.quoted] at first
      subst first
      rfl
    | access root name =>
      cases root <;> simp [Piece.render, Root.text] at first <;> subst first <;> rfl

-- A text is read as it is put together.
theorem tokens_render {phrase : Phrase} (plain : phrase.isPlain = true) (spaced : phrase.isSpaced = true) :
    Text.tokens phrase.render = phrase.tokens := by
  unfold Text.tokens
  induction phrase with
  | nil => rfl
  | cons piece rest ih =>
    rw [isPlain, List.all_cons, Bool.and_eq_true] at plain
    have others : isSpaced rest = true := by
      cases piece with
      | named name => exact (Bool.and_eq_true _ _ ▸ spaced : _ ∧ _).2
      | _ => exact spaced
    have apart : ∀ name, piece = .named name → Token.EndsName (render rest).toList := by
      rintro name rfl
      rw [isSpaced, Bool.and_eq_true] at spaced
      exact apart_of_opens spaced.1
    rw [render_cons, String.toList_append, Piece.lex_render plain.1 apart, ih plain.2 others, tokens_cons]

end Phrase

end Stencil
