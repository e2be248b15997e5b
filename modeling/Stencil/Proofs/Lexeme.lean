import Stencil.Proofs.Literal
import Stencil.Proofs.Phrase

-- The lexemes of the language of the generated code. A text is split by longest match: blanks are passed over, and
-- otherwise the longest lexeme is taken with which the rest of the text begins. A lexeme is found as it was written if
-- nothing of what stands behind it would make it longer.

namespace Stencil

namespace Lexeme

open Literal (beginsName)

section Numbers

-- Digits, with single underscores between them.
def isRun (isDigit : Char → Bool) : List Char → Bool
  | [] => false
  | [c] => isDigit c
  | c :: '_' :: rest => isDigit c && isRun isDigit rest
  | c :: rest => isDigit c && isRun isDigit rest

-- A whole number, or digits on at least one side of a point.
def isMantissa (chars : List Char) : Bool :=
  let whole := chars.takeWhile (· ≠ '.')
  match chars.dropWhile (· ≠ '.') with
  | [] => isRun Char.isDigit whole
  | _ :: fraction =>
    (whole.isEmpty || isRun Char.isDigit whole) && (fraction.isEmpty || isRun Char.isDigit fraction) &&
      !(whole.isEmpty && fraction.isEmpty)

def unsigned : List Char → List Char
  | '+' :: rest => rest
  | '-' :: rest => rest
  | rest => rest

def isScientific (chars : List Char) : Bool :=
  match chars.dropWhile fun c => c ≠ 'e' && c ≠ 'E' with
  | [] => false
  | _ :: exponent =>
    isMantissa (chars.takeWhile fun c => c ≠ 'e' && c ≠ 'E') && isRun Char.isDigit (unsigned exponent)

-- A number of another base.
def isBased : List Char → Bool
  | '0' :: base :: rest =>
    if base = 'x' || base = 'X' then isRun (fun c => (Literal.figure? c).isSome) rest
    else if base = 'b' || base = 'B' then isRun (fun c => c = '0' || c = '1') rest
    else if base = 'o' || base = 'O' then isRun (fun c => c.isDigit && c ≠ '8' && c ≠ '9') rest
    else false
  | _ => false

def isNumber (chars : List Char) : Bool := isMantissa chars || isScientific chars || isBased chars

end Numbers

def isWord : List Char → Bool
  | [] => false
  | c :: rest => beginsName c && rest.all Text.isName

-- Behind the opening quote of a literal in single quotes.
def closesSingle : List Char → Bool
  | [] => false
  | '\\' :: _ :: rest => closesSingle rest
  | c :: rest => if c = '\x27' then rest.isEmpty else closesSingle rest

def closesDouble (chars : List Char) : Bool :=
  match Literal.extent chars with
  | .whole _ rest => rest.isEmpty
  | _ => false

-- Operators, brackets and separators. What begins a comment or a heredoc or ends the code counts as well.
def signs : List String :=
  ["(", ")", "[", "]", "\x7b", "\x7d", ",", ";", "?", ":", ".", "=", "<", ">", "+", "-", "*", "/", "%", "!", "~", "&",
    "|", "^", "@", "\\", "==", "===", "!=", "!==", "<>", "<=", ">=", "<=>", "<<", ">>", "&&", "||", "??", "++", "--",
    "**", "+=", "-=", "*=", "/=", "%=", ".=", "&=", "|=", "^=", "<<=", ">>=", "**=", "??=", "->", "?->", "=>", "::",
    "...", "|>", "#", "#[", "//", "/*", "<<<", "?>"]

def isSign (chars : List Char) : Bool := signs.any fun sign => sign.toList = chars

def casts : List String :=
  ["int", "integer", "bool", "boolean", "float", "double", "real", "string", "binary", "array", "object", "unset"]

def isGap (c : Char) : Bool := c = ' ' || c = '\t'

-- A type in round brackets, with or without gaps, is one lexeme. These are the characters behind the opening bracket.
def closesCast (chars : List Char) : Bool :=
  let inner := chars.dropWhile isGap
  let type := inner.takeWhile Text.isName
  casts.any (fun cast => cast.toList = type.map Char.toLower) && (inner.dropWhile Text.isName).dropWhile isGap = [')']

def isLexeme : List Char → Bool
  | [] => false
  | c :: rest =>
    if beginsName c then rest.all Text.isName
    else if c.isDigit then isNumber (c :: rest)
    else if c = '$' then isWord rest
    else if c = '"' then closesDouble rest
    else if c = '\x27' then closesSingle rest
    else if c = '(' then rest.isEmpty || closesCast rest
    else if c = '.' then isSign (c :: rest) || isNumber (c :: rest)
    else isSign (c :: rest)

-- The length, less one, of the longest lexeme with which a text begins.
def longest? (chars : List Char) : Option Nat :=
  ((List.range chars.length).filter fun n => isLexeme (chars.take (n + 1))).getLast?

def isBlank (c : Char) : Bool := c = ' ' || c = '\n' || c = '\r' || c = '\t'

def splitChars : List Char → Option (List String)
  | [] => some []
  | c :: rest =>
    if isBlank c then splitChars rest
    else do
      let n ← longest? (c :: rest)
      some (String.ofList (c :: rest.take n) :: (← splitChars (rest.drop n)))
termination_by chars => chars.length

def split (text : String) : Option (List String) := splitChars text.toList

example : split "$a--1e+3!=(int)f" = some ["$a", "--", "1e+3", "!=", "(int)", "f"] := by
  cbv

section Longest

-- Nothing of what stands behind a lexeme would make it longer.
def Ends (lexeme tail : List Char) : Prop := ∀ more, more ≠ [] → more <+: tail → isLexeme (lexeme ++ more) = false

theorem longest?_append {c : Char} {own tail : List Char} (lexeme : isLexeme (c :: own) = true)
    (ends : Ends (c :: own) tail) : longest? (c :: own ++ tail) = some own.length := by
  have length : (c :: own ++ tail).length = own.length + 1 + tail.length := by simp [Nat.add_right_comm]
  have here : isLexeme ((c :: own ++ tail).take (own.length + 1)) = true := by
    rw [← List.length_cons, List.take_left]
    exact lexeme
  have behind : ((List.range tail.length).map (own.length + 1 + ·)).filter
      (fun n => isLexeme ((c :: own ++ tail).take (n + 1))) = [] := by
    refine List.filter_eq_nil_iff.mpr ?_
    intro n member
    obtain ⟨extra, inside, rfl⟩ := List.mem_map.mp member
    have taken : (c :: own ++ tail).take (own.length + 1 + extra + 1) = c :: own ++ tail.take (extra + 1) := by
      rw [Nat.add_assoc, ← List.length_cons, List.take_length_add_append]
    have filled : tail.take (extra + 1) ≠ [] := by
      have inside := List.mem_range.mp inside
      intro empty
      rcases List.take_eq_nil_iff.mp empty with none | rfl
      · cases none
      · cases inside
    rw [taken, ends _ filled ⟨_, List.take_append_drop _ _⟩]
    exact Bool.false_ne_true
  rw [longest?, length, List.range_add, List.filter_append, behind, List.append_nil, List.range_succ,
    List.filter_append, List.filter_cons_of_pos (p := fun n => isLexeme ((c :: own ++ tail).take (n + 1))) here,
    List.filter_nil, List.getLast?_append]
  rfl

theorem isBlank_of_isLexeme {c : Char} {own : List Char} (lexeme : isLexeme (c :: own) = true) : isBlank c = false := by
  refine Bool.eq_false_iff.mpr fun blank => ?_
  have unsigned : ∀ sign ∈ signs, sign.toList.head?.any isBlank = false := by decide
  have apart (sign : String) (listed : sign ∈ signs) : sign.toList ≠ c :: own := by
    intro same
    have head := unsigned sign listed
    rw [same, List.head?_cons, Option.any_some, blank] at head
    cases head
  have none : isSign (c :: own) = false := by
    simpa [isSign] using apart
  simp only [isBlank, Bool.or_eq_true, decide_eq_true_eq] at blank
  rcases blank with ((rfl | rfl) | rfl) | rfl <;> exact absurd (lexeme.symm.trans none) (by decide)

theorem splitChars_blank {c : Char} (blank : isBlank c = true) (rest : List Char) :
    splitChars (c :: rest) = splitChars rest := by
  rw [splitChars, if_pos blank]

theorem splitChars_append {lexeme tail : List Char} (read : isLexeme lexeme = true) (ends : Ends lexeme tail) :
    splitChars (lexeme ++ tail) = (splitChars tail).map (String.ofList lexeme :: ·) := by
  cases lexeme with
  | nil => cases read
  | cons c own =>
    have found := longest?_append read ends
    rw [List.cons_append] at found ⊢
    rw [splitChars, if_neg (by simp [isBlank_of_isLexeme read]), found]
    simp only [Option.bind_eq_bind, Option.bind_some, List.take_left, List.drop_left]
    cases splitChars tail <;> rfl

theorem ends_of_head {lexeme tail : List Char}
    (apart : ∀ d more, tail.head? = some d → isLexeme (lexeme ++ d :: more) = false) : Ends lexeme tail := by
  rintro more filled ⟨rest, rfl⟩
  cases more with
  | nil => exact absurd rfl filled
  | cons d more => exact apart d more rfl

end Longest

section Words

theorem isLexeme_word {word : List Char} (named : isWord word = true) : isLexeme word = true := by
  cases word with
  | nil => cases named
  | cons c own =>
    rw [isWord, Bool.and_eq_true] at named
    rw [isLexeme, if_pos named.1]
    exact named.2

theorem isLexeme_variable {word : List Char} (named : isWord word = true) : isLexeme ('$' :: word) = true := named

theorem isWord_append (word more : List Char) {d : Char} (apart : Text.isName d = false) :
    isWord (word ++ d :: more) = false := by
  cases word with
  | nil =>
    have begun : beginsName d = false := by
      simp only [Text.isName, Char.isAlphanum, Bool.or_eq_false_iff] at apart
      simp only [beginsName, Bool.or_eq_false_iff]
      exact ⟨⟨apart.1.1.1, apart.1.2⟩, apart.2⟩
    rw [List.nil_append, isWord, begun, Bool.false_and]
  | cons c own => rw [List.cons_append, isWord, List.all_append, List.all_cons, apart]; simp

theorem ends_word {word tail : List Char} (named : isWord word = true)
    (apart : ∀ d, tail.head? = some d → Text.isName d = false) : Ends word tail := by
  refine ends_of_head fun d more head => ?_
  have longer := isWord_append word more (apart d head)
  cases word with
  | nil => cases named
  | cons c own =>
    rw [isWord, Bool.and_eq_true] at named
    rw [List.cons_append, isLexeme, if_pos named.1]
    rwa [List.cons_append, isWord, named.1, Bool.true_and] at longer

theorem ends_variable {word tail : List Char} (apart : ∀ d, tail.head? = some d → Text.isName d = false) :
    Ends ('$' :: word) tail :=
  ends_of_head fun d more head => isWord_append word more (apart d head)

end Words

section Figures

-- The characters of numbers.
def isNumeric (c : Char) : Bool := Text.isName c || c = '.' || c = '+' || c = '-'

theorem isNumeric_of_isDigit {c : Char} (digit : c.isDigit = true) : isNumeric c = true := by
  simp [isNumeric, Text.isName, Char.isAlphanum, digit]

theorem all_of_isRun {isDigit : Char → Bool} (digits : ∀ c, isDigit c = true → isNumeric c = true) {chars : List Char}
    (run : isRun isDigit chars = true) : chars.all isNumeric = true := by
  induction chars using isRun.induct with
  | case1 => rfl
  | case2 c => simpa using digits c run
  | case3 c rest ih =>
    rw [isRun, Bool.and_eq_true] at run
    simp only [List.all_cons, digits c run.1, ih run.2]
    decide
  | case4 c rest filled other ih =>
    rw [isRun, Bool.and_eq_true] at run
    · rw [List.all_cons, digits c run.1, ih run.2, Bool.and_true]
    · exact filled
    · exact other

-- The two sides of a mark.
theorem all_of_parted {isSide : Char → Bool} (marks : ∀ c, isSide c = false → isNumeric c = true) {chars behind : List Char}
    {mark : Char} (found : chars.dropWhile isSide = mark :: behind) (front : (chars.takeWhile isSide).all isNumeric = true)
    (back : behind.all isNumeric = true) : chars.all isNumeric = true := by
  have marked : isSide mark = false := by
    have first := List.head?_dropWhile_not isSide chars
    rw [found] at first
    exact Bool.eq_false_iff.mpr (by simpa using first)
  rw [← List.takeWhile_append_dropWhile (p := isSide) (l := chars), List.all_append, front, found, List.all_cons,
    marks mark marked, back]
  rfl

theorem all_of_isMantissa {chars : List Char} (mantissa : isMantissa chars = true) : chars.all isNumeric = true := by
  have digits {part : List Char} (run : isRun Char.isDigit part = true) := all_of_isRun (fun _ => isNumeric_of_isDigit) run
  simp only [isMantissa] at mantissa
  split at mantissa
  · rename_i none
    rw [← List.takeWhile_append_dropWhile (p := (· ≠ '.')) (l := chars), none, List.append_nil]
    exact digits mantissa
  · rename_i fraction behind
    have side {part : List Char} (run : (part.isEmpty || isRun Char.isDigit part) = true) : part.all isNumeric = true := by
      rcases Bool.or_eq_true _ _ ▸ run with empty | run
      · rw [List.isEmpty_iff.mp empty]
        rfl
      · exact digits run
    simp only [Bool.and_eq_true] at mantissa
    refine all_of_parted ?_ behind (side mantissa.1.1) (side mantissa.1.2)
    intro c mark
    obtain rfl : c = '.' := by simpa using mark
    rfl

theorem all_of_unsigned {chars : List Char} (rest : (unsigned chars).all isNumeric = true) : chars.all isNumeric = true := by
  unfold unsigned at rest
  split at rest
  · rw [List.all_cons, rest]
    rfl
  · rw [List.all_cons, rest]
    rfl
  · exact rest

theorem all_of_isScientific {chars : List Char} (scientific : isScientific chars = true) :
    chars.all isNumeric = true := by
  unfold isScientific at scientific
  split at scientific
  · cases scientific
  · rename_i exponent behind
    rw [Bool.and_eq_true] at scientific
    refine all_of_parted ?_ behind (all_of_isMantissa scientific.1)
      (all_of_unsigned (all_of_isRun (fun _ => isNumeric_of_isDigit) scientific.2))
    intro c mark
    have which : c = 'e' ∨ c = 'E' := by simpa [Decidable.or_iff_not_imp_left] using mark
    rcases which with rfl | rfl <;> rfl

-- The letters, by their numbers.
theorem isAlpha_iff {c : Char} : c.isAlpha = true ↔
    65 ≤ c.val.toNat ∧ c.val.toNat ≤ 90 ∨ 97 ≤ c.val.toNat ∧ c.val.toNat ≤ 122 := by
  have upper : c.isUpper = true ↔ 65 ≤ c.val.toNat ∧ c.val.toNat ≤ 90 := decide_eq_true_iff
  have lower : c.isLower = true ↔ 97 ≤ c.val.toNat ∧ c.val.toNat ≤ 122 :=
    (Bool.and_eq_true_iff ..).trans (and_congr decide_eq_true_iff decide_eq_true_iff)
  exact (Bool.or_eq_true_iff ..).trans (or_congr upper lower)

theorem isNumeric_of_figure? {c : Char} (figure : (Literal.figure? c).isSome = true) : isNumeric c = true := by
  have between {low high : Char} (range : low ≤ c ∧ c ≤ high) :
      low.val.toNat ≤ c.val.toNat ∧ c.val.toNat ≤ high.val.toNat := range
  have alphanumeric : c.isAlphanum = true := by
    simp only [Char.isAlphanum, Char.isDigit, Bool.or_eq_true, isAlpha_iff, Bool.and_eq_true, decide_eq_true_eq, ge_iff_le,
      UInt32.le_iff_toNat_le]
    unfold Literal.figure? at figure
    split at figure
    · rename_i digit
      exact .inr (between digit)
    · split at figure
      · rename_i lower
        have := between lower
        simp only [Char.reduceVal, UInt32.reduceToNat] at this ⊢
        omega
      · split at figure
        · rename_i upper
          have := between upper
          simp only [Char.reduceVal, UInt32.reduceToNat] at this ⊢
          omega
        · cases figure
  simp [isNumeric, Text.isName, alphanumeric]

theorem all_of_isBased {chars : List Char} (based : isBased chars = true) : chars.all isNumeric = true := by
  unfold isBased at based
  split at based
  · rename_i base rest
    have whole (mark : isNumeric base = true) (digits : rest.all isNumeric = true) :
        ('0' :: base :: rest).all isNumeric = true := by
      simp only [List.all_cons, mark, digits]
      decide
    split at based
    · rename_i hexadecimal
      refine whole ?_ (all_of_isRun (fun _ => isNumeric_of_figure?) based)
      rcases (by simpa using hexadecimal : base = 'x' ∨ base = 'X') with rfl | rfl <;> decide
    · split at based
      · rename_i binary
        refine whole ?_ (all_of_isRun ?_ based)
        · rcases (by simpa using binary : base = 'b' ∨ base = 'B') with rfl | rfl <;> decide
        · intro c digit
          rcases (by simpa using digit : c = '0' ∨ c = '1') with rfl | rfl <;> decide
      · split at based
        · rename_i octal
          refine whole ?_ (all_of_isRun ?_ based)
          · rcases (by simpa using octal : base = 'o' ∨ base = 'O') with rfl | rfl <;> decide
          · intro c digit
            simp only [Bool.and_eq_true] at digit
            exact isNumeric_of_isDigit digit.1.1
        · cases based
  · cases based

theorem all_of_isNumber {chars : List Char} (number : isNumber chars = true) : chars.all isNumeric = true := by
  simp only [isNumber, Bool.or_eq_true] at number
  rcases number with (mantissa | scientific) | based
  · exact all_of_isMantissa mantissa
  · exact all_of_isScientific scientific
  · exact all_of_isBased based

theorem isNumber_append (chars more : List Char) {d : Char} (apart : isNumeric d = false) :
    isNumber (chars ++ d :: more) = false := by
  refine Bool.eq_false_iff.mpr fun number => ?_
  have numeric := List.all_eq_true.mp (all_of_isNumber number) d (by simp)
  rw [apart] at numeric
  cases numeric

theorem beginsName_of_isDigit {c : Char} (digit : c.isDigit = true) : beginsName c = false := by
  simp only [Char.isDigit, Bool.and_eq_true, decide_eq_true_eq, ge_iff_le, UInt32.le_iff_toNat_le, Char.reduceVal,
    UInt32.reduceToNat] at digit
  have plain : c ≠ '_' := by
    rintro rfl
    exact absurd digit (by decide)
  have alpha : c.isAlpha = false := by
    rw [Bool.eq_false_iff, ne_eq, isAlpha_iff]
    omega
  have low : ¬ 128 ≤ c.toNat := Nat.not_le.mpr (Nat.lt_of_le_of_lt digit.2 (by decide))
  simp [beginsName, alpha, plain, low]

theorem isLexeme_digit {c : Char} (digit : c.isDigit = true) (own : List Char) :
    isLexeme (c :: own) = isNumber (c :: own) := by
  rw [isLexeme, if_neg (by simp [beginsName_of_isDigit digit]), if_pos digit]

theorem ends_number {c : Char} {own tail : List Char} (digit : c.isDigit = true)
    (apart : ∀ d, tail.head? = some d → isNumeric d = false) : Ends (c :: own) tail := by
  refine ends_of_head fun d more head => ?_
  rw [List.cons_append, isLexeme_digit digit]
  exact isNumber_append (c :: own) more (apart d head)

end Figures

section Quotes

theorem isLexeme_double (rest : List Char) : isLexeme ('"' :: rest) = closesDouble rest := rfl

theorem isLexeme_single (rest : List Char) : isLexeme ('\x27' :: rest) = closesSingle rest := rfl

theorem isLexeme_quoted (text : String) : isLexeme (Text.quoted text).toList = true := by
  simp [Text.quoted, isLexeme_double, closesDouble, Literal.extent_escaped]

theorem ends_quoted (text : String) (tail : List Char) : Ends (Text.quoted text).toList tail := by
  refine ends_of_head fun d more _ => ?_
  simp [Text.quoted, isLexeme_double, closesDouble, Literal.extent_escaped]

end Quotes

section Signs

-- The characters with which other lexemes than operators and separators begin.
def isOperator (c : Char) : Bool := !(beginsName c || c.isDigit || c ∈ ['$', '"', '\x27', '(', '.'])

theorem isLexeme_operator {c : Char} (operator : isOperator c = true) (own : List Char) :
    isLexeme (c :: own) = isSign (c :: own) := by
  simp only [isOperator, Bool.not_eq_true', Bool.or_eq_false_iff, decide_eq_false_iff_not, List.mem_cons,
    List.not_mem_nil, or_false, not_or] at operator
  obtain ⟨⟨unnamed, undigit⟩, dollar, double, single, bracket, point⟩ := operator
  simp [isLexeme, unnamed, undigit, dollar, double, single, bracket, point]

-- What may stand behind a text in a sign.
def followers (lexeme : List Char) : List Char :=
  signs.filterMap fun sign => if lexeme.isPrefixOf sign.toList then sign.toList[lexeme.length]? else none

theorem isSign_append (lexeme more : List Char) {d : Char} (apart : d ∉ followers lexeme) :
    isSign (lexeme ++ d :: more) = false := by
  refine Bool.eq_false_iff.mpr fun sign => apart ?_
  obtain ⟨listed, member, same⟩ := List.any_eq_true.mp sign
  refine List.mem_filterMap.mpr ⟨listed, member, ?_⟩
  rw [of_decide_eq_true same, if_pos]
  · simp
  · exact List.isPrefixOf_iff_prefix.mpr ⟨_, rfl⟩

theorem ends_operator {c : Char} {own tail : List Char} (operator : isOperator c = true)
    (apart : ∀ d, tail.head? = some d → d ∉ followers (c :: own)) : Ends (c :: own) tail := by
  refine ends_of_head fun d more head => ?_
  rw [List.cons_append, isLexeme_operator operator]
  exact isSign_append (c :: own) more (apart d head)

example : followers ['-'] = ['-', '=', '>'] := by decide

theorem isSign_blank (front behind : List Char) : isSign (front ++ ' ' :: behind) = false := by
  refine Bool.eq_false_iff.mpr fun sign => ?_
  obtain ⟨listed, member, same⟩ := List.any_eq_true.mp sign
  have unblank : ∀ sign ∈ signs, ' ' ∉ sign.toList := by decide
  refine unblank listed member ?_
  rw [of_decide_eq_true same]
  simp

-- In front of a blank, every sign ends but the bracket, which may begin a cast.
theorem ends_blank {sign : String} (listed : sign ∈ signs) (other : sign ≠ "(") (tail : List Char) :
    Ends sign.toList (' ' :: tail) := by
  refine ends_of_head fun d more head => ?_
  cases head
  have heads : ∀ sign ∈ signs, sign = "(" ∨ sign.toList.head?.any (fun c => isOperator c || c = '.') = true := by decide
  rcases heads sign listed with bracket | begun
  · exact absurd bracket other
  · cases chars : sign.toList with
    | nil =>
      rw [chars] at begun
      cases begun
    | cons c own =>
      rw [chars] at begun
      rcases Bool.or_eq_true _ _ ▸ begun with operator | point
      · rw [List.cons_append, isLexeme_operator operator]
        exact isSign_blank (c :: own) more
      · obtain rfl : c = '.' := of_decide_eq_true point
        show (isSign ('.' :: own ++ ' ' :: more) || isNumber ('.' :: own ++ ' ' :: more)) = false
        rw [isSign_blank, isNumber_append _ _ (by decide)]
        rfl

end Signs

section Brackets

theorem isLexeme_bracket (rest : List Char) : isLexeme ('(' :: rest) = (rest.isEmpty || closesCast rest) := rfl

-- Behind a bracket, no type is closed: the word there is none, or another bracket is opened behind it.
def Uncast (chars : List Char) : Prop :=
  chars.head?.any isGap = false ∧
    (casts.all (fun cast => cast.toList ≠ (chars.takeWhile Text.isName).map Char.toLower) = true ∨
      (chars.dropWhile Text.isName).head? = some '(')

theorem ends_bracket {tail : List Char} (uncast : Uncast tail) : Ends ['('] tail := by
  rintro more filled ⟨rest, rfl⟩
  obtain ⟨ungapped, other⟩ := uncast
  rw [List.singleton_append, isLexeme_bracket, List.isEmpty_eq_false_iff.mpr filled, Bool.false_or]
  refine Bool.eq_false_iff.mpr fun closed => ?_
  have inner : more.dropWhile isGap = more := by
    cases more with
    | nil => rfl
    | cons c more => exact List.dropWhile_cons_of_neg (by simpa using ungapped)
  simp only [closesCast, inner, Bool.and_eq_true, decide_eq_true_eq] at closed
  -- The word ends within what is read, so that it is the word of the whole text.
  have parted : more.dropWhile Text.isName ≠ [] := by
    intro none
    rw [none] at closed
    cases closed.2
  have behind : ((more ++ rest).dropWhile Text.isName).head? = (more.dropWhile Text.isName).head? := by
    rw [List.dropWhile_append, if_neg (by rwa [List.isEmpty_iff]), List.head?_append, List.head?_eq_some_head parted]
    rfl
  have type : (more ++ rest).takeWhile Text.isName = more.takeWhile Text.isName := by
    rw [List.takeWhile_append, if_neg]
    intro whole
    refine parted (List.eq_nil_of_length_eq_zero ?_)
    have sum := congrArg List.length (List.takeWhile_append_dropWhile (p := Text.isName) (l := more))
    rw [List.length_append] at sum
    omega
  rw [type, behind] at other
  rcases other with unknown | opened
  · obtain ⟨cast, member, same⟩ := List.any_eq_true.mp closed.1
    exact absurd (of_decide_eq_true same) (of_decide_eq_true (List.all_eq_true.mp unknown cast member))
  · cases remaining : more.dropWhile Text.isName with
    | nil => exact parted remaining
    | cons c after =>
      rw [remaining] at opened closed
      cases opened
      cases closed.2

theorem ends_float (tail : List Char) : Ends "(float)".toList tail := by
  refine ends_of_head fun d more _ => ?_
  simp [isLexeme_bracket, closesCast, isGap, Text.isName]

end Brackets

end Lexeme
end Stencil
