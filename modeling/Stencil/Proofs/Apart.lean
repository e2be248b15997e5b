import Stencil.Proofs.Lexeme

-- Texts whose lexemes stay apart. The text of an expression is put together from lexemes with brackets, commas and blanks
-- between them, and it is split into these lexemes again, whatever may follow it. Only a minus sign stands directly before
-- its operand: two of them in a row are read as one lexeme.

namespace Stencil

namespace Lexeme

section Pieces

-- A text that is split into the given lexemes in front of the given tail.
def Splits (text : List Char) (lexemes : List String) (tail : List Char) : Prop :=
  splitChars (text ++ tail) = (splitChars tail).map (lexemes ++ ·)

theorem Splits.append {front back tail : List Char} {first second : List String}
    (ahead : Splits front first (back ++ tail)) (behind : Splits back second tail) :
    Splits (front ++ back) (first ++ second) tail := by
  rw [Splits, List.append_assoc, ahead, behind, Option.map_map]
  simp only [Function.comp_def, List.append_assoc]

theorem Splits.lexeme (text : List Char) {tail : List Char} (read : isLexeme text = true) (ends : Ends text tail) :
    Splits text [String.ofList text] tail :=
  splitChars_append read ends

theorem Splits.blank (tail : List Char) : Splits [' '] [] tail := by
  rw [Splits, List.singleton_append, splitChars_blank (by decide)]
  simp

theorem eq_false_of_all {chars : List Char} {isSide : Char → Bool} (all : chars.all (fun c => !isSide c) = true) {c : Char}
    (listed : c ∈ chars) : isSide c = false := by
  simpa using List.all_eq_true.mp all c listed

-- What may stand behind an expression in other code.
def Follows (tail : List Char) : Prop := ∀ c, tail.head? = some c → c ∈ [' ', ')', ']', ',', '(', '[']

theorem Follows.numeric {tail : List Char} (follows : Follows tail) (c : Char) (head : tail.head? = some c) :
    isNumeric c = false :=
  eq_false_of_all (by decide) (follows c head)

theorem Follows.name {tail : List Char} (follows : Follows tail) (c : Char) (head : tail.head? = some c) :
    Text.isName c = false := by
  have numeric := follows.numeric c head
  simp only [isNumeric, Bool.or_eq_false_iff] at numeric
  exact numeric.1.1.1

theorem Follows.cons {c : Char} (listed : c ∈ [' ', ')', ']', ',', '(', '[']) (tail : List Char) : Follows (c :: tail) := by
  rintro d head
  cases head
  exact listed

theorem Follows.closing {c : Char} (closing : c ∈ [')', ']']) (tail : List Char) : Follows (c :: tail) := by
  have known : [')', ']'] ⊆ [' ', ')', ']', ',', '(', '['] := by decide
  exact Follows.cons (known closing) tail

theorem uncast_of_head {c : Char} (apart : (Text.isName c || isGap c) = false) (rest : List Char) : Uncast (c :: rest) := by
  rw [Bool.or_eq_false_iff] at apart
  refine ⟨apart.2, .inl ?_⟩
  rw [List.takeWhile_cons_of_neg (by simp [apart.1])]
  decide

theorem toList_quoted (text : String) :
    (Text.quoted text).toList = '"' :: (text.toList.flatMap Text.escape ++ ['"']) := by
  simp [Text.quoted]

-- The text of an expression without a minus sign in front of it.
structure Lexes (text : List Char) (lexemes : List String) : Prop where
  split : ∀ tail, Follows tail → Splits text lexemes tail
  opens : ∃ c rest, text = c :: rest ∧ c ∉ ['-', '=', '>']
  uncast : ∀ tail, Follows tail → Uncast (text ++ tail)
  unsigned : ∃ first rest, lexemes = first :: rest ∧ first ≠ "-" ∧ first ≠ "--"

-- What is put behind the text of an expression to make it longer.
structure Trails (text : List Char) (lexemes : List String) : Prop where
  follows : ∀ tail, Follows (text ++ tail)
  split : ∀ tail, Follows tail → Splits text lexemes tail

-- What is put between brackets.
structure Fills (text : List Char) (lexemes : List String) : Prop where
  split : ∀ c ∈ [')', ']'], ∀ tail, Splits text lexemes (c :: tail)
  uncast : ∀ c ∈ [')', ']'], ∀ tail, Uncast (text ++ c :: tail)

theorem Lexes.extend {body more : List Char} {own others : List String} (lexes : Lexes body own)
    (trails : Trails more others) : Lexes (body ++ more) (own ++ others) where
  split tail follows := (lexes.split _ (trails.follows tail)).append (trails.split tail follows)
  opens := by
    obtain ⟨c, rest, rfl, apart⟩ := lexes.opens
    exact ⟨c, rest ++ more, rfl, apart⟩
  uncast tail _ := by
    rw [List.append_assoc]
    exact lexes.uncast _ (trails.follows tail)
  unsigned := by
    obtain ⟨first, rest, rfl, apart⟩ := lexes.unsigned
    exact ⟨first, rest ++ others, rfl, apart⟩

end Pieces

section Minus

-- A minus sign in front of lexemes, when nothing keeps it apart.
def glued : List String → List String
  | "--" :: rest => "--" :: glued rest
  | "-" :: rest => "--" :: rest
  | rest => "-" :: rest

theorem glued_of_unsigned {first : String} (other : first ≠ "-" ∧ first ≠ "--") (rest : List String) :
    glued (first :: rest) = "-" :: first :: rest := by
  unfold glued
  split
  · rename_i same
    cases same
    exact absurd rfl other.2
  · rename_i same
    cases same
    exact absurd rfl other.1
  · rfl

-- The text of an expression, with the minus signs in front of it.
inductive Spells : List Char → List String → Prop where
  | plain {text : List Char} {lexemes : List String} : Lexes text lexemes → Spells text lexemes
  | minus {text : List Char} {lexemes : List String} : Spells text lexemes → Spells ('-' :: text) (glued lexemes)

namespace Spells

variable {text : List Char} {lexemes : List String}

theorem glued_glued (spells : Spells text lexemes) : glued (glued lexemes) = "--" :: lexemes := by
  induction spells with
  | plain lexes =>
    obtain ⟨first, rest, rfl, other⟩ := lexes.unsigned
    rw [glued_of_unsigned other]
    rfl
  | minus _ ih =>
    rw [ih]
    rfl

theorem ends_minus {body : List Char} {own : List String} (lexes : Lexes body own) (tail : List Char) :
    Ends ['-'] (body ++ tail) := by
  obtain ⟨c, rest, rfl, apart⟩ := lexes.opens
  refine ends_operator (by decide) ?_
  rintro d head
  cases head
  have followers : followers ['-'] = ['-', '=', '>'] := by decide
  rwa [followers]

theorem ends_decrement (tail : List Char) : Ends ['-', '-'] tail := by
  refine ends_operator (by decide) fun d _ => ?_
  have followers : followers ['-', '-'] = [] := by decide
  rw [followers]
  exact List.not_mem_nil

-- Two minus signs are taken at once, so that the recursion passes over two of them.
theorem split : ∀ {text : List Char} {lexemes : List String}, Spells text lexemes → ∀ tail, Follows tail →
    Splits text lexemes tail
  | _, _, plain lexes, tail, follows => lexes.split tail follows
  | _, _, minus (@plain text lexemes lexes), tail, follows => by
    obtain ⟨first, rest, rfl, other⟩ := lexes.unsigned
    rw [glued_of_unsigned other]
    exact (Splits.lexeme _ (by decide) (ends_minus lexes tail)).append (lexes.split tail follows)
  | _, _, minus (minus spells), tail, follows => by
    rw [spells.glued_glued]
    exact (Splits.lexeme ['-', '-'] (by decide) (ends_decrement _)).append (split spells tail follows)

theorem opens (spells : Spells text lexemes) : ∃ c rest, text = c :: rest ∧ c ≠ '=' := by
  cases spells with
  | plain lexes =>
    obtain ⟨c, rest, same, apart⟩ := lexes.opens
    refine ⟨c, rest, same, ?_⟩
    rintro rfl
    exact apart (by decide)
  | minus => exact ⟨'-', _, rfl, by decide⟩

theorem uncast (spells : Spells text lexemes) {tail : List Char} (follows : Follows tail) : Uncast (text ++ tail) := by
  cases spells with
  | plain lexes => exact lexes.uncast tail follows
  | minus => exact uncast_of_head (by decide) _

theorem fills (spells : Spells text lexemes) : Fills text lexemes where
  split _ closing tail := spells.split _ (Follows.closing closing tail)
  uncast _ closing tail := spells.uncast (Follows.closing closing tail)

theorem extends_glued {more : List Char} {others : List String} (spells : Spells text lexemes)
    (trails : Trails more others) :
    Spells (text ++ more) (lexemes ++ others) ∧ glued lexemes ++ others = glued (lexemes ++ others) := by
  induction spells with
  | plain lexes =>
    refine ⟨.plain (lexes.extend trails), ?_⟩
    obtain ⟨first, rest, rfl, other⟩ := lexes.unsigned
    rw [glued_of_unsigned other, List.cons_append, List.cons_append, glued_of_unsigned other]
  | minus spells ih =>
    obtain ⟨longer, moved⟩ := ih
    rw [moved]
    refine ⟨.minus longer, ?_⟩
    rw [longer.glued_glued, spells.glued_glued]
    rfl

theorem extend {more : List Char} {others : List String} (spells : Spells text lexemes) (trails : Trails more others) :
    Spells (text ++ more) (lexemes ++ others) :=
  (spells.extends_glued trails).1

theorem splitChars (spells : Spells text lexemes) : splitChars text = some lexemes := by
  have whole := spells.split [] (fun c head => nomatch head)
  rw [Splits, List.append_nil] at whole
  simpa [Lexeme.splitChars] using whole

theorem glued_of_head (spells : Spells text lexemes) (apart : text.head? ≠ some '-') : glued lexemes = "-" :: lexemes := by
  cases spells with
  | minus => exact absurd rfl apart
  | plain lexes =>
    obtain ⟨first, rest, rfl, other⟩ := lexes.unsigned
    exact glued_of_unsigned other rest

end Spells

end Minus

section Enclosure

-- Lexemes in brackets.
def bracketed (inner : List String) : List String := "(" :: (inner ++ [")"])

def indexed (inner : List String) : List String := "[" :: (inner ++ ["]"])

-- A sign that nothing makes longer.
def isFinal (sign : List Char) : Bool := sign.head?.any isOperator && isSign sign && (followers sign).isEmpty

theorem splits_final (sign : List Char) (final : isFinal sign = true) (tail : List Char) :
    Splits sign [String.ofList sign] tail := by
  cases sign with
  | nil => cases final
  | cons c own =>
    simp only [isFinal, Bool.and_eq_true, List.isEmpty_iff] at final
    obtain ⟨⟨operator, listed⟩, none⟩ := final
    refine Splits.lexeme _ ?_ (ends_operator operator fun d _ => ?_)
    · rwa [isLexeme_operator operator]
    · rw [none]
      exact List.not_mem_nil

theorem splits_bracketed {inner : List Char} {lexemes : List String} (fills : Fills inner lexemes) (tail : List Char) :
    Splits ('(' :: (inner ++ [')'])) (bracketed lexemes) tail := by
  have ends : Ends ['('] (inner ++ [')'] ++ tail) := by
    rw [List.append_assoc]
    exact ends_bracket (fills.uncast ')' (by decide) tail)
  exact (Splits.lexeme _ (by decide) ends).append
    ((fills.split ')' (by decide) tail).append (splits_final _ (by decide) tail))

theorem splits_indexed {inner : List Char} {lexemes : List String} (fills : Fills inner lexemes) (tail : List Char) :
    Splits ('[' :: (inner ++ [']'])) (indexed lexemes) tail :=
  (splits_final ['['] (by decide) _).append
    ((fills.split ']' (by decide) tail).append (splits_final _ (by decide) tail))

theorem lexes_bracketed {inner : List Char} {lexemes : List String} (fills : Fills inner lexemes) :
    Lexes ('(' :: (inner ++ [')'])) (bracketed lexemes) where
  split tail _ := splits_bracketed fills tail
  opens := ⟨'(', _, rfl, by decide⟩
  uncast tail _ := uncast_of_head (by decide) _
  unsigned := ⟨"(", _, rfl, by decide, by decide⟩

theorem lexes_indexed {inner : List Char} {lexemes : List String} (fills : Fills inner lexemes) :
    Lexes ('[' :: (inner ++ [']'])) (indexed lexemes) where
  split tail _ := splits_indexed fills tail
  opens := ⟨'[', _, rfl, by decide⟩
  uncast tail _ := uncast_of_head (by decide) _
  unsigned := ⟨"[", _, rfl, by decide, by decide⟩

theorem trails_bracketed {inner : List Char} {lexemes : List String} (fills : Fills inner lexemes) :
    Trails ('(' :: (inner ++ [')'])) (bracketed lexemes) where
  follows tail := Follows.cons (by decide) _
  split tail _ := splits_bracketed fills tail

theorem trails_indexed {inner : List Char} {lexemes : List String} (fills : Fills inner lexemes) :
    Trails ('[' :: (inner ++ [']'])) (indexed lexemes) where
  follows tail := Follows.cons (by decide) _
  split tail _ := splits_indexed fills tail

end Enclosure

section Combination

variable {left right : List Char} {first second : List String}

theorem isLexeme_sign : ∀ sign ∈ signs, isLexeme sign.toList = true := by decide

theorem trails_operator (sign : String) (listed : sign ∈ signs ∧ sign ≠ "(") (spells : Spells right second) :
    Trails (' ' :: (sign.toList ++ ' ' :: right)) (sign :: second) where
  follows tail := Follows.cons (by decide) _
  split tail follows := by
    have read := Splits.lexeme _ (isLexeme_sign sign listed.1) (ends_blank listed.1 listed.2 (right ++ tail))
    rw [String.ofList_toList] at read
    exact (Splits.blank _).append (read.append ((Splits.blank _).append (spells.split tail follows)))

theorem Spells.operator (before : Spells left first) (sign : String) (listed : sign ∈ signs ∧ sign ≠ "(")
    (after : Spells right second) : Spells (left ++ ' ' :: (sign.toList ++ ' ' :: right)) (first ++ sign :: second) :=
  before.extend (trails_operator sign listed after)

theorem trails_comma (spells : Spells right second) : Trails (',' :: ' ' :: right) ("," :: second) where
  follows tail := Follows.cons (by decide) _
  split tail follows :=
    (splits_final [','] (by decide) _).append ((Splits.blank _).append (spells.split tail follows))

theorem fills_empty : Fills [] [] where
  split c _ tail := by simp [Splits]
  uncast c closing tail :=
    uncast_of_head (@eq_false_of_all _ (fun c => Text.isName c || isGap c) (by decide) c closing) tail

-- Negations.
theorem lexes_not (spells : Spells right second) : Lexes ('!' :: right) ("!" :: second) where
  split tail follows := by
    obtain ⟨c, rest, rfl, apart⟩ := spells.opens
    refine (Splits.lexeme ['!'] (by decide) (ends_operator (by decide) ?_)).append (spells.split tail follows)
    rintro d head
    cases head
    have followers : followers ['!'] = ['=', '='] := by decide
    simpa [followers] using apart
  opens := ⟨'!', _, rfl, by decide⟩
  uncast tail _ := uncast_of_head (by decide) _
  unsigned := ⟨"!", _, rfl, by decide, by decide⟩

theorem lexes_bitNot (spells : Spells right second) : Lexes ('~' :: right) ("~" :: second) where
  split tail follows := (splits_final ['~'] (by decide) _).append (spells.split tail follows)
  opens := ⟨'~', _, rfl, by decide⟩
  uncast tail _ := uncast_of_head (by decide) _
  unsigned := ⟨"~", _, rfl, by decide, by decide⟩

end Combination

section Atoms

theorem unsigned_of_head {c : Char} (other : c ≠ '-') (own : List Char) :
    String.ofList (c :: own) ≠ "-" ∧ String.ofList (c :: own) ≠ "--" := by
  constructor <;>
  · rintro same
    rw [← String.toList_inj, String.toList_ofList] at same
    cases same
    exact other rfl

theorem opens_word {word : List Char} (named : isWord word = true) : ∃ c rest, word = c :: rest ∧ c ∉ ['-', '=', '>'] := by
  cases word with
  | nil => cases named
  | cons c own =>
    refine ⟨c, own, rfl, fun listed => ?_⟩
    rw [isWord, Bool.and_eq_true] at named
    have apart : Literal.beginsName c = false := eq_false_of_all (by decide) listed
    rw [apart] at named
    cases named.1

theorem unsigned_of_opens {word : List Char} (opens : ∃ c rest, word = c :: rest ∧ c ∉ ['-', '=', '>']) :
    String.ofList word ≠ "-" ∧ String.ofList word ≠ "--" := by
  obtain ⟨c, rest, rfl, apart⟩ := opens
  exact unsigned_of_head (fun same => apart (by simp [same])) rest

theorem isName_of_beginsName {c : Char} (begins : Literal.beginsName c = true) : Text.isName c = true := by
  simp only [Literal.beginsName, Bool.or_eq_true] at begins
  simp only [Text.isName, Char.isAlphanum, Bool.or_eq_true]
  rcases begins with (alpha | underscore) | high
  · exact .inl (.inl (.inl alpha))
  · exact .inl (.inr underscore)
  · exact .inr high

theorem all_of_isWord {word : List Char} (named : isWord word = true) : word.all Text.isName = true := by
  cases word with
  | nil => cases named
  | cons c own =>
    rw [isWord, Bool.and_eq_true] at named
    rw [List.all_cons, isName_of_beginsName named.1, named.2]
    rfl

-- Names never begin with a gap.
theorem ungapped {word : List Char} (named : isWord word = true) (tail : List Char) :
    (word ++ tail).head?.any isGap = false := by
  cases word with
  | nil => cases named
  | cons c own =>
    rw [isWord, Bool.and_eq_true] at named
    refine Bool.eq_false_iff.mpr fun gap => ?_
    have which : c = ' ' ∨ c = '\t' := by simpa [isGap] using gap
    rcases which with rfl | rfl <;> exact absurd named.1 (by decide)

-- A text is parted at the first character of another kind.
theorem parted {isSide : Char → Bool} {front : List Char} (all : front.all isSide = true) (tail : List Char)
    (apart : ∀ c, tail.head? = some c → isSide c = false) :
    (front ++ tail).takeWhile isSide = front ∧ (front ++ tail).dropWhile isSide = tail := by
  have kept := List.all_eq_true.mp all
  rw [List.takeWhile_append_of_pos kept, List.dropWhile_append_of_pos kept]
  cases tail with
  | nil => simp
  | cons c tail =>
    have other := apart c rfl
    rw [List.takeWhile_cons_of_neg (by simp [other]), List.dropWhile_cons_of_neg (by simp [other])]
    simp

-- A word in brackets is not a type.
def isUncast (word : List Char) : Bool := casts.all fun cast => cast.toList ≠ word.map Char.toLower

theorem lexes_word (word : List Char) (named : isWord word = true) (other : isUncast word = true) :
    Lexes word [String.ofList word] where
  split tail follows := Splits.lexeme _ (isLexeme_word named) (ends_word named follows.name)
  opens := opens_word named
  uncast tail follows := by
    refine ⟨ungapped named tail, .inl ?_⟩
    rw [(parted (all_of_isWord named) tail follows.name).1]
    exact other
  unsigned := ⟨_, [], rfl, unsigned_of_opens (opens_word named)⟩

theorem lexes_called (word : List Char) (named : isWord word = true) {inner : List Char} {lexemes : List String}
    (fills : Fills inner lexemes) :
    Lexes (word ++ '(' :: (inner ++ [')'])) (String.ofList word :: bracketed lexemes) where
  split tail _ :=
    (Splits.lexeme _ (isLexeme_word named) (ends_word named fun c head => by cases head; decide)).append
      (splits_bracketed fills tail)
  opens := by
    obtain ⟨c, rest, rfl, apart⟩ := opens_word named
    exact ⟨c, _, rfl, apart⟩
  uncast tail _ := by
    rw [List.append_assoc]
    refine ⟨ungapped named _, .inr ?_⟩
    rw [(parted (all_of_isWord named) _ fun c head => by cases head; decide).2]
    rfl
  unsigned := ⟨_, _, rfl, unsigned_of_opens (opens_word named)⟩

theorem lexes_variable (word : List Char) (named : isWord word = true) :
    Lexes ('$' :: word) [String.ofList ('$' :: word)] where
  split tail follows := Splits.lexeme _ (isLexeme_variable named) (ends_variable follows.name)
  opens := ⟨'$', word, rfl, by decide⟩
  uncast tail _ := uncast_of_head (by decide) _
  unsigned := ⟨_, [], rfl, unsigned_of_head (by decide) word⟩

theorem lexes_quoted (text : String) : Lexes (Text.quoted text).toList [Text.quoted text] where
  split tail _ := by
    have read := Splits.lexeme _ (isLexeme_quoted text) (ends_quoted text tail)
    rwa [String.ofList_toList] at read
  opens := ⟨'"', _, toList_quoted text, by decide⟩
  uncast tail _ := by
    rw [toList_quoted]
    exact uncast_of_head (by decide) _
  unsigned := by
    refine ⟨_, [], rfl, ?_⟩
    rw [← String.ofList_toList (s := Text.quoted text), toList_quoted]
    exact unsigned_of_head (by decide) _

-- The only literal in single quotes.
theorem lexes_encoding : Lexes "'UTF-8'".toList ["'UTF-8'"] where
  split tail _ := Splits.lexeme "'UTF-8'".toList (by decide) (ends_of_head fun d more _ => by
    simp [isLexeme_single, closesSingle])
  opens := ⟨'\x27', _, rfl, by decide⟩
  uncast tail _ := uncast_of_head (by decide) _
  unsigned := ⟨_, [], rfl, by decide⟩

theorem ne_of_isDigit {c other : Char} (digit : c.isDigit = true) (different : other.isDigit = false) : c ≠ other := by
  rintro rfl
  exact absurd (digit.symm.trans different) (by decide)

theorem toLower_of_isDigit {c : Char} (digit : c.isDigit = true) : c.toLower = c := by
  simp only [Char.isDigit, Bool.and_eq_true, decide_eq_true_eq, ge_iff_le, UInt32.le_iff_toNat_le, Char.reduceVal,
    UInt32.reduceToNat] at digit
  refine dif_neg ?_
  simp only [ge_iff_le, UInt32.le_iff_toNat_le, Char.reduceVal, UInt32.reduceToNat]
  omega

-- No type begins with a digit.
theorem uncast_digit {c : Char} (digit : c.isDigit = true) (rest : List Char) : Uncast (c :: rest) := by
  have named : Text.isName c = true := by simp [Text.isName, Char.isAlphanum, digit]
  refine ⟨?_, .inl (List.all_eq_true.mpr fun cast listed => decide_eq_true fun same => ?_)⟩
  · simp [isGap, ne_of_isDigit digit (rfl : ' '.isDigit = false), ne_of_isDigit digit (rfl : '\t'.isDigit = false)]
  · rw [List.takeWhile_cons_of_pos named, List.map_cons, toLower_of_isDigit digit] at same
    have heads : ∀ cast ∈ casts, cast.toList.head?.any Char.isDigit = false := by decide
    have head := heads cast listed
    rw [same, List.head?_cons, Option.any_some, digit] at head
    cases head

theorem lexes_number {c : Char} {own : List Char} (digit : c.isDigit = true) (number : isNumber (c :: own) = true) :
    Lexes (c :: own) [String.ofList (c :: own)] where
  split tail follows := Splits.lexeme _ (by rwa [isLexeme_digit digit]) (ends_number digit follows.numeric)
  opens := by
    refine ⟨c, own, rfl, fun listed => ?_⟩
    exact ne_of_isDigit digit (eq_false_of_all (by decide) listed) rfl
  uncast tail _ := uncast_digit digit _
  unsigned := ⟨_, [], rfl, unsigned_of_head (ne_of_isDigit digit rfl) own⟩

theorem lexes_float {right : List Char} {second : List String} (lexes : Lexes right second) :
    Lexes ("(float)".toList ++ right) ("(float)" :: second) where
  split tail follows :=
    (Splits.lexeme "(float)".toList (by decide) (ends_float _)).append (lexes.split tail follows)
  opens := ⟨'(', _, rfl, by decide⟩
  uncast tail _ := uncast_of_head (by decide) _
  unsigned := ⟨_, second, rfl, by decide⟩

end Atoms

end Lexeme

namespace Number

open Lexeme

section Figures

structure IsDigits (digits : List Char) : Prop where
  filled : digits ≠ []
  all : digits.all Char.isDigit = true

theorem isDigits_toDigits (n : Nat) : IsDigits (Nat.toDigits 10 n) where
  filled := Nat.toDigits_ne_nil
  all := List.all_eq_true.mpr fun _ member => Nat.isDigit_of_mem_toDigits (by decide) (by decide) member

theorem IsDigits.isRun {digits : List Char} (known : IsDigits digits) : isRun Char.isDigit digits = true := by
  obtain ⟨filled, all⟩ := known
  induction digits using isRun.induct with
  | case1 => exact absurd rfl filled
  | case2 c => simpa [Lexeme.isRun] using all
  | case3 c rest =>
    simp only [List.all_cons, Bool.and_eq_true] at all
    exact absurd all.2.1 (by decide)
  | case4 c rest single other ih =>
    rw [List.all_cons, Bool.and_eq_true] at all
    rw [Lexeme.isRun, all.1, ih (fun none => single none) all.2, Bool.true_and]
    · exact single
    · exact other

theorem IsDigits.pointless {digits : List Char} (known : IsDigits digits) : digits.all (· ≠ '.') = true :=
  List.all_eq_true.mpr fun c member =>
    decide_eq_true (ne_of_isDigit (List.all_eq_true.mp known.all c member) rfl)

theorem IsDigits.isMantissa {digits : List Char} (known : IsDigits digits) : isMantissa digits = true := by
  have whole := parted known.pointless [] fun c head => nomatch head
  rw [List.append_nil] at whole
  simp only [Lexeme.isMantissa, whole.1, whole.2]
  exact known.isRun

theorem isMantissa_fraction {whole fraction : List Char} (front : IsDigits whole) (back : IsDigits fraction) :
    isMantissa (whole ++ '.' :: fraction) = true := by
  obtain ⟨taken, left⟩ := parted front.pointless ('.' :: fraction) fun c head => by cases head; decide
  simp only [isMantissa, taken, left, front.isRun, back.isRun, Bool.or_true, Bool.true_and, Bool.not_eq_true',
    Bool.and_eq_false_iff, List.isEmpty_eq_false_iff]
  exact .inl front.filled

theorem isScientific_exponent {mantissa : List Char} (known : isMantissa mantissa = true)
    (figures : mantissa.all (fun c => c.isDigit || c = '.') = true) {sign : Char} (signed : sign = '-' ∨ sign = '+')
    {exponent : List Char} (digits : IsDigits exponent) : isScientific (mantissa ++ 'e' :: sign :: exponent) = true := by
  have unmarked : mantissa.all (fun c => c ≠ 'e' && c ≠ 'E') = true := by
    refine List.all_eq_true.mpr fun c member => ?_
    rcases Bool.or_eq_true _ _ ▸ List.all_eq_true.mp figures c member with digit | point
    · simp [ne_of_isDigit digit (rfl : 'e'.isDigit = false), ne_of_isDigit digit (rfl : 'E'.isDigit = false)]
    · rw [of_decide_eq_true point]
      decide
  obtain ⟨taken, left⟩ := parted unmarked ('e' :: sign :: exponent) fun c head => by cases head; decide
  have rest : unsigned (sign :: exponent) = exponent := by rcases signed with rfl | rfl <;> rfl
  simp only [isScientific, taken, left, known, rest, digits.isRun, Bool.and_self]

-- A number that begins with a digit.
def Unsigned (figures : List Char) : Prop := figures.head?.any Char.isDigit = true ∧ isNumber figures = true

theorem IsDigits.head {digits : List Char} (known : IsDigits digits) (more : List Char) :
    (digits ++ more).head?.any Char.isDigit = true := by
  obtain ⟨filled, all⟩ := known
  cases digits with
  | nil => exact absurd rfl filled
  | cons c own =>
    rw [List.all_cons, Bool.and_eq_true] at all
    exact all.1

theorem unsigned_toString (n : Nat) : Unsigned (toString n).toList := by
  have digits := isDigits_toDigits n
  rw [Nat.toString_eq_ofList_toDigits, String.toList_ofList]
  refine ⟨by simpa using digits.head [], ?_⟩
  rw [isNumber, digits.isMantissa]
  rfl

theorem unsigned_fraction {whole fraction : List Char} (front : IsDigits whole) (back : IsDigits fraction) :
    Unsigned (whole ++ '.' :: fraction) := by
  refine ⟨front.head _, ?_⟩
  rw [isNumber, isMantissa_fraction front back]
  rfl

theorem IsDigits.append {front back : List Char} (known : IsDigits front) (all : back.all Char.isDigit = true) :
    IsDigits (front ++ back) where
  filled := by simp [known.filled]
  all := by rw [List.all_append, known.all, all, Bool.and_self]

theorem all_zeros (count : Nat) : (List.replicate count '0').all Char.isDigit = true := by simp

theorem IsDigits.take {digits : List Char} (known : IsDigits digits) {count : Nat} (some : count ≠ 0) :
    IsDigits (digits.take count) where
  filled := by
    rw [Ne, List.take_eq_nil_iff, not_or]
    exact ⟨some, known.filled⟩
  all := List.all_eq_true.mpr fun c member => List.all_eq_true.mp known.all c (List.mem_of_mem_take member)

theorem IsDigits.drop {digits : List Char} (known : IsDigits digits) (count : Nat) :
    (digits.drop count).all Char.isDigit = true :=
  List.all_eq_true.mpr fun c member => List.all_eq_true.mp known.all c (List.mem_of_mem_drop member)

theorem unsigned_positional {digits : List Char} (known : IsDigits digits) (point : Int) :
    Unsigned (positional digits point).toList := by
  by_cases small : point ≤ 0
  · have written : (positional digits point).toList = ['0'] ++ '.' :: (List.replicate (-point).toNat '0' ++ digits) := by
      simp [positional, small, zeros]
    rw [written]
    refine unsigned_fraction ⟨by decide, by decide⟩ ⟨by simp [known.filled], ?_⟩
    rw [List.all_append, all_zeros, known.all, Bool.and_self]
  · have whole : IsDigits (digits.take point.toNat ++ List.replicate (point.toNat - digits.length) '0') :=
      (known.take (by omega)).append (all_zeros _)
    by_cases none : digits.drop point.toNat = []
    · have written : (positional digits point).toList =
          (digits.take point.toNat ++ List.replicate (point.toNat - digits.length) '0') ++ '.' :: ['0'] := by
        simp [positional, small, zeros, none]
      rw [written]
      exact unsigned_fraction whole ⟨by decide, by decide⟩
    · have written : (positional digits point).toList =
          (digits.take point.toNat ++ List.replicate (point.toNat - digits.length) '0') ++ '.' :: digits.drop point.toNat := by
        rw [positional, if_neg small]
        simp only [if_neg (show ¬ (String.ofList (digits.drop point.toNat)).isEmpty = true by simpa using none)]
        simp [zeros]
      rw [written]
      exact unsigned_fraction whole ⟨none, known.drop _⟩

theorem unsigned_exponent {mantissa : List Char} (known : isMantissa mantissa = true)
    (begun : mantissa.head?.any Char.isDigit = true) (figures : mantissa.all (fun c => c.isDigit || c = '.') = true)
    (exponent : Int) :
    Unsigned (mantissa ++ 'e' :: (if exponent < 0 then '-' else '+') :: Nat.toDigits 10 exponent.natAbs) := by
  constructor
  · cases mantissa with
    | nil => cases begun
    | cons c own => exact begun
  · rw [isNumber, isScientific_exponent known figures _ (isDigits_toDigits _), Bool.or_true]
    · rfl
    · split
      · exact .inl rfl
      · exact .inr rfl

theorem unsigned_scientific {digits : List Char} (known : IsDigits digits) (exponent : Int) :
    Unsigned (scientific "e" digits exponent).toList := by
  have lead : IsDigits (digits.take 1) := known.take (by decide)
  have figures {part : List Char} (all : part.all Char.isDigit = true) : part.all (fun c => c.isDigit || c = '.') = true :=
    List.all_eq_true.mpr fun c member => by simp [List.all_eq_true.mp all c member]
  have power : (toString exponent.natAbs).toList = Nat.toDigits 10 exponent.natAbs := by
    rw [Nat.toString_eq_ofList_toDigits, String.toList_ofList]
  have sign : (if exponent < 0 then "-" else "+").toList = [if exponent < 0 then '-' else '+'] := by split <;> rfl
  by_cases none : digits.drop 1 = []
  · have written : (scientific "e" digits exponent).toList =
        digits.take 1 ++ 'e' :: (if exponent < 0 then '-' else '+') :: Nat.toDigits 10 exponent.natAbs := by
      simp only [scientific, String.toList_append, none, power, sign]
      simp
    rw [written]
    exact unsigned_exponent lead.isMantissa (by simpa using lead.head []) (figures lead.all) exponent
  · have written : (scientific "e" digits exponent).toList = (digits.take 1 ++ '.' :: digits.drop 1) ++
        'e' :: (if exponent < 0 then '-' else '+') :: Nat.toDigits 10 exponent.natAbs := by
      simp only [scientific, String.toList_append, power, sign,
        if_neg (show ¬ (String.ofList (digits.drop 1)).isEmpty = true by simpa using none)]
      simp
    rw [written]
    refine unsigned_exponent (isMantissa_fraction lead ⟨none, known.drop 1⟩) (lead.head _) ?_ exponent
    rw [List.all_append, figures lead.all, List.all_cons, figures (known.drop 1)]
    decide

theorem unsigned_double (value : Double) :
    ∃ figures, Unsigned figures ∧ ((double value).text.toList = figures ∨ (double value).text.toList = '-' :: figures) := by
  have signed (magnitude : String) : ((if value.negative then "-" else "") ++ magnitude).toList = magnitude.toList ∨
      ((if value.negative then "-" else "") ++ magnitude).toList = '-' :: magnitude.toList := by
    cases value.negative <;> simp
  refine ⟨_, ?_, signed _⟩
  split
  · exact ⟨by decide, by decide⟩
  · split
    · exact unsigned_positional (isDigits_toDigits _) _
    · exact unsigned_scientific (isDigits_toDigits _) _

theorem unsigned_text (value : Number) :
    ∃ figures, Unsigned figures ∧ (value.text.toList = figures ∨ value.text.toList = '-' :: figures) := by
  cases value with
  | double value => exact unsigned_double value
  | integer value =>
    cases value with
    | ofNat n => exact ⟨_, unsigned_toString n, .inl rfl⟩
    | negSucc n => exact ⟨_, unsigned_toString (n + 1), .inr (by simp [text, toString, Int.repr])⟩

end Figures

-- The sign of a number is a lexeme of its own.
def lexemes (value : Number) : List String :=
  match value.text.toList with
  | '-' :: figures => ["-", String.ofList figures]
  | figures => [String.ofList figures]

theorem Unsigned.lexes {figures : List Char} (known : Unsigned figures) : Lexes figures [String.ofList figures] := by
  obtain ⟨begun, number⟩ := known
  cases figures with
  | nil => cases begun
  | cons c own => exact lexes_number begun number

theorem spells_text (value : Number) : Spells value.text.toList value.lexemes := by
  obtain ⟨figures, known, written | written⟩ := value.unsigned_text
  · obtain ⟨c, own, rfl, apart⟩ := known.lexes.opens
    have lexemes : value.lexemes = [String.ofList (c :: own)] := by
      unfold lexemes
      rw [written]
      split
      · rename_i same
        cases same
        exact absurd (by decide) apart
      · rfl
    rw [written, lexemes]
    exact .plain known.lexes
  · have lexemes : value.lexemes = glued [String.ofList figures] := by
      rw [glued_of_unsigned (unsigned_of_opens known.lexes.opens)]
      unfold lexemes
      rw [written]
      rfl
    rw [written, lexemes]
    exact .minus (.plain known.lexes)

end Number

end Stencil
