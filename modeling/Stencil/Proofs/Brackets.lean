import Stencil.Code

-- Brackets and blocks in generated code. A reader passes over string literals as a whole and keeps the brackets that it
-- meets outside of them, with the beginnings and ends of blocks. A text can be read piece by piece if none of its pieces
-- ends within a literal or a sign.

namespace Stencil

inductive Bracket where
  | curly
  | round
  | square
  deriving DecidableEq

-- What a reader keeps of a text: brackets, the limits of blocks, and a literal that does not end.
inductive Sign where
  | opens (bracket : Bracket)
  | closes (bracket : Bracket)
  | enter
  | leave
  | broken
  deriving DecidableEq

namespace Sign

def bracket? : Char → Option Sign
  | '\x7b' => some (.opens .curly)
  | '\x7d' => some (.closes .curly)
  | '(' => some (.opens .round)
  | ')' => some (.closes .round)
  | '[' => some (.opens .square)
  | ']' => some (.closes .square)
  | _ => none

-- The sign with which a text begins.
def first (chars : List Char) : List Sign :=
  if ['<', '?', 'p', 'h', 'p'].isPrefixOf chars then [.enter]
  else if ['?', '>'].isPrefixOf chars then [.leave]
  else (chars.head?.bind bracket?).toList

end Sign

-- Where a reader is: in code, in a string literal, or there behind a backslash.
inductive Reader where
  | code
  | quoted
  | escaped
  deriving DecidableEq

namespace Reader

def next : Reader → Char → Reader
  | .code, c => if c = '"' then .quoted else .code
  | .quoted, c => if c = '\\' then .escaped else if c = '"' then .code else .quoted
  | .escaped, _ => .quoted

def signs : Reader → List Char → List Sign
  | .code, [] => []
  | _, [] => [.broken]
  | .code, c :: rest => Sign.first (c :: rest) ++ signs (next .code c) rest
  | reader, c :: rest => signs (reader.next c) rest

end Reader

def Text.signs (text : String) : List Sign := Reader.signs .code text.toList

-- A text behind which one reads on in code, whatever follows.
def Text.Whole (text : String) : Prop :=
  ∀ tail, Reader.signs .code (text.toList ++ tail) = signs text ++ Reader.signs .code tail

-- A text without brackets, quotes and the first characters of the limits of blocks.
def Text.isInert (text : String) : Bool :=
  text.toList.all fun c => c ∉ ['\x7b', '\x7d', '(', ')', '[', ']', '"', '\x27', '?', '<']

-- A text in which a reader finds nothing; single quotes mean nothing to it.
def Text.isQuiet (text : String) : Bool :=
  text.toList.all fun c => c ∉ ['\x7b', '\x7d', '(', ')', '[', ']', '"', '?', '<']

theorem Text.isQuiet_of_isInert {text : String} (inert : isInert text = true) : isQuiet text = true := by
  refine List.all_eq_true.mpr fun c member => ?_
  have free := List.all_eq_true.mp inert c member
  refine decide_eq_true fun listed => of_decide_eq_true free ?_
  have among : ['\x7b', '\x7d', '(', ')', '[', ']', '"', '?', '<'] ⊆
      ['\x7b', '\x7d', '(', ')', '[', ']', '"', '\x27', '?', '<'] := by decide
  exact among listed

section Limits

theorem isPrefixOf_append (pattern : List Char) {chars : List Char} (filled : chars ≠ [])
    (apart : ∀ c, chars.getLast? = some c → c ∉ pattern.dropLast) (tail : List Char) :
    pattern.isPrefixOf (chars ++ tail) = pattern.isPrefixOf chars := by
  induction pattern generalizing chars with
  | nil => simp
  | cons p rest ih =>
    cases chars with
    | nil => exact absurd rfl filled
    | cons c more =>
      cases rest with
      | nil => simp [List.isPrefixOf]
      | cons q others =>
        rw [List.dropLast_cons_of_ne_nil (by simp)] at apart
        cases more with
        | nil =>
          have other : c ≠ p := fun same => apart c rfl (by simp [same])
          simp [List.isPrefixOf, Ne.symm other]
        | cons d tail' =>
          have behind : ∀ x, (d :: tail').getLast? = some x → x ∉ (q :: others).dropLast := by
            intro x last listed
            exact apart x (by simpa using last) (List.mem_cons_of_mem _ listed)
          have same := ih (by simp) behind
          simp only [List.cons_append, List.isPrefixOf] at same ⊢
          rw [same]

end Limits

namespace Reader

def after (reader : Reader) (chars : List Char) : Reader := chars.foldl next reader

-- A text that does not end within a sign.
def settles (chars : List Char) : Bool := chars.getLast?.all fun c => c ∉ ['<', '?', 'p', 'h']

theorem first_append {chars : List Char} (filled : chars ≠ []) (settled : settles chars = true) (tail : List Char) :
    Sign.first (chars ++ tail) = Sign.first chars := by
  have apart : ∀ c, chars.getLast? = some c → c ∉ ['<', '?', 'p', 'h'] := by
    intro c last
    simpa [settles, last] using settled
  have entry := isPrefixOf_append ['<', '?', 'p', 'h', 'p'] filled (fun c last => apart c last) tail
  have exit := isPrefixOf_append ['?', '>'] filled (fun c last listed => by
    simp only [List.dropLast, List.mem_singleton] at listed
    exact apart c last (by simp [listed])) tail
  have head : (chars ++ tail).head? = chars.head? := by
    cases chars with
    | nil => exact absurd rfl filled
    | cons c rest => rfl
  rw [Sign.first, Sign.first, entry, exit, head]

theorem settles_tail {c : Char} {rest : List Char} (settled : settles (c :: rest) = true) : settles rest = true := by
  cases rest with
  | nil => rfl
  | cons d more => simpa [settles] using settled

theorem signs_append (reader : Reader) {chars : List Char} (settled : settles chars = true)
    (closed : reader.after chars = .code) (tail : List Char) :
    signs reader (chars ++ tail) = signs reader chars ++ signs .code tail := by
  induction chars generalizing reader with
  | nil =>
    cases closed
    rfl
  | cons c rest ih =>
    have behind := ih (reader.next c) (settles_tail settled) closed
    cases reader with
    | code =>
      rw [List.cons_append, signs, ← List.cons_append, first_append (by simp) settled, signs, behind, List.append_assoc]
    | quoted => exact behind
    | escaped => exact behind

end Reader

namespace Text

def isWhole (text : String) : Bool := Reader.settles text.toList && decide (Reader.after .code text.toList = .code)

theorem whole_of_isWhole {text : String} (whole : isWhole text = true) : Whole text := by
  intro tail
  simp only [isWhole, Bool.and_eq_true, decide_eq_true_eq] at whole
  exact Reader.signs_append .code whole.1 whole.2 tail

theorem Whole.append {front back : String} (first : Whole front) (second : Whole back) : Whole (front ++ back) := by
  intro tail
  rw [signs, String.toList_append, List.append_assoc, first, second, first, List.append_assoc]
  rfl

theorem signs_append {front : String} (whole : Whole front) (back : String) :
    signs (front ++ back) = signs front ++ signs back := by
  rw [signs, String.toList_append]
  exact whole back.toList

theorem signs_isQuiet_append {chars : List Char}
    (quiet : chars.all (fun c => c ∉ ['\x7b', '\x7d', '(', ')', '[', ']', '"', '?', '<']) = true) (tail : List Char) :
    Reader.signs .code (chars ++ tail) = Reader.signs .code tail := by
  induction chars with
  | nil => rfl
  | cons c rest ih =>
    simp only [List.all_cons, Bool.and_eq_true, decide_eq_true_eq, List.mem_cons, not_or] at quiet
    obtain ⟨⟨opened, closed, round, rounded, square, squared, quote, query, less, _⟩, others⟩ := quiet
    have begun : Sign.first (c :: (rest ++ tail)) = [] := by
      simp [Sign.first, Sign.bracket?, List.isPrefixOf, Ne.symm query, Ne.symm less, *]
    rw [List.cons_append, Reader.signs, begun, Reader.next, if_neg quote]
    exact ih (by simpa using others)

theorem signs_escaped (chars tail : List Char) :
    Reader.signs .quoted (chars.flatMap escape ++ '"' :: tail) = Reader.signs .code tail := by
  induction chars with
  | nil => rfl
  | cons c rest ih =>
    rw [List.flatMap_cons, List.append_assoc]
    by_cases escaped : needsEscape c = true
    · rw [escape, if_pos escaped]
      exact ih
    · have plain : c ≠ '\\' ∧ c ≠ '"' := by
        simp only [needsEscape, Bool.or_eq_true, decide_eq_true_eq, not_or] at escaped
        exact escaped.1
      rw [escape, if_neg escaped, List.singleton_append, Reader.signs, Reader.next, if_neg plain.1, if_neg plain.2]
      · exact ih
      · simp

-- A literal is passed over.
theorem signs_quoted_append (text : String) (tail : List Char) :
    Reader.signs .code ((quoted text).toList ++ tail) = Reader.signs .code tail := by
  have begun : (quoted text).toList ++ tail = '"' :: (text.toList.flatMap escape ++ '"' :: tail) := by simp [quoted]
  have quote : Sign.first ('"' :: (text.toList.flatMap escape ++ '"' :: tail)) = [] := by
    simp [Sign.first, Sign.bracket?, List.isPrefixOf]
  rw [begun, Reader.signs, quote]
  exact signs_escaped text.toList tail

end Text

-- What a reader knows behind a text: the brackets that are open, the last one first, and whether it is in a block.
structure Nesting where
  opened : List Bracket
  inside : Bool
  deriving DecidableEq

namespace Nesting

-- A bracket closes the last one that is open; blocks do not lie in one another.
def step : Nesting → Sign → Option Nesting
  | s, .opens bracket => some { s with opened := bracket :: s.opened }
  | ⟨[], _⟩, .closes _ => none
  | ⟨last :: others, inside⟩, .closes bracket => if bracket = last then some ⟨others, inside⟩ else none
  | s, .enter => if s.inside then none else some { s with inside := true }
  | s, .leave => if s.inside then some { s with inside := false } else none
  | _, .broken => none

def run : Nesting → List Sign → Option Nesting
  | s, [] => some s
  | s, sign :: rest => (s.step sign).bind (run · rest)

theorem run_append (s : Nesting) (front back : List Sign) :
    s.run (front ++ back) = (s.run front).bind (run · back) := by
  induction front generalizing s with
  | nil => rfl
  | cons sign rest ih =>
    rw [List.cons_append, run, run]
    cases s.step sign with
    | none => rfl
    | some t => exact ih t

-- The same with more brackets open around it.
def below (outer : List Bracket) (s : Nesting) : Nesting := { s with opened := s.opened ++ outer }

theorem step_below {s t : Nesting} {sign : Sign} (stepped : s.step sign = some t) (outer : List Bracket) :
    (s.below outer).step sign = some (t.below outer) := by
  obtain ⟨opened, inside⟩ := s
  cases sign with
  | opens bracket =>
    cases stepped
    rfl
  | closes bracket =>
    cases opened with
    | nil => cases stepped
    | cons last others =>
      simp only [step] at stepped
      split at stepped
      · cases stepped
        simp [step, below, *]
      · cases stepped
  | enter =>
    cases inside <;> cases stepped
    rfl
  | leave =>
    cases inside <;> cases stepped
    rfl
  | broken => cases stepped

theorem run_below {s t : Nesting} {signs : List Sign} (ran : s.run signs = some t) (outer : List Bracket) :
    (s.below outer).run signs = some (t.below outer) := by
  induction signs generalizing s with
  | nil =>
    cases ran
    rfl
  | cons sign rest ih =>
    obtain ⟨next, stepped, behind⟩ := Option.bind_eq_some_iff.mp ran
    rw [run, step_below stepped outer]
    exact ih behind

end Nesting

-- A text that leads the reader from one nesting to another.
structure Text.Leads (s t : Nesting) (text : String) : Prop where
  whole : Whole text
  run : s.run (signs text) = some t

namespace Text.Leads

variable {s t u : Nesting}

theorem append {front back : String} (first : Leads s t front) (second : Leads t u back) :
    Leads s u (front ++ back) := by
  refine ⟨first.whole.append second.whole, ?_⟩
  rw [signs_append first.whole, Nesting.run_append, first.run]
  exact second.run

theorem below {text : String} (leads : Leads s t text) (outer : List Bracket) :
    Leads (s.below outer) (t.below outer) text := ⟨leads.whole, Nesting.run_below leads.run outer⟩

end Text.Leads

-- A text with a bracket for each bracket, whatever is open around it.
structure Text.Even (text : String) : Prop where
  whole : Whole text
  run : ∀ s : Nesting, s.run (signs text) = some s

namespace Text

-- A text in which a reader finds nothing.
theorem even_of_passed {text : String}
    (passed : ∀ tail, Reader.signs .code (text.toList ++ tail) = Reader.signs .code tail) : Even text := by
  have none : signs text = [] := by
    have alone := passed []
    rwa [List.append_nil] at alone
  refine ⟨fun tail => ?_, fun s => ?_⟩
  · rw [none]
    exact passed tail
  · rw [none]
    rfl

theorem even_of_isQuiet {text : String} (quiet : isQuiet text = true) : Even text :=
  even_of_passed (signs_isQuiet_append quiet)

theorem even_quoted (text : String) : Even (quoted text) := even_of_passed (signs_quoted_append text)

theorem even_empty : Even "" := even_of_isQuiet rfl

theorem Even.append {front back : String} (first : Even front) (second : Even back) : Even (front ++ back) := by
  refine ⟨first.whole.append second.whole, fun s => ?_⟩
  rw [signs_append first.whole, Nesting.run_append, first.run]
  exact second.run s

theorem Even.leads {text : String} (even : Even text) (s : Nesting) : Leads s s text := ⟨even.whole, even.run s⟩

-- Fixed texts with other texts between them.
def fill : List String → List String → String
  | [], _ => ""
  | fixed :: rest, [] => fixed ++ fill rest []
  | fixed :: rest, hole :: holes => fixed ++ hole ++ fill rest holes

-- Whether fixed texts alone lead from one nesting to another.
def isFrame (s t : Nesting) (frame : List String) : Bool :=
  frame.all isWhole && decide (s.run (frame.flatMap signs) = some t)

-- Even texts between them change nothing.
theorem leads_fill {s t : Nesting} {frame holes : List String} (known : isFrame s t frame = true)
    (evens : ∀ hole ∈ holes, Even hole) : Leads s t (fill frame holes) := by
  induction frame generalizing s holes with
  | nil =>
    simp only [isFrame, List.all_nil, List.flatMap_nil, Bool.true_and, decide_eq_true_eq, Nesting.run,
      Option.some.injEq] at known
    rw [fill, known]
    exact even_empty.leads t
  | cons fixed rest ih =>
    simp only [isFrame, List.all_cons, Bool.and_eq_true, decide_eq_true_eq, List.flatMap_cons, Nesting.run_append,
      Option.bind_eq_some_iff] at known
    obtain ⟨⟨whole, others⟩, u, reached, behind⟩ := known
    have first : Leads s u fixed := ⟨whole_of_isWhole whole, reached⟩
    have rest : isFrame u t rest = true := by
      rw [isFrame, Bool.and_eq_true, decide_eq_true_eq]
      exact ⟨others, behind⟩
    cases holes with
    | nil => exact first.append (ih rest evens)
    | cons hole holes =>
      have even := evens hole List.mem_cons_self
      refine (first.append (even.leads u)).append (ih rest fun other member => ?_)
      exact evens other (List.mem_cons_of_mem _ member)

theorem leads_fixed {s t : Nesting} {text : String} (known : isFrame s t [text] = true) : Leads s t text := by
  have alone := @leads_fill s t [text] [] known nofun
  rwa [fill, fill, String.append_empty] at alone

-- Fixed texts that close the brackets which they open, in a block and outside.
theorem even_fill {frame holes : List String}
    (known : (isFrame ⟨[], true⟩ ⟨[], true⟩ frame && isFrame ⟨[], false⟩ ⟨[], false⟩ frame) = true)
    (evens : ∀ hole ∈ holes, Even hole) : Even (fill frame holes) := by
  rw [Bool.and_eq_true] at known
  have within := leads_fill known.1 evens
  have without := leads_fill known.2 evens
  refine ⟨within.whole, fun s => ?_⟩
  obtain ⟨opened, inside⟩ := s
  cases inside with
  | true => exact (within.below opened).run
  | false => exact (without.below opened).run

end Text

end Stencil
