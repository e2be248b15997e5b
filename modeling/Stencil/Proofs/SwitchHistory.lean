import Stencil.Proofs.Tables

-- Switches that are asked in turns. However the calls for different switches are mixed, each switch answers as if it were
-- alone, and it only knows what was done to it since it was last opened or closed.

namespace Stencil

namespace Switches

inductive Move where
  | opens
  | enterCase
  | enterDefault
  | closes
  deriving DecidableEq

-- A switch is left without a memory.
def Move.resets : Move → Bool
  | .opens => true
  | .closes => true
  | _ => false

structure Call where
  switch : Nat
  move : Move
  deriving DecidableEq

inductive Answer where
  | silent
  | refused
  | case (branch : CaseBranch)
  | default (branch : DefaultBranch)
  | closed (chained : Bool)
  deriving DecidableEq

def answer (switches : Switches) (call : Call) : Answer :=
  match call.move with
  | .opens => .silent
  | .enterCase => ((switches.case? call.switch).map Answer.case).getD .refused
  | .enterDefault => .default (switches.default call.switch)
  | .closes => .closed (switches.chained call.switch)

def after (switches : Switches) (call : Call) : Switches :=
  match call.move with
  | .opens => switches.opened call.switch
  | .enterCase => switches.withCase call.switch
  | .enterDefault => switches.withDefault call.switch
  | .closes => switches.closed call.switch

-- Calls are listed with the last one first.
def run : List Call → Switches
  | [] => []
  | call :: earlier => (run earlier).after call

-- A call with the answer that it was given.
structure Event where
  call : Call
  answer : Answer

namespace Event

def isDefault (event : Event) : Bool := event.call.move = .enterDefault

-- A case that was not refused.
def isAccepted (event : Event) : Bool := event.call.move = .enterCase && event.answer ≠ .refused

end Event

def log : List Call → List Event
  | [] => []
  | call :: earlier => ⟨call, (run earlier).answer call⟩ :: log earlier

section Since

variable {α : Type} (call : α → Call)

-- What concerns a switch since it was last opened or closed.
def since (id : Nat) (entries : List α) : List α :=
  (entries.filter fun entry => (call entry).switch = id).takeWhile fun entry => !(call entry).move.resets

variable {call}

theorem since_cons_other {id : Nat} {entry : α} (other : (call entry).switch ≠ id) (earlier : List α) :
    since call id (entry :: earlier) = since call id earlier := by
  simp [since, other]

theorem since_cons_reset {id : Nat} {entry : α} (own : (call entry).switch = id)
    (resets : (call entry).move.resets = true) (earlier : List α) : since call id (entry :: earlier) = [] := by
  simp [since, own, resets]

theorem since_cons_own {id : Nat} {entry : α} (own : (call entry).switch = id)
    (keeps : (call entry).move.resets = false) (earlier : List α) :
    since call id (entry :: earlier) = entry :: since call id earlier := by
  simp [since, own, keeps]

end Since

def recent (id : Nat) (calls : List Call) : List Move := (since (fun call => call) id calls).map Call.move

end Switches

-- What a switch by itself makes of a move.
def Switch.moved (move : Switches.Move) (state : Switch) : Switch :=
  match move with
  | .enterCase => if state.hasDefault then state else { state with hasCase := true }
  | .enterDefault => { state with hasDefault := true }
  | _ => Switches.fresh

namespace Switches

theorem state_after (switches : Switches) (call : Call) (id : Nat) :
    (switches.after call).state id =
      if id = call.switch then (switches.state id).moved call.move else switches.state id := by
  obtain ⟨switch, move⟩ := call
  cases move with
  | opens => exact state_opened switches switch id
  | closes => exact state_closed switches switch id
  | enterCase =>
    simp only [after, state_withCase, Switch.moved]
    by_cases own : id = switch
    · subst own
      cases refused : (switches.state id).hasDefault <;> simp
    · simp [own]
  | enterDefault =>
    simp only [after, state_withDefault, Switch.moved]
    by_cases own : id = switch
    · simp [own]
    · simp [own]

theorem moved_of_resets {move : Move} (resets : move.resets = true) (state : Switch) : state.moved move = fresh := by
  cases move with
  | opens => rfl
  | closes => rfl
  | enterCase => cases resets
  | enterDefault => cases resets

-- A switch goes its own way through the moves that concern it.
theorem state_run (calls : List Call) (id : Nat) :
    (run calls).state id = (recent id calls).foldr Switch.moved fresh := by
  induction calls with
  | nil => rfl
  | cons call earlier ih =>
    rw [run, state_after, recent]
    by_cases own : call.switch = id
    · rw [if_pos own.symm]
      cases resets : call.move.resets with
      | true => rw [since_cons_reset own resets, moved_of_resets resets]; rfl
      | false => rw [since_cons_own own resets, ih]; rfl
    · rw [if_neg (Ne.symm own), since_cons_other own, ih, recent]

-- The same state, read off the answers that were given.
theorem state_run_log (calls : List Call) (id : Nat) :
    (run calls).state id = ⟨(since Event.call id (log calls)).any Event.isAccepted,
      (since Event.call id (log calls)).any Event.isDefault⟩ := by
  induction calls with
  | nil => rfl
  | cons call earlier ih =>
    rw [run, log, state_after]
    by_cases own : call.switch = id
    · rw [if_pos own.symm]
      cases resets : call.move.resets with
      | true => rw [since_cons_reset own resets, moved_of_resets resets]; rfl
      | false =>
        rw [since_cons_own own resets, List.any_cons, List.any_cons, ih]
        obtain ⟨switch, move⟩ := call
        subst own
        cases move with
        | opens => cases resets
        | closes => cases resets
        | enterCase =>
          simp only [Switch.moved, Event.isAccepted, Event.isDefault, answer, case?, ih]
          cases (since Event.call switch (log earlier)).any Event.isDefault <;> simp
        | enterDefault => simp [Switch.moved, Event.isAccepted, Event.isDefault]
    · rw [if_neg (Ne.symm own), since_cons_other own, ih]

-- A switch is only asked for its own state.
theorem answer_congr {first second : Switches} {id : Nat} (same : first.state id = second.state id) (move : Move) :
    first.answer ⟨id, move⟩ = second.answer ⟨id, move⟩ := by
  cases move <;> simp [answer, case?, default, chained, same]

theorem state_later {first second : List Call} (same : ∀ id, (run first).state id = (run second).state id)
    (later : List Call) (id : Nat) : (run (later ++ first)).state id = (run (later ++ second)).state id := by
  induction later generalizing id with
  | nil => exact same id
  | cons call rest ih => simp only [List.cons_append, run, state_after, ih]

-- A case that is refused is a case behind a default, and changes nothing.
theorem state_refused {switches : Switches} {call : Call} (refused : switches.answer call = .refused) (id : Nat) :
    (switches.after call).state id = switches.state id := by
  obtain ⟨switch, move⟩ := call
  cases move with
  | enterCase =>
    cases behind : (switches.state switch).hasDefault with
    | true =>
      rw [state_after]
      by_cases own : id = switch
      · subst own
        simp [Switch.moved, behind]
      · rw [if_neg own]
    | false => simp [answer, case?, behind] at refused
  | _ => cases refused

-- Each switch is an automaton of its own, whatever is done to the others between. A case is refused just behind a
-- default; otherwise it goes on with a chain if there is one, and begins it if not.
theorem answer_run (earlier : List Call) (id : Nat) :
    (∀ other : List Call, recent id other = recent id earlier →
        ∀ move, (run other).answer ⟨id, move⟩ = (run earlier).answer ⟨id, move⟩) ∧
      (run earlier).answer ⟨id, .enterCase⟩ =
        (if (since Event.call id (log earlier)).any Event.isDefault then .refused
          else if (since Event.call id (log earlier)).any Event.isAccepted then .case .chains else .case .begins) ∧
      (run earlier).answer ⟨id, .enterDefault⟩ =
        .default (if (since Event.call id (log earlier)).any Event.isAccepted then .last else .alone) ∧
      (run earlier).answer ⟨id, .closes⟩ = .closed ((since Event.call id (log earlier)).any Event.isAccepted) ∧
      ((run earlier).answer ⟨id, .enterCase⟩ = .refused → ∀ (later : List Call) (next : Call),
        (run (later ++ ⟨id, .enterCase⟩ :: earlier)).answer next = (run (later ++ earlier)).answer next) := by
  have known := state_run_log earlier id
  refine ⟨?_, ?_, ?_, ?_, ?_⟩
  · intro other same move
    refine answer_congr ?_ move
    rw [state_run, state_run, same]
  · simp only [answer, case?, known]
    split
    · rfl
    · split <;> rfl
  · simp only [answer, default, known]
  · simp only [answer, chained, known]
  · intro refused later next
    have same (id' : Nat) : (run (⟨id, .enterCase⟩ :: earlier)).state id' = (run earlier).state id' :=
      state_refused refused id'
    exact answer_congr (state_later same later next.switch) next.move

-- The first switch has had a case and a default, with calls for a second one between; the case that comes then is
-- refused, and the default and the end of the second switch are answered as if it had never come.
def interleaved : List Call :=
  [⟨2, .enterCase⟩, ⟨1, .enterDefault⟩, ⟨2, .opens⟩, ⟨1, .enterCase⟩, ⟨2, .enterDefault⟩, ⟨1, .opens⟩]

theorem answer_run_interleaved :
    recent 1 interleaved = recent 1 [⟨1, .enterDefault⟩, ⟨1, .enterCase⟩] ∧
      (run [⟨1, .enterDefault⟩, ⟨1, .enterCase⟩]).answer ⟨1, .enterDefault⟩ = (run interleaved).answer ⟨1, .enterDefault⟩ ∧
      (run interleaved).answer ⟨1, .enterCase⟩ = .refused ∧
      ∀ (later : List Call) (next : Call),
        (run (later ++ ⟨1, .enterCase⟩ :: interleaved)).answer next = (run (later ++ interleaved)).answer next := by
  have alike : recent 1 interleaved = recent 1 [⟨1, .enterDefault⟩, ⟨1, .enterCase⟩] := by decide
  have refused : (run interleaved).answer ⟨1, .enterCase⟩ = .refused := by decide
  obtain ⟨depends, _, _, _, unchanged⟩ := answer_run interleaved 1
  exact ⟨alike, depends _ alike.symm .enterDefault, refused, unchanged refused⟩

end Switches

end Stencil
