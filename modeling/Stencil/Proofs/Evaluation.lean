import Stencil.Proofs.Observation
import Stencil.Proofs.Occurrence

-- How often the calls of an expression are evaluated. The code of an expression is read as a plan that says what is
-- evaluated in which order; a conditional evaluates its test and one of its two branches. Where the code of a place is
-- written twice, as the test of a safe read and as its result, the calls in the keys of the place are evaluated twice.

namespace Stencil

-- The way from an expression down to one of its parts: the number of a part, and so on from there.
abbrev Way := List Nat

-- What is left of a way that goes through the part with number i.
def Way.through (i : Nat) : Way → Option Way
  | [] => none
  | first :: rest => if first = i then some rest else none

theorem Way.through_apart {i j : Nat} (apart : i ≠ j) (way : Way) :
    way.through i = none ∨ way.through j = none := by
  cases way with
  | nil => exact .inl rfl
  | cons first rest =>
    by_cases same : first = i
    · exact .inr (if_neg fun other => apart (same.symm.trans other))
    · exact .inl (if_neg same)

-- The code of an expression with the places where something is decided, and with marks on the code of its calls.
inductive Plan where
  | text (code : Code)
  | all (parts : List Plan)
  | choice (test yes no : Plan)
  | place (base : Code) (keys : List Plan)
  | isset (argument : Plan)
  | call (way : Way) (body : Plan)

namespace Plan

mutual

def code : Plan → Code
  | .text own => own
  | .all parts => Code.concat (codes parts)
  | .choice test yes no => Code.concat ["(", code test, " ? ", code yes, " : ", code no, ")"]
  | .place base keys => base ++ Code.concat ((codes keys).map fun key => Code.concat ["[", key, "]"])
  | .isset argument => Code.concat ["isset(", code argument, ")"]
  | .call _ body => code body

def codes : List Plan → List Code
  | [] => []
  | first :: rest => code first :: codes rest

end

-- One of the paths, and behind it one of others.
def followed (paths others : List (List Way)) : List (List Way) := paths.flatMap fun path => others.map (path ++ ·)

mutual

-- The calls that are evaluated, in order, for each way in which the choices may be decided.
def paths : Plan → List (List Way)
  | .text _ => [[]]
  | .all parts => allPaths parts
  | .choice test yes no => followed (paths test) (paths yes ++ paths no)
  | .place _ keys => allPaths keys
  | .isset argument => keyPaths argument
  | .call way body => (paths body).map (· ++ [way])

-- To test whether a place exists, its keys are evaluated. There is no such test of anything else.
def keyPaths : Plan → List (List Way)
  | .place _ keys => allPaths keys
  | _ => [[]]

def allPaths : List Plan → List (List Way)
  | [] => [[]]
  | first :: rest => followed (paths first) (allPaths rest)

end

-- A logical operator may skip an operand. Operators stand without brackets, so this may be any part of what is written
-- beside it.
def Evaluates (plan : Plan) (trace : List Way) : Prop := ∃ path ∈ plan.paths, trace.Sublist path

mutual

-- How often a call is evaluated at most.
def most (way : Way) : Plan → Nat
  | .text _ => 0
  | .all parts => allMost way parts
  | .choice test yes no => most way test + max (most way yes) (most way no)
  | .place _ keys => allMost way keys
  | .isset argument => keyMost way argument
  | .call own body => most way body + if own = way then 1 else 0

def keyMost (way : Way) : Plan → Nat
  | .place _ keys => allMost way keys
  | _ => 0

def allMost (way : Way) : List Plan → Nat
  | [] => 0
  | first :: rest => most way first + allMost way rest

end

-- On none of the paths a call is evaluated more often, and on one of them it is evaluated as often.
structure Greatest (way : Way) (paths : List (List Way)) (count : Nat) : Prop where
  bound : ∀ path ∈ paths, path.count way ≤ count
  reached : ∃ path ∈ paths, path.count way = count

namespace Greatest

variable {way : Way} {paths others : List (List Way)} {m n : Nat}

theorem empty : Greatest way [[]] 0 where
  bound path member := by rw [List.mem_singleton.mp member]; exact Nat.zero_le _
  reached := ⟨[], List.mem_singleton_self _, rfl⟩

theorem followed (first : Greatest way paths m) (second : Greatest way others n) :
    Greatest way (Plan.followed paths others) (m + n) where
  bound path member := by
    obtain ⟨front, left, member⟩ := List.mem_flatMap.mp member
    obtain ⟨back, right, rfl⟩ := List.mem_map.mp member
    rw [List.count_append]
    exact Nat.add_le_add (first.bound front left) (second.bound back right)
  reached := by
    obtain ⟨front, left, exact⟩ := first.reached
    obtain ⟨back, right, same⟩ := second.reached
    refine ⟨front ++ back, List.mem_flatMap.mpr ⟨front, left, List.mem_map_of_mem right⟩, ?_⟩
    rw [List.count_append, exact, same]

theorem either (first : Greatest way paths m) (second : Greatest way others n) :
    Greatest way (paths ++ others) (max m n) where
  bound path member := by
    rcases List.mem_append.mp member with left | right
    · exact Nat.le_trans (first.bound path left) (Nat.le_max_left m n)
    · exact Nat.le_trans (second.bound path right) (Nat.le_max_right m n)
  reached := by
    rcases Nat.le_total n m with fewer | more
    · obtain ⟨path, member, same⟩ := first.reached
      exact ⟨path, List.mem_append_left _ member, by rw [same, Nat.max_eq_left fewer]⟩
    · obtain ⟨path, member, same⟩ := second.reached
      exact ⟨path, List.mem_append_right _ member, by rw [same, Nat.max_eq_right more]⟩

theorem called (inner : Greatest way paths m) (own : Way) :
    Greatest way (paths.map (· ++ [own])) (m + if own = way then 1 else 0) where
  bound path member := by
    obtain ⟨front, listed, rfl⟩ := List.mem_map.mp member
    have less := inner.bound front listed
    by_cases same : own = way <;> simp [List.count_append, same, less]
  reached := by
    obtain ⟨front, listed, same⟩ := inner.reached
    refine ⟨front ++ [own], List.mem_map_of_mem listed, ?_⟩
    by_cases here : own = way <;> simp [List.count_append, here, same]

end Greatest

mutual

theorem greatest_paths (way : Way) : ∀ plan : Plan, Greatest way plan.paths (plan.most way)
  | .text _ => .empty
  | .all parts => greatest_allPaths way parts
  | .choice test yes no => (greatest_paths way test).followed ((greatest_paths way yes).either (greatest_paths way no))
  | .place _ keys => greatest_allPaths way keys
  | .isset argument => greatest_keyPaths way argument
  | .call own body => (greatest_paths way body).called own

theorem greatest_keyPaths (way : Way) : ∀ plan : Plan, Greatest way plan.keyPaths (plan.keyMost way)
  | .place _ keys => greatest_allPaths way keys
  | .text _ => .empty
  | .all _ => .empty
  | .choice _ _ _ => .empty
  | .isset _ => .empty
  | .call _ _ => .empty

theorem greatest_allPaths (way : Way) : ∀ plans : List Plan, Greatest way (allPaths plans) (allMost way plans)
  | [] => .empty
  | first :: rest => (greatest_paths way first).followed (greatest_allPaths way rest)

end

theorem count_le_most {plan : Plan} {trace : List Way} (evaluates : plan.Evaluates trace) (way : Way) :
    trace.count way ≤ plan.most way := by
  obtain ⟨path, member, skipped⟩ := evaluates
  exact Nat.le_trans (skipped.count_le way) ((greatest_paths way plan).bound path member)

theorem exists_most (plan : Plan) (way : Way) :
    ∃ trace, plan.Evaluates trace ∧ trace.count way = plan.most way := by
  obtain ⟨path, member, same⟩ := (greatest_paths way plan).reached
  exact ⟨path, ⟨path, member, .refl path⟩, same⟩

mutual

-- The plan of an expression as a part of another one.
def under (i : Nat) : Plan → Plan
  | .text own => .text own
  | .all parts => .all (allUnder i parts)
  | .choice test yes no => .choice (under i test) (under i yes) (under i no)
  | .place base keys => .place base (allUnder i keys)
  | .isset argument => .isset (under i argument)
  | .call way body => .call (i :: way) (under i body)

def allUnder (i : Nat) : List Plan → List Plan
  | [] => []
  | first :: rest => under i first :: allUnder i rest

end

mutual

@[simp] theorem code_under (i : Nat) : ∀ plan : Plan, (plan.under i).code = plan.code
  | .text _ => rfl
  | .all parts => by rw [under, code, code, codes_allUnder i parts]
  | .choice test yes no => by
    rw [under, code, code, code_under i test, code_under i yes, code_under i no]
  | .place base keys => by rw [under, code, code, codes_allUnder i keys]
  | .isset argument => by rw [under, code, code, code_under i argument]
  | .call way body => by rw [under, code, code, code_under i body]

theorem codes_allUnder (i : Nat) : ∀ plans : List Plan, codes (allUnder i plans) = codes plans
  | [] => rfl
  | first :: rest => by rw [allUnder, codes, codes, code_under i first, codes_allUnder i rest]

end

mutual

-- A part is only found on ways that go through it.
theorem most_under (i : Nat) (way : Way) : ∀ plan : Plan, (plan.under i).most way = (way.through i).elim 0 plan.most
  | .text _ => by cases h : way.through i <;> rfl
  | .all parts => by rw [under, most, allMost_under i way parts]; rfl
  | .choice test yes no => by
    rw [under, most, most_under i way test, most_under i way yes, most_under i way no]
    cases way.through i <;> rfl
  | .place _ keys => by rw [under, most, allMost_under i way keys]; rfl
  | .isset argument => by rw [under, most, keyMost_under i way argument]; rfl
  | .call own body => by
    rw [under, most, most_under i way body]
    cases way with
    | nil => rfl
    | cons first rest =>
      by_cases same : first = i
      · simp [Way.through, same, most]
      · simp [Way.through, same, Ne.symm same]

theorem keyMost_under (i : Nat) (way : Way) : ∀ plan : Plan,
    (plan.under i).keyMost way = (way.through i).elim 0 plan.keyMost
  | .place _ keys => by rw [under, keyMost, allMost_under i way keys]; rfl
  | .text _ => by cases h : way.through i <;> rfl
  | .all _ => by cases h : way.through i <;> rfl
  | .choice _ _ _ => by cases h : way.through i <;> rfl
  | .isset _ => by cases h : way.through i <;> rfl
  | .call _ _ => by cases h : way.through i <;> rfl

theorem allMost_under (i : Nat) (way : Way) : ∀ plans : List Plan,
    allMost way (allUnder i plans) = (way.through i).elim 0 fun rest => allMost rest plans
  | [] => by cases h : way.through i <;> rfl
  | first :: rest => by
    rw [allUnder, allMost, most_under i way first, allMost_under i way rest]
    cases way.through i <;> rfl

end

-- The parts with a separator between each two.
def joined (separator : String) : List Plan → Plan
  | [] => .text Code.empty
  | [plan] => plan
  | plan :: rest => .all [plan, .text separator, joined separator rest]

theorem code_joined (separator : String) : ∀ plans : List Plan,
    (joined separator plans).code = Code.join separator (codes plans)
  | [] => rfl
  | [plan] => rfl
  | first :: second :: rest => by
    have inner := code_joined separator (second :: rest)
    simp only [joined, code, codes, Code.join] at inner ⊢
    simp [inner]

theorem most_joined (separator : String) (way : Way) : ∀ plans : List Plan,
    (joined separator plans).most way = allMost way plans
  | [] => rfl
  | [plan] => rfl
  | first :: second :: rest => by
    have inner := most_joined separator way (second :: rest)
    simp [joined, most, allMost, inner]

def calling (name : String) (args : List Plan) : Plan := .all [.text name, .text "(", joined ", " args, .text ")"]

@[simp] theorem code_calling (name : String) (args : List Plan) :
    (calling name args).code = Builtin.call name (codes args) := by
  simp only [calling, code, codes, code_joined, Builtin.call]

@[simp] theorem most_calling (name : String) (args : List Plan) (way : Way) :
    (calling name args).most way = allMost way args := by
  simp [calling, most, allMost, most_joined]

-- The code of a place, as a test and as the result of the test.
def safeRead (plan : Plan) : Plan := .choice (.isset plan) plan (.text "\"\"")

theorem code_safeRead (plan : Plan) : plan.safeRead.code = plan.code.safeRead := by
  refine Code.eq_of_render fun scope => String.toList_inj.mp ?_
  simp [safeRead, code, Code.safeRead]

theorem most_safeRead (plan : Plan) (way : Way) : plan.safeRead.most way = plan.keyMost way + plan.most way := by
  simp [safeRead, most]

@[simp] theorem codes_eq_map (plans : List Plan) : codes plans = plans.map code := by
  induction plans with
  | nil => rfl
  | cons first rest ih => rw [codes, ih, List.map_cons]

end Plan

open Plan (calling joined allMost)
open Text (quoted)

namespace Builtin

def splitPlan (args : List Plan) (raw : List Expr) : Plan :=
  let subject := args.getD 0 (.text "\"\"")
  let between := args.getD 1 (.text "\"\"")
  match (raw[1]? : Option Expr) with
  | none => calling "mb_str_split" [subject]
  | some (.str text) => if text = "" then calling "mb_str_split" [subject] else calling "explode" [between, subject]
  | some _ =>
    .choice (.all [.text "(", .text separator, .text " = ", between, .text ") === \"\""])
      (calling "mb_str_split" [subject]) (calling "explode" [.text separator, subject])

def plan (builtin : Builtin) (args : List Plan) (raw : List Expr) : Plan :=
  match builtin with
  | .rename target => calling target args
  | .renameWith target last => calling target (args ++ [.text last])
  | .classes => calling "classes" args
  | .substring => calling "mb_substr" (args ++ List.replicate (3 - args.length) (.text "NULL") ++ [.text "'UTF-8'"])
  | .replace =>
    calling "str_replace" [args.getD 1 (.text "NULL"), args.getD 2 (.text "NULL"), args.getD 0 (.text "NULL")]
  | .split => splitPlan args raw
  | .format => calling "toFixed" [args.getD 0 (.text "NULL"), args.getD 1 (.text "0"), args.getD 2 (.text "\".\"")]
  | .contains =>
    .all [.text "(", calling "array_search" [args.getD 1 (.text "NULL"), args.getD 0 (.text "[]")], .text " !== false)"]
  | .join => calling "implode" [args.getD 1 (.text "\"\""), args.getD 0 (.text "[]")]
  | .round => calling "round" [args.getD 0 (.text "0")]
  | .random => .text "((float)rand() / (float)getrandmax())"

theorem code_getD (found : Option Plan) (missing : Code) :
    (found.getD (.text missing)).code = (found.map Plan.code).getD missing := by
  cases found <;> rfl

theorem code_splitPlan (args : List Plan) (raw : List Expr) :
    (splitPlan args raw).code = lowerSplit (args.map Plan.code) raw := by
  have chosen : (Plan.choice
      (.all [.text "(", .text separator, .text " = ", args.getD 1 (.text "\"\""), .text ") === \"\""])
      (calling "mb_str_split" [args.getD 0 (.text "\"\"")])
      (calling "explode" [.text separator, args.getD 0 (.text "\"\"")])).code =
      Code.concat ["((", separator, " = ", (args.map Plan.code).getD 1 "\"\"", ") === \"\" ? ",
        call "mb_str_split" [(args.map Plan.code).getD 0 "\"\""], " : ",
        call "explode" [separator, (args.map Plan.code).getD 0 "\"\""], ")"] := by
    refine Code.eq_of_render fun scope => String.toList_inj.mp ?_
    simp [Plan.code, code_getD]
  cases second : (raw[1]? : Option Expr) with
  | none => simp [splitPlan, lowerSplit, second, code_getD]
  | some source =>
    cases source with
    | str literal =>
      simp only [splitPlan, lowerSplit, second]
      split <;> simp [code_getD]
    | _ =>
      simp only [splitPlan, lowerSplit, second]
      exact chosen

theorem code_plan (builtin : Builtin) (args : List Plan) (raw : List Expr) :
    (builtin.plan args raw).code = builtin.lower (args.map Plan.code) raw := by
  cases builtin with
  | split => exact code_splitPlan args raw
  | contains => simp [plan, lower, Plan.code, code_getD]
  | random => rfl
  | substring => simp [plan, lower, Plan.code]
  | _ => simp [plan, lower, Plan.code, code_getD]

end Builtin

namespace Expr

def unaryPlan (op : UnaryOp) (value : Plan) : Plan :=
  match op with
  | .not => .all [.text "!", value]
  | .bitNot => .all [.text "~", value]
  | .minus => .all [.text "-", value]
  | .brackets => .all [.text "(", value, .text ")"]

def varPlan (root : Code) (name : String) (keys : List Plan) : Plan :=
  if (name = "true" || name = "false") && keys.isEmpty then .text name
  else .place (if name = "children" then "$__children" else Code.concat [root, "[", quoted name, "]"]) keys

def callPlan (name : String) (args : List Plan) (raw : List Expr) : Plan :=
  match Builtin.lookup? name with
  | some .classes =>
    calling "classes" (List.zipWith (fun arg plan => if arg.isStored then plan.safeRead else plan) raw args)
  | some builtin => builtin.plan args raw
  | none => calling name args

mutual

def plan : Expr → Plan
  | .var name keys => varPlan (Code.root name) name (plans 0 keys)
  | .const text => .text text
  | .str text => .text (quoted text)
  | .num value => .text value.text
  | .binary op left right =>
    .all [(plan left).under 0, .text " ", .text op.symbol, .text " ", (plan right).under 1]
  | .unary op value => unaryPlan op ((plan value).under 0)
  | .isset value => .isset ((plan value).under 0)
  | .ternary condition consequent alternate =>
    .choice ((plan condition).under 0) ((plan consequent).under 1) ((plan alternate).under 2)
  | .concat values => joined " . " (plans 0 values)
  | .array entries =>
    .all [.text "[", joined ", " (entryPlans (entries.any fun entry => entry.key?.isSome) 0 0 entries), .text "]"]
  | .range kind start stop =>
    .all [.text "mkArr(", (plan start).under 0, .text ", ", (plan stop).under 1, .text ", ", .text (rangeMode kind),
      .text ")"]
  | .call callee args =>
    .call [] (match callee.bare? with
      | some name => callPlan name (plans 1 args) args
      | none => .all [(plan callee).under 0, .text "(", joined ", " (plans 1 args), .text ")"])
  | .unsupported => .text Code.empty

-- The plans of some parts that stand side by side, with the number of the first one.
def plans (first : Nat) : List Expr → List Plan
  | [] => []
  | value :: rest => (plan value).under first :: plans (first + 1) rest

def entryPlans (numbered : Bool) (next first : Nat) : List Entry → List Plan
  | [] => []
  | .plain value :: rest =>
    if numbered then
      .all [.text (toString next), .text " => ", (plan value).under first] ::
        entryPlans numbered (next + 1) (first + 1) rest
    else (plan value).under first :: entryPlans numbered next (first + 1) rest
  | .keyed key value :: rest =>
    .all [(plan key).under first, .text " => ", (plan value).under (first + 1)] ::
      entryPlans numbered next (first + 2) rest

end

-- In its context, a place that is tested may be read as well, and the target of a parameter lies in the data.
def planIn (context : Context) (e : Expr) : Plan :=
  match context, e with
  | .value, .isset value => ((plan value).under 0).safeRead
  | .dataTarget, .var name keys => varPlan "$__data" name (plans 0 keys)
  | _, _ => plan e

-- A variable is a place, unless it is one of the two truth values, which has no keys then.
theorem varPlan_cases (root : Code) (name : String) (keys : List Plan) :
    (keys = [] ∧ varPlan root name keys = .text name) ∨ ∃ base, varPlan root name keys = .place base keys := by
  unfold varPlan
  split
  · rename_i truth
    rw [Bool.and_eq_true, List.isEmpty_iff] at truth
    exact .inl ⟨truth.2, rfl⟩
  · exact .inr ⟨_, rfl⟩

section Code

theorem code_varPlan (root : Code) (name : String) (keys : List Plan) :
    (varPlan root name keys).code = varCode root name (keys.map Plan.code) := by
  unfold varPlan varCode
  rw [List.isEmpty_map]
  split
  · rfl
  · simp [Plan.code]

theorem code_unaryPlan (op : UnaryOp) (value : Plan) : (unaryPlan op value).code = unaryCode op value.code := by
  cases op <;> rfl

theorem code_zipWith (raw : List Expr) (args : List Plan) :
    (List.zipWith (fun arg plan => if isStored arg then plan.safeRead else plan) raw args).map Plan.code =
      List.zipWith (fun arg code => if isStored arg then code.safeRead else code) raw (args.map Plan.code) := by
  rw [List.map_zipWith, List.zipWith_map_right]
  congr 1
  funext arg plan
  split
  · exact plan.code_safeRead
  · rfl

theorem code_callPlan (name : String) (args : List Plan) (raw : List Expr) :
    (callPlan name args raw).code = callCode name (args.map Plan.code) raw := by
  cases known : Builtin.lookup? name with
  | none => simp [callPlan, callCode, known]
  | some builtin =>
    cases builtin with
    | classes =>
      simp only [callPlan, callCode, known, Plan.code_calling, Plan.codes_eq_map, code_zipWith, Builtin.lower]
    | _ => simp [callPlan, callCode, known, Builtin.code_plan]

mutual

theorem code_plan : ∀ {e : Expr} {code : Code}, e.code? = some code → e.plan.code = code
  | .var name keys, code, made => by
    simp only [code?, Option.bind_eq_bind, Option.bind_eq_some_iff, Option.some.injEq] at made
    obtain ⟨codes, found, rfl⟩ := made
    rw [plan, code_varPlan, codes_plans found]
  | .const text, code, made => Option.some.inj made
  | .str text, code, made => Option.some.inj made
  | .num value, code, made => Option.some.inj made
  | .binary op left right, code, made => by
    simp only [code?, Option.bind_eq_bind, Option.bind_eq_some_iff, Option.some.injEq] at made
    obtain ⟨first, leftMade, second, rightMade, rfl⟩ := made
    simp [plan, Plan.code, code_plan leftMade, code_plan rightMade]
  | .unary op value, code, made => by
    simp only [code?, Option.bind_eq_bind, Option.bind_eq_some_iff, Option.some.injEq] at made
    obtain ⟨inner, found, rfl⟩ := made
    rw [plan, code_unaryPlan, Plan.code_under, code_plan found]
  | .isset value, code, made => by
    simp only [code?, Option.bind_eq_bind, Option.bind_eq_some_iff, Option.some.injEq] at made
    obtain ⟨inner, found, rfl⟩ := made
    rw [plan, Plan.code, Plan.code_under, code_plan found]
  | .ternary condition consequent alternate, code, made => by
    simp only [code?, Option.bind_eq_bind, Option.bind_eq_some_iff, Option.some.injEq] at made
    obtain ⟨first, tested, second, thenMade, third, elseMade, rfl⟩ := made
    simp [plan, Plan.code, code_plan tested, code_plan thenMade, code_plan elseMade]
  | .concat values, code, made => by
    simp only [code?, Option.bind_eq_bind, Option.bind_eq_some_iff, Option.some.injEq] at made
    obtain ⟨codes, found, rfl⟩ := made
    rw [plan, Plan.code_joined, Plan.codes_eq_map, codes_plans found]
  | .array entries, code, made => by
    simp only [code?, Option.bind_eq_bind, Option.bind_eq_some_iff, Option.some.injEq] at made
    obtain ⟨codes, found, rfl⟩ := made
    simp [plan, Plan.code, Plan.code_joined, codes_entryPlans found]
  | .range kind start stop, code, made => by
    simp only [code?, Option.bind_eq_bind, Option.bind_eq_some_iff, Option.some.injEq] at made
    obtain ⟨first, startMade, last, stopMade, rfl⟩ := made
    simp [plan, Plan.code, code_plan startMade, code_plan stopMade]
  | .call callee args, code, made => by
    unfold code? at made
    rw [plan, Plan.code]
    cases named : callee.bare? with
    | some name =>
      simp only [named, Option.bind_eq_bind, Option.bind_eq_some_iff, Option.some.injEq] at made
      obtain ⟨codes, found, rfl⟩ := made
      rw [code_callPlan, codes_plans found]
    | none =>
      simp only [named, Option.bind_eq_bind, Option.bind_eq_some_iff, Option.some.injEq] at made
      obtain ⟨function, calleeMade, codes, found, rfl⟩ := made
      simp [Plan.code, Plan.code_joined, code_plan calleeMade, codes_plans found]
  | .unsupported, code, made => by cases made

theorem codes_plans : ∀ {values : List Expr} {first : Nat} {codes : List Code}, codes? values = some codes →
    (plans first values).map Plan.code = codes
  | [], _, codes, made => by
    cases made
    rfl
  | value :: rest, first, codes, made => by
    simp only [codes?, Option.bind_eq_bind, Option.bind_eq_some_iff, Option.some.injEq] at made
    obtain ⟨own, valueMade, others, restMade, rfl⟩ := made
    rw [plans, List.map_cons, Plan.code_under, code_plan valueMade, codes_plans restMade]

theorem codes_entryPlans {numbered : Bool} : ∀ {entries : List Entry} {next first : Nat} {codes : List Code},
    entryCodes? numbered next entries = some codes → (entryPlans numbered next first entries).map Plan.code = codes
  | [], _, _, codes, made => by
    cases made
    rfl
  | .plain value :: rest, next, first, codes, made => by
    simp only [entryCodes?, Option.bind_eq_bind, Option.bind_eq_some_iff] at made
    obtain ⟨own, valueMade, made⟩ := made
    cases numbered with
    | true =>
      simp only [if_true, Option.bind_eq_some_iff, Option.some.injEq] at made
      obtain ⟨others, restMade, rfl⟩ := made
      simp [entryPlans, Plan.code, code_plan valueMade, codes_entryPlans restMade]
    | false =>
      simp only [Bool.false_eq_true, if_false, Option.bind_eq_some_iff, Option.some.injEq] at made
      obtain ⟨others, restMade, rfl⟩ := made
      simp [entryPlans, code_plan valueMade, codes_entryPlans restMade]
  | .keyed key value :: rest, next, first, codes, made => by
    simp only [entryCodes?, Option.bind_eq_bind, Option.bind_eq_some_iff, Option.some.injEq] at made
    obtain ⟨before, keyMade, own, valueMade, others, restMade, rfl⟩ := made
    simp [entryPlans, Plan.code, code_plan keyMade, code_plan valueMade, codes_entryPlans restMade]

end

theorem planIn_plain {context : Context} {e : Expr}
    (untested : ∀ value, context = .value → e = .isset value → False)
    (untargeted : ∀ name keys, context = .dataTarget → e = .var name keys → False) :
    e.planIn context = e.plan := by
  unfold planIn
  split
  · exact (untested _ rfl rfl).elim
  · exact (untargeted _ _ rfl rfl).elim
  · rfl

theorem code_planIn {context : Context} {e : Expr} {code : Code} (made : e.emit? context = some code) :
    (e.planIn context).code = code := by
  unfold emit? at made
  split at made
  · obtain ⟨inner, found, rfl⟩ := Option.map_eq_some_iff.mp made
    rw [planIn, Plan.code_safeRead, Plan.code_under, code_plan found]
  · obtain ⟨codes, found, rfl⟩ := Option.map_eq_some_iff.mp made
    rw [planIn, code_varPlan, codes_plans found]
  · rename_i untested untargeted
    rw [planIn_plain untested untargeted, code_plan made]

end Code

-- An expression whose code is a place: a variable, or one alone in a concatenation. The two truth values are none.
def isPlace : Expr → Bool
  | .var name keys => !((name = "true" || name = "false") && keys.isEmpty)
  | .concat [value] => isPlace value
  | _ => false

def isCall : Expr → Bool
  | .call _ _ => true
  | _ => false

end Expr

-- Whether the code of a call has its argument with number i.
def Builtin.takes (builtin : Builtin) (i : Nat) : Bool :=
  match builtin with
  | .replace => i < 3
  | .format => i < 3
  | .split => i < 2
  | .contains => i < 2
  | .join => i < 2
  | .round => i < 1
  | .random => false
  | _ => true

namespace Expr

def argUses (name : String) (args : List Expr) (i : Nat) : Nat :=
  match Builtin.lookup? name with
  | some .classes => if args[i]?.any isStored then 2 else 1
  | some builtin => if builtin.takes i then 1 else 0
  | none => 1

-- How often the part with number i is evaluated at most when the expression is evaluated.
def uses : Expr → Nat → Nat
  | .isset value, _ => if value.isPlace then 1 else 0
  | .call callee args, i + 1 => callee.bare?.elim 1 fun name => argUses name args i
  | _, _ => 1

-- The same for a call anywhere in the expression.
def evaluations : Expr → Way → Nat
  | e, [] => if e.isCall then 1 else 0
  | e, i :: rest => e.parts[i]?.elim 0 fun part => e.uses i * evaluations part rest

-- What is found of a way in expressions that stand side by side, each of them used so many times.
def weighted (uses : Nat → Nat) (way : Way) (first : Nat) : List Expr → Nat
  | [] => 0
  | value :: rest => uses first * (way.through first).elim 0 value.plan.most + weighted uses way (first + 1) rest

section Most

variable {way : Way}

theorem weighted_congr {uses others : Nat → Nat} {first : Nat} (same : ∀ i, first ≤ i → uses i = others i)
    (values : List Expr) : weighted uses way first values = weighted others way first values := by
  induction values generalizing first with
  | nil => rfl
  | cons value rest ih =>
    rw [weighted, weighted, same first (Nat.le_refl first), ih fun i after => same i (Nat.le_of_succ_le after)]

theorem weighted_unused {uses : Nat → Nat} {first : Nat} (none : ∀ i, first ≤ i → uses i = 0)
    (values : List Expr) : weighted uses way first values = 0 := by
  induction values generalizing first with
  | nil => rfl
  | cons value rest ih =>
    rw [weighted, none first (Nat.le_refl first), ih fun i after => none i (Nat.le_of_succ_le after), Nat.zero_mul]

theorem weighted_nil (uses : Nat → Nat) (first : Nat) (values : List Expr) : weighted uses [] first values = 0 := by
  induction values generalizing first with
  | nil => rfl
  | cons value rest ih => rw [weighted, ih]; rfl

theorem weighted_cons (uses : Nat → Nat) (i first : Nat) (way : Way) (values : List Expr) :
    weighted uses (i :: way) first values =
      if first ≤ i then values[i - first]?.elim 0 fun value => uses i * value.plan.most way else 0 := by
  induction values generalizing first with
  | nil => simp [weighted]
  | cons value rest ih =>
    rw [weighted, ih]
    rcases Nat.lt_trichotomy i first with before | same | after
    · simp [Way.through, Nat.ne_of_lt before, Nat.not_le_of_lt before, Nat.not_le_of_lt (Nat.lt_succ_of_lt before)]
    · have behind : ¬ first + 1 ≤ first := Nat.not_succ_le_self first
      rw [same, if_neg behind]
      simp [Way.through]
    · obtain ⟨k, rfl⟩ := Nat.exists_eq_add_of_lt after
      have behind : first + k + 1 - first = k + 1 := by omega
      have next : first + k + 1 - (first + 1) = k := by omega
      have apart : first + k + 1 ≠ first := by omega
      have least : first + 1 ≤ first + k + 1 := by omega
      simp [Way.through, apart, behind, next, least, Nat.le_of_lt after]

theorem allMost_plans (first : Nat) (values : List Expr) :
    allMost way (plans first values) = weighted (fun _ => 1) way first values := by
  induction values generalizing first with
  | nil => rfl
  | cons value rest ih => rw [plans, allMost, Plan.most_under, ih, weighted, Nat.one_mul]

theorem allMost_entryPlans (numbered : Bool) (next first : Nat) (entries : List Entry) :
    allMost way (entryPlans numbered next first entries) =
      weighted (fun _ => 1) way first (entries.flatMap Entry.parts) := by
  induction entries generalizing next first with
  | nil => rfl
  | cons entry rest ih =>
    cases entry with
    | plain value =>
      cases numbered <;> simp [entryPlans, allMost, Plan.most, Plan.most_under, ih, weighted, Entry.parts]
    | keyed key value =>
      simp [entryPlans, allMost, Plan.most, Plan.most_under, ih, weighted, Entry.parts, Nat.add_assoc]

theorem most_varPlan (root : Code) (name : String) (keys : List Plan) :
    (varPlan root name keys).most way = allMost way keys := by
  rcases varPlan_cases root name keys with ⟨rfl, same⟩ | ⟨base, same⟩
  · rw [same, Plan.most, allMost]
  · rw [same, Plan.most]

theorem keyMost_varPlan (root : Code) (name : String) (keys : List Plan) :
    (varPlan root name keys).keyMost way = allMost way keys := by
  rcases varPlan_cases root name keys with ⟨rfl, same⟩ | ⟨base, same⟩
  · rw [same, Plan.keyMost, allMost]
    nofun
  · rw [same, Plan.keyMost]

theorem most_unaryPlan (op : UnaryOp) (value : Plan) : (unaryPlan op value).most way = value.most way := by
  cases op <;> simp [unaryPlan, Plan.most, allMost]

theorem allMost_append (front back : List Plan) :
    allMost way (front ++ back) = allMost way front + allMost way back := by
  induction front with
  | nil => simp [allMost]
  | cons first rest ih => rw [List.cons_append, allMost, allMost, ih, Nat.add_assoc]

theorem allMost_replicate (count : Nat) (code : Code) : allMost way (List.replicate count (.text code)) = 0 := by
  induction count with
  | zero => rfl
  | succ count ih => rw [List.replicate_succ, allMost, ih, Plan.most]

-- What is found of a way in one of some expressions that stand side by side.
def argMost (way : Way) (first : Nat) (args : List Expr) (i : Nat) : Nat :=
  (way.through (first + i)).elim 0 fun rest => args[i]?.elim 0 fun arg => arg.plan.most rest

theorem argMost_next (first : Nat) (arg : Expr) (others : List Expr) (i : Nat) :
    argMost way first (arg :: others) (i + 1) = argMost way (first + 1) others i := by
  have next : first + (i + 1) = first + 1 + i := by omega
  rw [argMost, next, List.getElem?_cons_succ, argMost]

-- Nothing is found in what is missing, or is a literal.
theorem argMost_eq_zero {first : Nat} {args : List Expr} {i : Nat}
    (bare : ∀ arg ∈ args[i]?, ∀ rest, arg.plan.most rest = 0) : argMost way first args i = 0 := by
  unfold argMost
  cases way.through (first + i) with
  | none => rfl
  | some rest =>
    cases found : args[i]? with
    | none => rfl
    | some arg => exact bare arg found rest

theorem most_getD (first i : Nat) (args : List Expr) (missing : Code) :
    ((plans first args)[i]?.getD (.text missing)).most way = argMost way first args i := by
  induction args generalizing first i with
  | nil => exact (argMost_eq_zero (by simp)).symm
  | cons arg others ih =>
    cases i with
    | zero => simp [plans, Plan.most_under, argMost]
    | succ i =>
      rw [plans, List.getElem?_cons_succ, ih, argMost_next]

theorem weighted_first (first count : Nat) (args : List Expr) :
    weighted (fun i => if i < first + count then 1 else 0) way first args =
      (List.range count).foldr (fun i total => argMost way first args i + total) 0 := by
  induction args generalizing first count with
  | nil =>
    have none (i : Nat) : argMost way first [] i = 0 := argMost_eq_zero (by simp)
    simp only [none, Nat.zero_add]
    induction List.range count with
    | nil => rfl
    | cons i rest ih => exact ih
  | cons arg others ih =>
    cases count with
    | zero =>
      rw [weighted_unused]
      · rfl
      · intro i after
        exact if_neg (by omega)
    | succ count =>
      have later : (fun i => if i < first + (count + 1) then 1 else 0) =
          fun i => if i < first + 1 + count then 1 else 0 := by
        funext i
        have next : first + (count + 1) = first + 1 + count := by omega
        rw [next]
      rw [weighted, later, ih, List.range_succ_eq_map, List.foldr_cons, List.foldr_map]
      simp only [argMost_next]
      simp [argMost]

theorem weighted_takes {builtin : Builtin} (count : Nat) (takes : ∀ i, builtin.takes i = decide (i < count))
    (args : List Expr) :
    weighted (fun i => if builtin.takes (i - 1) then 1 else 0) way 1 args =
      (List.range count).foldr (fun i total => argMost way 1 args i + total) 0 := by
  rw [← weighted_first]
  refine weighted_congr (fun i after => ?_) args
  have same : (i - 1 < count) = (i < 1 + count) := by
    apply propext
    omega
  simp [takes, same]

theorem weighted_takes_all {builtin : Builtin} (takes : ∀ i, builtin.takes i = true) (args : List Expr) :
    weighted (fun i => if builtin.takes (i - 1) then 1 else 0) way 1 args = allMost way (plans 1 args) := by
  rw [allMost_plans]
  exact weighted_congr (fun i _ => by rw [takes, if_pos rfl]) args

theorem most_splitPlan (args : List Expr) :
    (Builtin.splitPlan (plans 1 args) args).most way = argMost way 1 args 0 + argMost way 1 args 1 := by
  cases second : (args[1]? : Option Expr) with
  | none =>
    have missing : argMost way 1 args 1 = 0 := argMost_eq_zero (by simp [second])
    simp [Builtin.splitPlan, second, allMost, most_getD, missing]
  | some source =>
    cases source with
    | str literal =>
      have fixed : argMost way 1 args 1 = 0 := by
        refine argMost_eq_zero fun arg found rest => ?_
        rw [second] at found
        cases found
        rfl
      simp only [Builtin.splitPlan, second]
      split <;> simp [allMost, most_getD, fixed]
    | _ =>
      simp [Builtin.splitPlan, second, Plan.most, allMost, most_getD]
      omega

theorem most_lower (builtin : Builtin) (args : List Expr) :
    (builtin.plan (plans 1 args) args).most way =
      weighted (fun i => if builtin.takes (i - 1) then 1 else 0) way 1 args := by
  cases builtin with
  | rename target =>
    rw [weighted_takes_all fun i => rfl, Builtin.plan, Plan.most_calling]
  | renameWith target last =>
    rw [weighted_takes_all fun i => rfl]
    simp [Builtin.plan, allMost_append, allMost, Plan.most]
  | classes =>
    rw [weighted_takes_all fun i => rfl, Builtin.plan, Plan.most_calling]
  | substring =>
    rw [weighted_takes_all fun i => rfl]
    simp [Builtin.plan, allMost_append, allMost_replicate, allMost, Plan.most]
  | replace =>
    rw [weighted_takes 3 fun i => rfl]
    simp [Builtin.plan, allMost, most_getD, List.range_succ]
    omega
  | split =>
    rw [weighted_takes 2 fun i => rfl]
    simp [Builtin.plan, most_splitPlan, List.range_succ]
  | format =>
    rw [weighted_takes 3 fun i => rfl]
    simp [Builtin.plan, allMost, most_getD, List.range_succ]
  | contains =>
    rw [weighted_takes 2 fun i => rfl]
    simp [Builtin.plan, Plan.most, allMost, most_getD, List.range_succ]
    omega
  | join =>
    rw [weighted_takes 2 fun i => rfl]
    simp [Builtin.plan, allMost, most_getD, List.range_succ]
    omega
  | round =>
    rw [weighted_takes 1 fun i => rfl]
    simp [Builtin.plan, allMost, most_getD, List.range_succ]
  | random => exact (weighted_unused (fun _ _ => rfl) args).symm

-- Only a place has keys that are evaluated to test whether it exists.
theorem keyMost_plan : ∀ (e : Expr) (way : Way), e.plan.keyMost way = if e.isPlace then e.plan.most way else 0
  | .var name keys, way => by
    rw [plan, keyMost_varPlan, most_varPlan, isPlace]
    cases truth : (decide (name = "true") || decide (name = "false")) && keys.isEmpty with
    | false => rfl
    | true =>
      rw [Bool.and_eq_true, List.isEmpty_iff] at truth
      rw [truth.2]
      rfl
  | .concat [], _ => rfl
  | .concat [value], way => by
    show (value.plan.under 0).keyMost way = if value.isPlace then (value.plan.under 0).most way else 0
    rw [Plan.keyMost_under, Plan.most_under]
    cases way.through 0 with
    | none => split <;> rfl
    | some rest => exact keyMost_plan value rest
  | .concat (_ :: _ :: _), _ => rfl
  | .const _, _ => rfl
  | .str _, _ => rfl
  | .num _, _ => rfl
  | .binary _ _ _, _ => rfl
  | .unary op _, _ => by cases op <;> rfl
  | .isset _, _ => rfl
  | .ternary _ _ _, _ => rfl
  | .array _, _ => rfl
  | .range _ _ _, _ => rfl
  | .call _ _, _ => rfl
  | .unsupported, _ => rfl

-- A place whose code is written twice.
theorem most_safeRead {e : Expr} (stored : e.isPlace = true) (i : Nat) :
    (e.plan.under i).safeRead.most way = 2 * (way.through i).elim 0 e.plan.most := by
  rw [Plan.most_safeRead, Plan.keyMost_under, Plan.most_under]
  cases way.through i with
  | none => rfl
  | some rest =>
    simp only [Option.elim_some]
    rw [keyMost_plan e rest, if_pos stored, Nat.two_mul]

theorem isPlace_of_isStored {e : Expr} (stored : e.isStored = true) : e.isPlace = true := by
  cases e with
  | var name keys =>
    simp only [isStored, isReserved, isPlace, Bool.not_eq_true', Bool.and_eq_false_iff,
      Bool.or_eq_false_iff] at stored ⊢
    rcases stored with keyed | free
    · exact .inr keyed
    · exact .inl ⟨free.1.2, free.2⟩
  | _ => cases stored

theorem allMost_zipWith (first : Nat) (args : List Expr) :
    allMost way (List.zipWith (fun arg plan => if isStored arg then plan.safeRead else plan) args (plans first args)) =
      weighted (fun i => if args[i - first]?.any isStored then 2 else 1) way first args := by
  induction args generalizing first with
  | nil => rfl
  | cons arg others ih =>
    have later : weighted (fun i => if (arg :: others)[i - first]?.any isStored then 2 else 1) way (first + 1) others =
        weighted (fun i => if others[i - (first + 1)]?.any isStored then 2 else 1) way (first + 1) others := by
      refine weighted_congr (fun i after => ?_) others
      obtain ⟨k, rfl⟩ := Nat.exists_eq_add_of_le after
      have behind : first + 1 + k - first = k + 1 := by omega
      have next : first + 1 + k - (first + 1) = k := by omega
      rw [behind, next, List.getElem?_cons_succ]
    rw [plans, List.zipWith_cons_cons, allMost, ih, weighted, later]
    congr 1
    cases stored : arg.isStored with
    | true => simp [stored, most_safeRead (isPlace_of_isStored stored)]
    | false => simp [stored, Plan.most_under]

theorem most_callPlan (name : String) (args : List Expr) :
    (callPlan name (plans 1 args) args).most way = weighted (fun i => argUses name args (i - 1)) way 1 args := by
  cases known : Builtin.lookup? name with
  | none =>
    simp only [callPlan, known, Plan.most_calling, allMost_plans, argUses]
  | some builtin =>
    cases builtin with
    | classes => simp only [callPlan, known, Plan.most_calling, allMost_zipWith, argUses]
    | _ => simp only [callPlan, known, most_lower, argUses]

-- How often a call is evaluated at most is told by the parts of the expression, and by the expression itself if it is
-- the call.
theorem most_plan (e : Expr) :
    e.plan.most way = weighted e.uses way 0 e.parts + if e.isCall && way.isEmpty then 1 else 0 := by
  cases e with
  | var name keys => exact (most_varPlan _ _ _).trans (allMost_plans 0 keys)
  | concat values => exact (Plan.most_joined _ _ _).trans (allMost_plans 0 values)
  | array entries =>
    simp only [plan, Plan.most, allMost, Plan.most_joined, allMost_entryPlans, Nat.zero_add, Nat.add_zero]
    rfl
  | isset value =>
    rw [plan, Plan.most, Plan.keyMost_under]
    simp only [weighted, parts, uses, isCall, Bool.false_and, Bool.false_eq_true, if_false, Nat.add_zero]
    cases way.through 0 with
    | none => rfl
    | some rest =>
      simp only [Option.elim_some]
      rw [keyMost_plan value rest]
      split <;> simp
  | ternary condition consequent alternate =>
    -- A way goes through one of the two branches at most.
    simp only [plan, Plan.most, Plan.most_under, weighted, parts, uses, isCall, Nat.one_mul, Nat.add_zero]
    rcases way.through_apart (show 1 ≠ 2 by decide) with out | out <;> simp [out]
  | call callee args =>
    have here : (if ([] : Way) = way then 1 else 0) = if isCall (.call callee args) && way.isEmpty then 1 else 0 := by
      cases way <;> rfl
    rw [plan, Plan.most, parts, weighted, here, Nat.zero_add]
    congr 1
    cases named : callee.bare? with
    | some name =>
      have unread : (way.through 0).elim 0 callee.plan.most = 0 := by
        obtain rfl := eq_of_bare? named
        cases way.through 0 with
        | none => rfl
        | some rest => exact most_varPlan (Code.root name) name []
      have same : weighted (uses (.call callee args)) way 1 args =
          weighted (fun i => argUses name args (i - 1)) way 1 args := by
        refine weighted_congr (fun i after => ?_) args
        obtain ⟨k, rfl⟩ := Nat.exists_eq_add_of_le' after
        simp [uses, named]
      rw [unread, same, Nat.mul_zero, Nat.zero_add]
      exact most_callPlan name args
    | none =>
      have same : weighted (uses (.call callee args)) way 1 args = weighted (fun _ => 1) way 1 args := by
        refine weighted_congr (fun i after => ?_) args
        obtain ⟨k, rfl⟩ := Nat.exists_eq_add_of_le' after
        simp [uses, named]
      rw [same]
      simp [Plan.most, allMost, Plan.most_under, Plan.most_joined, allMost_plans, uses]
  | _ => simp [plan, Plan.most, allMost, Plan.most_under, weighted, parts, uses, isCall, most_unaryPlan]

theorem most_plan_eq (e : Expr) (way : Way) : e.plan.most way = e.evaluations way := by
  induction way generalizing e with
  | nil => simp [most_plan, weighted_nil, evaluations]
  | cons i rest ih => simp [most_plan, weighted_cons, evaluations, ih]

end Most

-- As a value, the test of a place reads the place too.
def usesIn (context : Context) (e : Expr) (i : Nat) : Nat :=
  match context, e with
  | .value, .isset value => if value.isPlace then 2 else 1
  | _, _ => e.uses i

def evaluationsIn (context : Context) (e : Expr) : Way → Nat
  | [] => if e.isCall then 1 else 0
  | i :: rest => e.parts[i]?.elim 0 fun part => e.usesIn context i * part.evaluations rest

theorem evaluationsIn_plain {context : Context} {e : Expr}
    (untested : ∀ value, context = .value → e = .isset value → False) (way : Way) :
    e.evaluationsIn context way = e.evaluations way := by
  have same : e.usesIn context = e.uses := by
    funext i
    unfold usesIn
    split
    · exact (untested _ rfl rfl).elim
    · rfl
  cases way with
  | nil => rfl
  | cons i rest => rw [evaluationsIn, same, evaluations]

theorem most_planIn (context : Context) (e : Expr) (way : Way) :
    (e.planIn context).most way = e.evaluationsIn context way := by
  unfold planIn
  split
  · rename_i value
    rw [Plan.most_safeRead, Plan.keyMost_under, Plan.most_under]
    cases way with
    | nil => rfl
    | cons i rest =>
      cases i with
      | zero =>
        simp only [Way.through, if_true, Option.elim_some, keyMost_plan value rest, most_plan_eq, evaluationsIn, usesIn,
          parts, List.getElem?_cons_zero]
        split <;> omega
      | succ i => rfl
  · rename_i name keys
    have plain := @evaluationsIn_plain .dataTarget (.var name keys) (by simp) way
    rw [plain, ← most_plan_eq, most_varPlan, plan, most_varPlan]
  · rename_i untested untargeted
    rw [evaluationsIn_plain untested, most_plan_eq]

section Safe

-- A call occurs in the expression.
def HasCall (e : Expr) : Prop := ∃ callee args, Occurs (.call callee args) e

-- The places that are read safely: the one that a value tests as a whole, and variables among classes.
inductive ReadsSafely (context : Context) (e : Expr) : Expr → Prop where
  | top {place : Expr} : context = .value → e = .isset place → place.isPlace = true → ReadsSafely context e place
  | argument {args : List Expr} {place : Expr} : Occurs (.call (.var "classes" []) args) e → place ∈ args →
    place.isStored = true → ReadsSafely context e place

theorem hasCall_of_evaluations {e : Expr} {way : Way} (found : e.evaluations way ≠ 0) : e.HasCall := by
  induction way generalizing e with
  | nil =>
    cases e with
    | call callee args => exact ⟨callee, args, .here⟩
    | _ => exact absurd rfl found
  | cons i rest ih =>
    cases listed : e.parts[i]? with
    | none => simp [evaluations, listed] at found
    | some part =>
      simp only [evaluations, listed, Option.elim_some, ne_eq, Nat.mul_eq_zero, not_or] at found
      obtain ⟨callee, args, occurs⟩ := ih found.2
      exact ⟨callee, args, .inside (List.mem_of_getElem? listed) occurs⟩

theorem eq_classes {name : String} (known : Builtin.lookup? name = some .classes) : name = "classes" := by
  have only : ∀ entry ∈ Builtin.table, entry.2 = .classes → entry.1 = "classes" := by decide
  exact only (name, .classes) (entry_of_lookup known) rfl

-- A part is evaluated once at most, unless it is a variable among classes.
theorem uses_le_one {e part : Expr} {i : Nat} (listed : e.parts[i]? = some part) :
    e.uses i ≤ 1 ∨ ∃ args, e = .call (.var "classes" []) args ∧ part ∈ args ∧ part.isStored = true := by
  cases e with
  | isset value =>
    left
    rw [uses]
    split <;> decide
  | call callee args =>
    cases i with
    | zero => exact .inl (Nat.le_refl 1)
    | succ i =>
      cases named : callee.bare? with
      | none =>
        left
        rw [uses, named]
        exact Nat.le_refl 1
      | some name =>
        have argument : args[i]? = some part := listed
        rw [uses, named, Option.elim_some, argUses]
        split
        · rename_i known
          rw [argument, Option.any_some]
          cases stored : part.isStored with
          | false => exact .inl (Nat.le_refl 1)
          | true =>
            obtain rfl := eq_of_bare? named
            obtain rfl := eq_classes known
            exact .inr ⟨args, rfl, List.mem_of_getElem? argument, rfl⟩
        · left
          split <;> decide
        · exact .inl (Nat.le_refl 1)
  | _ => exact .inl (Nat.le_refl 1)

theorem evaluations_le_one {e : Expr}
    (free : ∀ args place, Occurs (.call (.var "classes" []) args) e → place ∈ args → place.isStored = true →
      ¬ place.HasCall)
    (way : Way) : e.evaluations way ≤ 1 := by
  induction way generalizing e with
  | nil =>
    rw [evaluations]
    split <;> decide
  | cons i rest ih =>
    cases listed : e.parts[i]? with
    | none => simp [evaluations, listed]
    | some part =>
      have member := List.mem_of_getElem? listed
      have below := ih fun args place occurs => free args place (.inside member occurs)
      rw [evaluations, listed, Option.elim_some]
      rcases uses_le_one listed with once | ⟨args, rfl, argument, stored⟩
      · exact Nat.le_trans (Nat.mul_le_mul once below) (by decide)
      · have none : part.evaluations rest = 0 := by
          by_cases found : part.evaluations rest = 0
          · exact found
          · exact absurd (hasCall_of_evaluations found) (free args part .here argument stored)
        rw [none, Nat.mul_zero]
        exact Nat.zero_le 1

theorem evaluationsIn_le_one {context : Context} {e : Expr}
    (free : ∀ place, e.ReadsSafely context place → ¬ place.HasCall) (way : Way) :
    e.evaluationsIn context way ≤ 1 := by
  by_cases tested : ∃ value, context = .value ∧ e = .isset value
  · obtain ⟨value, rfl, rfl⟩ := tested
    have inner : ∀ rest, value.evaluations rest ≤ 1 := evaluations_le_one fun args place occurs member stored =>
      free place (.argument (.inside List.mem_cons_self occurs) member stored)
    match way with
    | [] => exact Nat.zero_le 1
    | 0 :: rest =>
      show (if value.isPlace then 2 else 1) * value.evaluations rest ≤ 1
      cases placed : value.isPlace with
      | false =>
        rw [if_neg (by decide), Nat.one_mul]
        exact inner rest
      | true =>
        by_cases found : value.evaluations rest = 0
        · rw [found]
          exact Nat.zero_le 1
        · exact absurd (hasCall_of_evaluations found) (free value (.top rfl rfl placed))
    | (i + 1) :: rest => exact Nat.zero_le 1
  · rw [evaluationsIn_plain (fun value own same => tested ⟨value, own, same⟩)]
    exact evaluations_le_one (fun args place occurs member stored => free place (.argument occurs member stored)) way

-- The code of an expression evaluates each call as often as the parts around it are used, and on some path it does.
-- This is once at most, unless the call stands in a key of a place that is read safely.
theorem emit?_evaluates (context : Context) (e : Expr) (supported : ¬ Occurs .unsupported e) :
    e.emit? context = some (e.planIn context).code ∧
      (∀ way trace, (e.planIn context).Evaluates trace → trace.count way ≤ e.evaluationsIn context way) ∧
      (∀ way, ∃ trace, (e.planIn context).Evaluates trace ∧ trace.count way = e.evaluationsIn context way) ∧
      ((∀ place, e.ReadsSafely context place → ¬ place.HasCall) →
        ∀ way trace, (e.planIn context).Evaluates trace → trace.count way ≤ 1) := by
  have bound (way : Way) (trace : List Way) (evaluates : (e.planIn context).Evaluates trace) :
      trace.count way ≤ e.evaluationsIn context way := by
    rw [← most_planIn]
    exact Plan.count_le_most evaluates way
  refine ⟨?_, bound, fun way => ?_, fun free way trace evaluates => ?_⟩
  · cases made : e.emit? context with
    | none => exact absurd ((emit?_eq_none context e).mp made) supported
    | some code => rw [code_planIn made]
  · rw [← most_planIn]
    exact Plan.exists_most _ way
  · exact Nat.le_trans (bound way trace evaluates) (evaluationsIn_le_one free way)

-- A place with a call in its key, among classes, beside a split whose subject is a call that is written twice.
def callsInKeys : Expr :=
  .call (.var "classes" []) [.var "x" [.call (.var "arr_pop" []) [.var "a" []]],
    .call (.var "str_split" []) [.call (.var "read" []) [], .call (.var "next" []) []]]

theorem emit?_evaluates_callsInKeys : ¬ Occurs .unsupported callsInKeys ∧
    (∀ trace, (callsInKeys.planIn .value).Evaluates trace →
      trace.count [1, 0] ≤ 2 ∧ trace.count [2] ≤ 1 ∧ trace.count [2, 1] ≤ 1 ∧ trace.count [2, 2] ≤ 1) ∧
    ∃ trace, (callsInKeys.planIn .value).Evaluates trace ∧ trace.count [1, 0] = 2 := by
  have supported : ¬ Occurs .unsupported callsInKeys := by
    intro occurs
    have spoilt := occurs.spoils
    revert spoilt
    decide
  obtain ⟨_, bound, reached, _⟩ := emit?_evaluates .value callsInKeys supported
  refine ⟨supported, fun trace evaluates => ⟨?_, ?_, ?_, ?_⟩, reached [1, 0]⟩
  · exact bound [1, 0] trace evaluates
  · exact bound [2] trace evaluates
  · exact bound [2, 1] trace evaluates
  · exact bound [2, 2] trace evaluates

-- The array is popped for the test and again for the result, so that what is read is not what was tested.
theorem safe_read_pops_twice :
    ((Expr.isset (.var "x" [.call (.var "arr_pop" []) [.var "a" []]])).emit? .value).map (Code.render .empty) =
        some ("(isset($__data[\"x\"][array_pop($__data[\"a\"])]) ? " ++
          "$__data[\"x\"][array_pop($__data[\"a\"])] : \"\")") ∧
      ∃ trace, ((Expr.isset (.var "x" [.call (.var "arr_pop" []) [.var "a" []]])).planIn .value).Evaluates trace ∧
        trace.count [0, 0] = 2 := by
  refine ⟨by decide +kernel, [[0, 0], [0, 0]], ⟨[[0, 0], [0, 0]], ?_, .refl _⟩, rfl⟩
  decide +kernel

end Safe

end Expr

end Stencil
