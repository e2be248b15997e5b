import Stencil.Proofs.Execution
import Stencil.Walk.Content

-- The records that a template denotes. The tests of its control flow are decided first; this leaves a tree without
-- control flow, and the records can be read off it.

namespace Stencil

-- The text of a test in the generated code.
def Part.test (scope : Scope) : Part → String
  | .literal text => Text.quoted text
  | .expression e => ((e.emit? .condition).getD .empty).render scope

def Tag.holds (truth : String → Bool) (scope : Scope) (tag : Tag) : Bool :=
  (Attr.param? tag.attrs "test").any fun test => truth (test.test scope)

namespace Node

section Resolve

variable (truth : String → Bool) (scope : Scope)

mutual

-- The nodes that stand in the place of a node once all tests are decided.
def resolve : Node → List Node
  | .leaf identity value location => [.leaf identity value location]
  | .tag identity own children location =>
    match TagKind.ofName? own.name with
    | some (.control .conditional .content) => if own.holds truth scope then resolveAll children else []
    | some (.control .switch .content) => (choose? children).getD []
    | _ => [.tag identity own (resolveAll children) location]

def resolveAll : List Node → List Node
  | [] => []
  | first :: rest => resolve first ++ resolveAll rest

-- The branch of a switch: the first case whose test holds, or else the default.
def choose? : List Node → Option (List Node)
  | [] => none
  | .leaf _ _ _ :: rest => choose? rest
  | .tag _ own children _ :: rest =>
    match TagKind.ofName? own.name with
    | some (.control .case .content) => if own.holds truth scope then some (resolveAll children) else choose? rest
    | some (.control .default .content) => some (resolveAll children)
    | _ => choose? rest

end

end Resolve

end Node

-- What an attribute with a fixed name and a fixed value assigns.
def Attr.assignment? (attr : Attr) : Option (String × AttrValue) :=
  match attr.name, attr.value with
  | .literal name, some (.literal value) => some (name, .text value)
  | .literal name, none => some (name, .flag)
  | _, _ => none

def Tag.assignment? (tag : Tag) : Option (String × AttrValue) :=
  match Attr.param? tag.attrs "name", Attr.param? tag.attrs "value" with
  | some (.literal name), some (.literal value) => some (name, .text value)
  | _, _ => none

namespace Attributes

-- The attributes after some assignments: every name at the place of its first assignment, with the value of its
-- last.
def settled (assigned : List (String × AttrValue)) : Attributes :=
  (assigned.map Prod.fst).eraseDups.map fun name => (name, (assigned.reverse.lookup name).getD .flag)

-- A name that is there keeps its place, and a new one comes last.
theorem set_map {names : List String} (distinct : names.Nodup) (value : String → AttrValue) (new : String × AttrValue) :
    Attributes.set (names.map fun name => (name, value name)) new =
      (if new.1 ∈ names then names else names ++ [new.1]).map fun name =>
        (name, if name = new.1 then new.2 else value name) := by
  induction names with
  | nil => simp [Attributes.set]
  | cons first rest ih =>
    obtain ⟨fresh, distinct⟩ := List.nodup_cons.mp distinct
    by_cases same : first = new.1
    · have others : ∀ name ∈ rest, (name, if name = new.1 then new.2 else value name) = (name, value name) := by
        intro name member
        have apart : ¬name = new.1 := by
          intro equal
          exact fresh (by rwa [same, ← equal])
        rw [if_neg apart]
      simp [Attributes.set, same, List.map_congr_left others]
    · have other : ¬new.1 = first := fun equal => same equal.symm
      simp only [List.map_cons, Attributes.set, same, if_false, ih distinct, List.mem_cons, other, false_or]
      split <;> simp [same]

-- Assignments one after the other, the last of them first.
theorem foldr_set (assigned : List (String × AttrValue)) :
    (assigned.reverse.map Prod.fst).eraseDups.Nodup ∧
      assigned.foldr (fun new attrs => Attributes.set attrs new) [] = settled assigned.reverse := by
  induction assigned with
  | nil => exact ⟨List.nodup_nil, rfl⟩
  | cons new before ih =>
    obtain ⟨distinct, same⟩ := ih
    obtain ⟨key, value⟩ := new
    have names : (((key, value) :: before).reverse.map Prod.fst).eraseDups =
        if key ∈ (before.reverse.map Prod.fst).eraseDups then (before.reverse.map Prod.fst).eraseDups
        else (before.reverse.map Prod.fst).eraseDups ++ [key] := by
      simp only [List.reverse_cons, List.map_append, List.map_cons, List.map_nil, List.eraseDups_append,
        List.mem_eraseDups]
      split <;> simp_all [List.removeAll, List.eraseDups_cons]
    refine ⟨?_, ?_⟩
    · rw [names]
      split
      · exact distinct
      · rename_i fresh
        refine List.nodup_append.mpr ⟨distinct, by simp, fun name known other last equal => fresh ?_⟩
        rwa [← List.mem_singleton.mp last, ← equal]
    · rw [List.foldr_cons, same, settled, settled, names, set_map distinct]
      refine List.map_congr_left fun name _ => ?_
      by_cases equal : name = key
      · simp [equal]
      · have other : (name == key) = false := by simpa using equal
        simp [List.lookup_cons, equal, other]

theorem foldl_set (assigned : List (String × AttrValue)) : assigned.foldl Attributes.set [] = settled assigned := by
  simpa using (foldr_set assigned.reverse).2

end Attributes

namespace Node

def assignment? : Node → Option (String × AttrValue)
  | .tag _ own _ _ => if TagKind.ofName? own.name = some (.attr .content) then own.assignment? else none
  | .leaf _ _ _ => none

mutual

-- The records of a node without control flow. The attribute tags among the children of a tag come before its own
-- attributes.
def records (options : Options) : Node → List Record
  | .leaf _ (.text value) _ => [.field "text" value]
  | .leaf _ (.comment value) _ => [.field "comment" value]
  | .leaf _ (.string value) _ => [.field "text" value]
  | .leaf _ (.script attrs body) _ => [.script (.settled (attrs.filterMap Attr.assignment?)) body]
  | .leaf _ _ _ => []
  | .tag _ own children _ =>
    match TagKind.ofName? own.name with
    | none =>
      let inner := if own.selfClosing then [] else children.filterMap assignment?
      [.tag own.name (.settled (inner ++ own.attrs.filterMap Attr.assignment?))
        (if Walk.isSingle options own then none else some (allRecords options children))]
    | some _ => []

def allRecords (options : Options) : List Node → List Record
  | [] => []
  | first :: rest => records options first ++ allRecords options rest

end

theorem allRecords_append (options : Options) (front back : List Node) :
    allRecords options (front ++ back) = allRecords options front ++ allRecords options back := by
  induction front with
  | nil => rfl
  | cons first rest ih => rw [List.cons_append, allRecords, ih, allRecords, List.append_assoc]

mutual

def identities : Node → List Nat
  | .tag identity _ children _ => identity.toNat :: allIdentities children
  | .leaf identity _ _ => [identity.toNat]

def allIdentities : List Node → List Nat
  | [] => []
  | first :: rest => identities first ++ allIdentities rest

end

def isText : Node → Bool
  | .leaf _ (.text _) _ => true
  | _ => false

mutual

-- A node whose code only builds records: fixed text, scripts, tags that stand for themselves, attributes with fixed
-- names and values, conditions, and switches between them.
def isBasic (component : String → Bool) : Node → Bool
  | .leaf _ (.script attrs _) _ => attrs.all fun attr => attr.assignment?.isSome
  | .leaf _ (.slot _) _ => false
  | .leaf _ (.block _) _ => false
  | .leaf _ _ _ => true
  | .tag _ own children _ =>
    match TagKind.ofName? own.name with
    | none => !component own.name && own.attrs.all (fun attr => attr.assignment?.isSome) && allBasic component children
    | some (.attr .content) => own.assignment?.isSome
    | some (.control .conditional .content) => allBasic component children
    | some (.control .switch .content) => areBranches component children
    | some _ => false

def allBasic (component : String → Bool) : List Node → Bool
  | [] => true
  | first :: rest => isBasic component first && allBasic component rest

-- The children of a switch: cases, and at most one default, behind them. Text may stand between them.
def areBranches (component : String → Bool) : List Node → Bool
  | [] => true
  | .leaf _ (.text _) _ :: rest => areBranches component rest
  | .leaf _ _ _ :: _ => false
  | .tag _ own children _ :: rest =>
    match TagKind.ofName? own.name with
    | some (.control .case .content) => allBasic component children && areBranches component rest
    | some (.control .default .content) => allBasic component children && rest.all isText
    | _ => false

end

theorem areBranches_of_text {component : String → Bool} {nodes : List Node} (text : nodes.all isText = true) :
    areBranches component nodes = true := by
  induction nodes with
  | nil => rfl
  | cons first rest ih =>
    rw [List.all_cons, Bool.and_eq_true] at text
    cases first with
    | tag identity own children location => cases text.1
    | leaf identity value location =>
      cases value with
      | text value => exact ih text.2
      | _ => cases text.1

end Node

end Stencil
