import Stencil.Proofs.Accumulator
import Stencil.Proofs.Assignable
import Stencil.Proofs.Storage

-- What the lines of a compilation assign to. Each target in the lines is the code of what a tag of the template names, in
-- the order of the template; it is a place just if the tag names a variable other than the two truth values.

namespace Stencil

open Lexeme (Assignable)

-- What a line assigns to: the places before an equals sign, and those that a loop binds.
def Line.targets : Line → List Code
  | .parameter target _ => [target]
  | .assign target _ => [target]
  | .keepChildren target _ => [target]
  | .useState target _ _ => [target]
  | .openLoop _ binding => binding.key.toList ++ [binding.item]
  | _ => []

-- The target of a parameter lies in the caller's data.
def Tag.targetContext (tag : Tag) : Expr.Context :=
  if TagKind.ofName? tag.name = some .parameter then .dataTarget else .target true

-- A tag that assigns, and the part of it that names the target.
structure Aim where
  tag : Tag
  part : Part

namespace Aim

def expr (aim : Aim) : Expr := aim.part.asTarget

-- The code of the target that a tag names. The name of a state variable is a variable without keys.
structure Gives (aim : Aim) (target : Code) : Prop where
  emitted : aim.expr.emit? aim.tag.targetContext = some target
  bare : TagKind.ofName? aim.tag.name = some .state → ∃ name, aim.expr = .var name []

end Aim

namespace Tag

def aims (tag : Tag) (names : List String) : List Aim :=
  names.flatMap fun name => (tag.param? name).toList.map (Aim.mk tag)

-- The parameters of control flow that name targets.
def bindingNames : Control → List String
  | .loop => ["key", "item"]
  | _ => []

end Tag

namespace Sketch

mutual

-- The targets that a copy in a fragment names.
def appliedAims : Sketch → List Aim
  | .node ⟨_, .tag tag, _⟩ children =>
    match TagKind.ofName? tag.name with
    | some (.control kind .applied) =>
      (if children.isEmpty then [] else tag.aims (Tag.bindingNames kind)) ++ allAppliedAims children
    | _ => []
  | .node ⟨_, .leaf _, _⟩ _ => []

def allAppliedAims : List Sketch → List Aim
  | [] => []
  | first :: rest => appliedAims first ++ allAppliedAims rest

end

mutual

-- The targets that are named where lines are written. The children of a single tag are not written, but what they
-- leave in its fragment is.
def aims (options : Options) : Sketch → List Aim
  | .node ⟨_, .tag tag, _⟩ children =>
    match TagKind.ofName? tag.name with
    | some .parameter => tag.aims ["name"]
    | some .assignment => tag.aims ["name"]
    | some .state => tag.aims ["name"]
    | some .template => allAims options children ++ tag.aims ["name"]
    | some (.control kind _) =>
      (if children.isEmpty then [] else tag.aims (Tag.bindingNames kind)) ++ allAims options children
    | some _ => []
    | none =>
      (if tag.selfClosing then [] else allAppliedAims (copies children)) ++
        if Walk.isSingle options tag then [] else allAims options children
  | .node ⟨_, .leaf _, _⟩ _ => []

def allAims (options : Options) : List Sketch → List Aim
  | [] => []
  | first :: rest => aims options first ++ allAims options rest

end

theorem appliedAims_of_not_applied {identity : Nat} {tag : Tag} {location : Location} {children : List Sketch}
    (other : tag.isApplied = false) : appliedAims (.node ⟨identity, .tag tag, location⟩ children) = [] := by
  unfold appliedAims
  split
  · simp_all [Tag.isApplied]
  · rfl

theorem allAims_append (options : Options) (front back : List Sketch) :
    allAims options (front ++ back) = allAims options front ++ allAims options back := by
  induction front with
  | nil => rfl
  | cons first rest ih => rw [List.cons_append, allAims, ih, allAims, List.append_assoc]

end Sketch

namespace Passage

def aims (options : Options) : Passage → List Aim
  | .node _ outline => Sketch.allAims options (Outline.flat outline)
  | .nodes _ outlines => Sketch.allAims options (Outline.flatten outlines)
  | .copy _ sketch => sketch.appliedAims
  | .copies _ sketches => Sketch.allAppliedAims sketches
  | .control kind tag body => (if body.isEmpty then [] else tag.aims (Tag.bindingNames kind)) ++ body.aims options
  | .attrs _ held _ => Sketch.allAppliedAims held

theorem aims_tag {options : Options} {sink identity : Nat} {tag : Tag} {location : Location} {children : List Outline} :
    aims options (.node sink (.node ⟨identity, .tag tag, location⟩ children)) =
      Sketch.aims options (.node ⟨identity, .tag tag, location⟩ (Outline.flatten children)) := by
  simp [aims, Outline.flat, Sketch.allAims]

theorem aims_unbound {options : Options} {kind : Control} {tag : Tag} {body : Passage}
    (none : Tag.bindingNames kind = []) : aims options (.control kind tag body) = body.aims options := by
  simp [aims, none, Tag.aims]

theorem aims_of_isEmpty {options : Options} {passage : Passage} (empty : passage.isEmpty = true) :
    passage.aims options = [] := by
  cases passage with
  | nodes sink outlines =>
    rw [isEmpty, List.isEmpty_iff] at empty
    rw [aims, empty]
    rfl
  | copies attrsOf sketches =>
    rw [isEmpty, List.isEmpty_iff] at empty
    rw [aims, empty]
    rfl
  | _ => cases empty

end Passage

-- The lines assign to the named targets, one by one.
def Line.Assign (aims : List Aim) (lines : List Line) : Prop := List.Forall₂ Aim.Gives aims (lines.flatMap Line.targets)

namespace Line.Assign

variable {aims others : List Aim} {lines behind : List Line}

theorem append (first : Assign aims lines) (second : Assign others behind) :
    Assign (aims ++ others) (lines ++ behind) := by
  rw [Assign, List.flatMap_append]
  exact List.rel_append first second

theorem cons {line : Line} (first : List.Forall₂ Aim.Gives aims line.targets) (second : Assign others behind) :
    Assign (aims ++ others) (line :: behind) := by
  rw [Assign, List.flatMap_cons]
  exact List.rel_append first second

-- A line that assigns to nothing may stand before or behind the others.
theorem lead {line : Line} (none : line.targets = []) (assign : Assign aims lines) : Assign aims (line :: lines) := by
  rwa [Assign, List.flatMap_cons, none, List.nil_append]

theorem trail {line : Line} (none : line.targets = []) (assign : Assign aims lines) :
    Assign aims (lines ++ [line]) := by
  rwa [Assign, List.flatMap_append, List.flatMap_singleton, none, List.append_nil]

theorem idle (none : ∀ line ∈ lines, line.targets = []) : Assign [] lines := by
  rw [Assign, List.flatMap_eq_nil_iff.mpr none]
  exact .nil

end Line.Assign

namespace Tag

variable {tag : Tag}

theorem targetContext_ne_value (tag : Tag) : tag.targetContext ≠ .value := by
  unfold targetContext
  split <;> decide

theorem targetContext_of {kind : TagKind} (named : TagKind.ofName? tag.name = some kind) (other : kind ≠ .parameter) :
    tag.targetContext = .target true := by
  simp [targetContext, named, other]

theorem aims_singleton {name : String} {p : Part} (named : tag.param? name = some p) :
    tag.aims [name] = [⟨tag, p⟩] := by
  simp [aims, named]

theorem gives_part {p : Part} {target : Code} (emitted : p.asTarget.emit? tag.targetContext = some target)
    (other : TagKind.ofName? tag.name ≠ some .state) : Aim.Gives ⟨tag, p⟩ target :=
  ⟨emitted, fun state => absurd state other⟩

theorem gives_place {name : String} {target : Code} (placed : tag.place? tag.targetContext name = some target)
    (other : TagKind.ofName? tag.name ≠ some .state) : List.Forall₂ Aim.Gives (tag.aims [name]) [target] := by
  obtain ⟨p, found, emitted⟩ := Option.bind_eq_some_iff.mp placed
  rw [aims_singleton found]
  exact .cons (gives_part emitted other) .nil

theorem gives_state {name stored : String} {target : Code} (placed : tag.place? tag.targetContext name = some target)
    (bare : (tag.param? name).bind Walk.stateName? = some stored) :
    List.Forall₂ Aim.Gives (tag.aims [name]) [target] := by
  obtain ⟨p, found, emitted⟩ := Option.bind_eq_some_iff.mp placed
  rw [found, Option.bind_some] at bare
  rw [aims_singleton found]
  refine .cons ⟨emitted, fun _ => ?_⟩ .nil
  cases p with
  | literal text => cases bare
  | expression e => exact ⟨stored, Expr.eq_of_bare? bare⟩

theorem gives_binding {flow : Flow} (named : TagKind.ofName? tag.name = some (.control .loop flow)) {binding : Binding}
    (found : tag.binding? = some binding) :
    List.Forall₂ Aim.Gives (tag.aims ["key", "item"]) (binding.key.toList ++ [binding.item]) := by
  have context := targetContext_of named nofun
  have other : TagKind.ofName? tag.name ≠ some .state := by simp [named]
  have parted : tag.aims ["key", "item"] = tag.aims ["key"] ++ tag.aims ["item"] := by simp [aims]
  simp only [binding?, ← context, Option.bind_eq_bind, Option.bind_eq_some_iff] at found
  obtain ⟨item, placed, found⟩ := found
  have last := gives_place placed other
  rw [parted]
  cases keyed : tag.param? "key" with
  | none =>
    simp only [keyed, Option.some.injEq] at found
    subst found
    have unkeyed : tag.aims ["key"] = [] := by simp [aims, keyed]
    rw [unkeyed]
    exact last
  | some key =>
    simp only [keyed, Option.bind_eq_some_iff, Option.some.injEq] at found
    obtain ⟨code, emitted, rfl⟩ := found
    rw [aims_singleton keyed]
    exact .cons (gives_part emitted other) last

theorem gives_opening {kind : Control} {flow : Flow} (named : TagKind.ofName? tag.name = some (.control kind flow))
    {opening : Line} (opened : tag.opening? kind = some opening) :
    List.Forall₂ Aim.Gives (tag.aims (bindingNames kind)) opening.targets := by
  cases kind with
  | conditional =>
    obtain ⟨test, _, rfl⟩ := Option.map_eq_some_iff.mp opened
    exact .nil
  | loop =>
    simp only [opening?, Option.bind_eq_bind, Option.bind_eq_some_iff, Option.some.injEq] at opened
    obtain ⟨source, _, binding, found, rfl⟩ := opened
    exact gives_binding named found
  | _ => cases opened

theorem assign_statement {options : Options} {kind : TagKind} (named : TagKind.ofName? tag.name = some kind)
    {lines : List Line} (stated : tag.statement? options kind = some lines) {identity : Nat} {location : Location}
    {children : List Sketch} :
    Line.Assign (Sketch.aims options (.node ⟨identity, .tag tag, location⟩ children)) lines := by
  simp only [Sketch.aims, named]
  cases kind with
  | parameter =>
    simp only [statement?, Option.bind_eq_bind, Option.bind_eq_some_iff, Option.some.injEq] at stated
    obtain ⟨target, placed, value, _, rfl⟩ := stated
    exact gives_place (by simpa [targetContext, named] using placed) (by simp [named])
  | assignment =>
    simp only [statement?, ← targetContext_of named (by simp), Option.bind_eq_bind, Option.bind_eq_some_iff,
      Option.some.injEq] at stated
    obtain ⟨target, placed, value, _, rfl⟩ := stated
    exact gives_place placed (by simp [named])
  | attr flow =>
    cases flow with
    | content =>
      cases stated
      exact .nil
    | applied => cases stated
  | importing =>
    simp only [statement?, Option.bind_eq_bind, Option.bind_eq_some_iff, Option.some.injEq] at stated
    obtain ⟨name, _, path, _, rfl⟩ := stated
    exact .nil
  | state =>
    simp only [statement?, ← targetContext_of named (by simp), Option.bind_eq_bind, Option.bind_eq_some_iff,
      Option.some.injEq] at stated
    obtain ⟨target, placed, stored, bare, initial, _, rfl⟩ := stated
    exact gives_state placed (Option.bind_eq_some_iff.mpr bare)
  | _ => cases stated

end Tag

-- The tag of control flow has the name of it.
def Passage.Fits : Passage → Prop
  | .control kind tag body => (∃ flow, TagKind.ofName? tag.name = some (.control kind flow)) ∧ body.Fits
  | _ => True

theorem Attr.targets_lines? {attrsOf : Nat} {attrs : List Attr} {lines : List Line}
    (made : Attr.lines? attrsOf attrs = some lines) : ∀ line ∈ lines, line.targets = [] := by
  intro line member
  obtain ⟨name, value, rfl⟩ := Attr.eq_of_mem_lines? made line member
  rfl

theorem Ending.targets {identity sink attrsOf : Nat} {name : String} {childrenOf : Option Nat} {last : Line}
    (ends : Ending identity sink attrsOf name childrenOf last) : last.targets = [] := by
  cases ends <;> rfl

-- The lines of a passage assign to what its tags name.
theorem Written.assign {options : Options} {passage : Passage} {l r : Ledger} {lines : List Line}
    (written : Written options passage l lines r) (fits : passage.Fits) :
    Line.Assign (passage.aims options) lines := by
  induction written with
  | noNodes => exact .nil
  | moreNodes _ _ head tail =>
    rw [Passage.aims, Outline.flatten, Sketch.allAims_append]
    exact (head trivial).append (tail trivial)
  | file _ ih => exact ih trivial
  | blank => exact .nil
  | field => exact .nil
  | value => exact .nil
  | script _ ih => exact (ih trivial).trail rfl
  | statement named stated =>
    rw [Passage.aims_tag]
    exact Tag.assign_statement named stated
  | template named placed _ ih =>
    rw [← Tag.targetContext_of named nofun] at placed
    have last := Tag.gives_place placed (by simp [named])
    simp only [Passage.aims_tag, Sketch.aims, named]
    exact .lead rfl ((ih trivial).append last)
  | controlled named _ ih =>
    simp only [Passage.aims_tag, Sketch.aims, named]
    exact ih ⟨⟨_, named⟩, trivial⟩
  | closed named closing _ ends ih =>
    simp only [Passage.aims_tag, Sketch.aims, named, closing, Draft.selfClosing_isSingle closing, if_true]
    exact (ih trivial).trail ends.targets
  | single named opened single _ _ ends _ block =>
    simp only [Passage.aims_tag, Sketch.aims, named, opened, single, Bool.false_eq_true, if_false, if_true,
      List.append_nil]
    exact (block trivial).trail ends.targets
  | full named opened single _ _ ends children block =>
    simp only [Passage.aims_tag, Sketch.aims, named, opened, single, Bool.false_eq_true, if_false]
    exact ((block trivial).append (.lead rfl (children trivial))).trail ends.targets
  | attrs _ made ih =>
    have own := Line.Assign.idle (Attr.targets_lines? made)
    have whole := (ih trivial).append own
    rw [List.append_nil] at whole
    exact .lead rfl whole
  | noCopies => exact .nil
  | moreCopies _ _ head tail => exact (head trivial).append (tail trivial)
  | copiedAttr named =>
    simp only [Passage.aims, Sketch.appliedAims, named]
    exact .nil
  | copiedControl named _ ih =>
    simp only [Passage.aims, Sketch.appliedAims, named]
    exact ih ⟨⟨_, named⟩, trivial⟩
  | @ignored _ _ content _ _ _ other =>
    cases content with
    | leaf leaf => exact .nil
    | tag tag =>
      rw [Passage.aims, Sketch.appliedAims_of_not_applied (other tag rfl)]
      exact .nil
  | childless empty =>
    rw [Passage.aims, if_pos empty, Passage.aims_of_isEmpty empty]
    exact .nil
  | guarded filled opened _ ih =>
    obtain ⟨⟨flow, named⟩, below⟩ := fits
    rw [Passage.aims, if_neg (by simp [filled])]
    exact .trail rfl (.cons (Tag.gives_opening named opened) (ih below))
  | switch _ ih =>
    rw [Passage.aims_unbound rfl]
    split
    · exact (ih fits.2).trail rfl
    · exact ih fits.2
  | case _ _ _ ih =>
    rw [Passage.aims_unbound rfl]
    refine .lead ?_ (ih fits.2)
    split <;> rfl
  | default _ _ ih =>
    rw [Passage.aims_unbound rfl]
    split
    · exact (ih fits.2).lead rfl
    · exact ih fits.2

section Places

open Text (quoted)

-- The code of a place: a variable of the scope or of the data, or the children, with the codes of keys behind it.
inductive Code.IsPlace : Code → Prop where
  | children : IsPlace "$__children"
  | stored (name : String) : IsPlace (Code.concat [Code.root name, "[", quoted name, "]"])
  | given (name : String) : IsPlace (Code.concat ["$__data", "[", quoted name, "]"])
  | item {place key : Code} {e : Expr} : IsPlace place → e.code? = some key →
    IsPlace (place ++ Code.concat ["[", key, "]"])

theorem Code.IsPlace.keys {place : Code} (base : place.IsPlace) {keys : List Expr} {codes : List Code}
    (made : Expr.codes? keys = some codes) : (place ++ Expr.keysCode codes).IsPlace := by
  induction keys generalizing place codes with
  | nil =>
    cases made
    rwa [Expr.keysCode, List.map_nil, Code.concat_nil, Code.append_empty]
  | cons key rest ih =>
    simp only [Expr.codes?, Option.bind_eq_bind, Option.bind_eq_some_iff, Option.some.injEq] at made
    obtain ⟨own, keyMade, others, restMade, rfl⟩ := made
    have longer := ih (base.item keyMade) restMade
    rwa [Code.append_assoc] at longer

namespace Expr

theorem isPlace_varCode {root : Code} {name : String} {keys : List Expr} {codes : List Code}
    (rooted : (Code.concat [root, "[", quoted name, "]"]).IsPlace) (placed : (Expr.var name keys).isPlace = true)
    (made : codes? keys = some codes) : (varCode root name codes).IsPlace := by
  have empty : codes.isEmpty = keys.isEmpty := by
    cases keys with
    | nil =>
      cases made
      rfl
    | cons key rest =>
      simp only [codes?, Option.bind_eq_bind, Option.bind_eq_some_iff, Option.some.injEq] at made
      obtain ⟨own, _, others, _, rfl⟩ := made
      rfl
  rw [isPlace, Bool.not_eq_true'] at placed
  rw [varCode, empty, if_neg (by simp [placed])]
  refine Code.IsPlace.keys ?_ made
  split
  · exact .children
  · exact rooted

theorem isPlace_code? : ∀ {e : Expr} {code : Code}, e.isPlace = true → e.code? = some code → code.IsPlace
  | .var name keys, code, placed, made => by
    simp only [code?, Option.bind_eq_bind, Option.bind_eq_some_iff, Option.some.injEq] at made
    obtain ⟨codes, found, rfl⟩ := made
    exact isPlace_varCode (.stored name) placed found
  | .concat [value], code, placed, made => by
    simp only [code?, codes?, Option.bind_eq_bind, Option.bind_some, Option.bind_eq_some_iff, Option.some.injEq] at made
    obtain ⟨codes, ⟨own, found, rfl⟩, rfl⟩ := made
    have inner : value.isPlace = true := placed
    exact isPlace_code? inner found

theorem isPlace_emit? {context : Context} (targeted : context ≠ .value) {e : Expr} {code : Code}
    (placed : e.isPlace = true) (made : e.emit? context = some code) : code.IsPlace := by
  unfold emit? at made
  split at made
  · exact absurd rfl targeted
  · obtain ⟨codes, found, rfl⟩ := Option.map_eq_some_iff.mp made
    exact isPlace_varCode (.given _) placed found
  · exact isPlace_code? placed made

end Expr

-- The code of a named target is a place if a variable is named, and by its lexemes only then.
structure Aim.Hits (scope : Scope) (aim : Aim) (target : Code) : Prop extends aim.Gives target where
  placed : aim.expr.isPlace = true → target.IsPlace
  assignable : aim.expr.Regular → ∃ lexemes, Lexeme.split (target.render scope) = some lexemes ∧
    (Assignable lexemes ↔ aim.expr.isPlace = true)

theorem Aim.Gives.hits {aim : Aim} {target : Code} (gives : aim.Gives target) (scope : Scope) :
    aim.Hits scope target where
  toGives := gives
  placed placed := Expr.isPlace_emit? aim.tag.targetContext_ne_value placed gives.emitted
  assignable regular := by
    obtain ⟨code, made, spells⟩ := Expr.spells_emit? scope aim.tag.targetContext regular
    cases made.symm.trans gives.emitted
    exact ⟨_, spells.splitChars, Expr.assignable_emitted aim.tag.targetContext_ne_value regular⟩

end Places

namespace Template

-- What the text assigns to is what the tags of the template name, in this order. These are places, but where a tag
-- names one of the two truth values or something else than a variable.
theorem compile_targets (template : Template) (options : Options) (loader : Loader) (shared : Names) (text : String)
    (success : (template.compile options loader shared).1 = .ok text) :
    ∃ lines, (template.draft options loader shared).1 = .ok lines ∧
      text = Line.file (template.walk options loader shared).2.scope lines ∧
      List.Forall₂ (Aim.Hits (template.walk options loader shared).2.scope)
        (Sketch.allAims options (Outline.flatten (template.outlines options loader)))
        (lines.flatMap Line.targets) := by
  obtain ⟨lines, drafted, written, same⟩ := template.written success
  exact ⟨lines, drafted, same, (written.assign trivial).imp fun aim target gives => gives.hits _⟩

-- A parameter, a variable with a call in its key, a state variable, a template, a loop around an attribute, which is
-- written for the tag and for its attributes, and a number.
def targetsOfAllKinds : Template :=
  ⟨[.tag 1 ⟨"param", [⟨.literal "name", some (.literal "p"), .zero⟩, ⟨.literal "value", some (.literal "v"), .zero⟩],
      true⟩ [] .zero,
    .tag 2 ⟨"variable",
      [⟨.literal "name", some (.expression (.var "x" [.call (.var "next" []) []])), .zero⟩,
        ⟨.literal "value", some (.literal "v"), .zero⟩], true⟩ [] .zero,
    .tag 3 ⟨"use-state", [⟨.literal "name", some (.expression (.var "s" [])), .zero⟩], true⟩ [] .zero,
    .tag 4 ⟨"template", [⟨.literal "name", some (.literal "children"), .zero⟩], false⟩ [] .zero,
    .tag 5 ⟨"p", [], false⟩
      [.tag 6 ⟨"for-each", [⟨.literal "from", some (.expression (.var "rows" [])), .zero⟩,
          ⟨.literal "key", some (.literal "k"), .zero⟩, ⟨.literal "item", some (.literal "n"), .zero⟩], false⟩
        [.tag 7 ⟨"attribute", [⟨.literal "name", some (.literal "id"), .zero⟩,
          ⟨.literal "value", some (.literal "v"), .zero⟩], true⟩ [] .zero] .zero] .zero,
    .tag 8 ⟨"variable", [⟨.literal "name", some (.expression (.num (.integer 1))), .zero⟩,
      ⟨.literal "value", some (.literal "v"), .zero⟩], true⟩ [] .zero]⟩

def namedTargets : List Expr :=
  [.var "p" [], .var "x" [.call (.var "next" []) []], .var "s" [], .var "children" [], .var "k" [], .var "n" [],
    .var "k" [], .var "n" [], .num (.integer 1)]

theorem compile_targets_ofAllKinds : ∃ text, (targetsOfAllKinds.compile .standard noParts []).1 = .ok text ∧
    ∃ lines, (targetsOfAllKinds.draft .standard noParts []).1 = .ok lines ∧
      text = Line.file (targetsOfAllKinds.walk .standard noParts []).2.scope lines ∧
      List.Forall₂ (fun e target =>
          if e.isPlace then target.IsPlace
          else ∃ lexemes, Lexeme.split (target.render (targetsOfAllKinds.walk .standard noParts []).2.scope) = some lexemes ∧
            ¬ Assignable lexemes)
        namedTargets (lines.flatMap Line.targets) := by
  have named : (Sketch.allAims .standard (Outline.flatten (targetsOfAllKinds.outlines .standard noParts))).map Aim.expr =
      namedTargets := rfl
  have regular : ∀ e ∈ namedTargets, e.isPlace = false → e.Regular := by
    simp [namedTargets, Expr.isPlace, Expr.Regular.num]
  have compiled : (targetsOfAllKinds.compile .standard noParts []).1.isOk = true := by decide +kernel
  obtain ⟨text, success⟩ := exists_text compiled
  obtain ⟨lines, drafted, same, hits⟩ := targetsOfAllKinds.compile_targets .standard noParts [] text success
  refine ⟨text, success, lines, drafted, same, ?_⟩
  rw [← named, List.forall_mem_map] at regular
  rw [← named, List.forall₂_map_left_iff]
  refine ((List.forall₂_and_left _ _).mpr ⟨regular, hits⟩).imp fun aim target hit => ?_
  split
  · rename_i placed
    exact hit.2.placed placed
  · rename_i other
    obtain ⟨lexemes, read, assignable⟩ := hit.2.assignable (hit.1 (Bool.eq_false_iff.mpr other))
    exact ⟨lexemes, read, fun own => other (assignable.mp own)⟩

-- Fixed text names the variable, but not if it is one of the two truth values.
def truthTarget : Template :=
  ⟨[.tag 1 ⟨"variable", [⟨.literal "name", some (.literal "true"), .zero⟩,
    ⟨.literal "value", some (.literal "v"), .zero⟩], true⟩ [] .zero]⟩

theorem truthTarget_assigns_to_truth :
    (truthTarget.compile .standard noParts []).1 = .ok (Output.opening ++ "<?php true = \"v\"; ?>\n" ++ Output.closing) ∧
      Lexeme.split "true" = some ["true"] ∧ ¬ Assignable ["true"] := by
  have compiled : (truthTarget.compile .standard noParts []).1.toOption =
      some (Output.opening ++ "<?php true = \"v\"; ?>\n" ++ Output.closing) := by decide +kernel
  exact ⟨compile_of_toOption compiled, by decide +kernel, Lexeme.not_assignable_of_begins (by decide) []⟩

end Template

end Stencil
