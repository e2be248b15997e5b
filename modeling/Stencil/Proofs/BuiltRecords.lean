import Stencil.Proofs.Building
import Stencil.Proofs.WellFormed

-- Compiled code builds the records that the template denotes.

namespace Stencil

section Fragments

variable {truth : String → Bool} {scope : Scope} {component : String → Bool} {bound : Nat} {file : Path} {attrsOf : Nat}

theorem Sketch.copies_text (shift : Nat) {nodes : List Node} (text : nodes.all Node.isText = true) :
    copies (ofNodes shift nodes) = [] := by
  induction nodes with
  | nil => rfl
  | cons first rest ih =>
    rw [List.all_cons, Bool.and_eq_true] at text
    cases first with
    | tag identity own children location => cases text.1
    | leaf identity value location => exact ih text.2

-- Nodes that leave nothing in a fragment assign nothing.
theorem Node.assigned_nil {shift : Nat} {nodes : List Node} (basic : allBasic component nodes = true)
    (empty : Sketch.copies (Sketch.ofNodes shift nodes) = []) :
    (resolveAll truth scope nodes).filterMap assignment? = [] := by
  induction nodes with
  | nil => simp [resolveAll]
  | cons first rest ih =>
    obtain ⟨here, later⟩ := Bool.and_eq_true_iff.mp basic
    obtain ⟨none, nothing⟩ := List.append_eq_nil_iff.mp empty
    rw [resolveAll, List.filterMap_append, ih later nothing, List.append_nil]
    cases first with
    | leaf identity value location => simp [resolve, assignment?]
    | tag identity own children location =>
      rw [Sketch.ofNode, Sketch.copy] at none
      unfold isBasic at here
      rw [resolve]
      cases kind : TagKind.ofName? own.name with
      | none => simp [assignment?, kind]
      | some found =>
        simp only [kind] at none here
        cases found with
        | attr flow => cases flow <;> simp at none here
        | control control flow => cases flow <;> cases control <;> simp at none here
        | _ => cases here

mutual

-- What a basic node leaves in a fragment assigns the attributes that it has once its tests are decided.
theorem Node.isBasic.applied (shift : Nat) : ∀ (node : Node) (around : Option Switch), node.isBasic component = true →
    Builds truth scope component bound (Draft.allApplied file attrsOf (Sketch.copy (Sketch.ofNode shift node))) around
      (.attrs attrsOf) ((node.resolve truth scope).filterMap Node.assignment?)
  | .leaf _ _ _, _, _ => by rw [Node.resolve]; exact .nil
  | .tag identity own children location, around, basic => by
    rw [Sketch.ofNode, Sketch.copy, Node.resolve]
    unfold Node.isBasic at basic
    cases kind : TagKind.ofName? own.name with
    | none =>
      simp only [kind, List.filterMap_cons, Node.assignment?, reduceCtorEq, if_false, List.filterMap_nil]
      exact .nil
    | some found =>
      simp only [kind] at basic
      cases found with
      | attr flow =>
        cases flow with
        | applied => cases basic
        | content =>
          simp only [kind, Draft.allApplied_singleton, Draft.applied, TagKind.ofName?_applied_attr kind,
            List.filterMap_cons, Node.assignment?, if_true, List.filterMap_nil]
          obtain ⟨assignment, fixed⟩ := Option.isSome_iff_exists.mp basic
          rw [fixed]
          exact .appliedAttr fixed
      | control control flow =>
        cases flow with
        | applied => cases control <;> cases basic
        | content =>
          simp only [Draft.allApplied_singleton, Draft.applied, TagKind.ofName?_applied_control kind]
          cases control with
          | conditional =>
            rw [apply_ite (List.filterMap Node.assignment?)]
            exact (Node.allBasic.applied shift children none basic).conditional fun empty =>
              Node.assigned_nil basic (List.isEmpty_iff.mp empty)
          | switch =>
            have chosen : ((Node.choose? truth scope children).getD []).filterMap Node.assignment? =
                ((Node.choose? truth scope children).map (·.filterMap Node.assignment?)).getD [] := by
              cases Node.choose? truth scope children <;> rfl
            rw [chosen]
            exact (Node.areBranches.applied shift children Switches.fresh basic).switch
          | loop => cases basic
          | case => cases basic
          | default => cases basic
      | _ => cases basic

theorem Node.allBasic.applied (shift : Nat) : ∀ (nodes : List Node) (around : Option Switch),
    Node.allBasic component nodes = true →
    Builds truth scope component bound (Draft.allApplied file attrsOf (Sketch.copies (Sketch.ofNodes shift nodes))) around
      (.attrs attrsOf) ((Node.resolveAll truth scope nodes).filterMap Node.assignment?)
  | [], _, _ => by rw [Node.resolveAll]; exact .nil
  | first :: rest, around, basic => by
    obtain ⟨here, later⟩ := Bool.and_eq_true_iff.mp basic
    rw [Sketch.ofNodes, Sketch.copies, Draft.allApplied_append, Node.resolveAll, List.filterMap_append]
    exact (Node.isBasic.applied shift first around here).append (Node.allBasic.applied shift rest around later)

theorem Node.areBranches.applied (shift : Nat) : ∀ (nodes : List Node) (state : Switch),
    Node.areBranches component nodes = true →
    Branches truth scope component bound (Draft.allApplied file attrsOf (Sketch.copies (Sketch.ofNodes shift nodes)))
      state (.attrs attrsOf) ((Node.choose? truth scope nodes).map (·.filterMap Node.assignment?))
  | [], _, _ => by rw [Node.choose?]; exact .nil
  | .leaf _ value _ :: rest, state, branches => by
    rw [Node.choose?]
    cases value with
    | text => exact Node.areBranches.applied shift rest state branches
    | _ => cases branches
  | .tag identity own children location :: rest, state, branches => by
    rw [Sketch.ofNodes, Sketch.copies, Draft.allApplied_append, Sketch.ofNode, Sketch.copy, Node.choose?]
    unfold Node.areBranches at branches
    cases kind : TagKind.ofName? own.name with
    | none => simp [kind] at branches
    | some found =>
      simp only [kind] at branches
      cases found with
      | control control flow =>
        cases flow with
        | applied => cases control <;> cases branches
        | content =>
          simp only [Draft.allApplied_singleton, Draft.applied, TagKind.ofName?_applied_control kind, Draft.control]
          cases control with
          | case =>
            obtain ⟨here, later⟩ := Bool.and_eq_true_iff.mp branches
            rw [apply_ite (Option.map _)]
            exact .cons_case (Node.allBasic.applied shift children none here) fun state _ =>
              Node.areBranches.applied shift rest state later
          | default =>
            obtain ⟨here, text⟩ := Bool.and_eq_true_iff.mp branches
            simp only [Sketch.copies_text shift text, Draft.allApplied, pure_bind, List.append_nil, bind_pure]
            exact (Node.allBasic.applied shift children none here).default
          | conditional => cases branches
          | loop => cases branches
          | switch => cases branches
      | _ => cases branches

end

end Fragments

section Content

variable {truth : String → Bool} {scope : Scope} {component : String → Bool} {options : Options} {file : Path} {sink : Nat}
  {kept : Nat → Prop} {bound : Nat}

theorem Builds.leaf {identity : UInt32} {value : Leaf} {location : Location} (known : Nat)
    (basic : (Node.leaf identity value location).isBasic component = true) :
    Builds truth scope component bound (Draft.leaf file sink known location value) none (.records sink kept bound)
      (Node.records options (.leaf identity value location)) := by
  cases value with
  | text value =>
    refine Yields.look fun l _ here => ?_
    rw [here]
    exact Yields.pure ⟨rfl, .field "text" value⟩
  | comment value => exact Yields.pure ⟨rfl, .field "comment" value⟩
  | string value => exact Yields.pure ⟨rfl, .field "text" value⟩
  | slot e => cases basic
  | block e => cases basic
  | script attrs body =>
    refine Yields.fragment fun attrsOf fresh => ?_
    have nothing : Builds truth scope component (attrsOf + 1) (Draft.allApplied file attrsOf []) none (.attrs attrsOf) [] := .nil
    refine (nothing.attrBlock location basic).bind ?_
    rintro _ _ ⟨rfl, lines, rfl, emits⟩
    refine Yields.pure ⟨rfl, emits.attributed fresh rfl fun memory built => ?_⟩
    simp [Line.effect?, built]

-- A tag that stands for itself, given what its children build and what they leave in its fragment.
theorem Builds.literal {h : Header} {below : List Sketch} {body : Draft (List Line)} {children : List Record}
    {assigned : List (String × AttrValue)} {around : Option Switch}
    (inner : ∀ attrsOf, bound ≤ attrsOf → Builds truth scope component (attrsOf + 1) body none
      (.records h.identity (fun other => kept other ∨ other = sink) (attrsOf + 1)) children)
    (copied : ∀ attrsOf, Builds truth scope component (attrsOf + 1) (Draft.allApplied file attrsOf below) none
      (.attrs attrsOf) assigned)
    (fixed : h.tag.attrs.all (fun attr => attr.assignment?.isSome) = true) (apart : h.identity ≠ sink)
    (free : ¬kept h.identity) :
    Builds truth scope component bound (Draft.literal file options sink h below body) around (.records sink kept bound)
      [.tag h.tag.name
        (.settled ((if h.tag.selfClosing then [] else assigned) ++ h.tag.attrs.filterMap Attr.assignment?))
        (if Walk.isSingle options h.tag then none else some children)] := by
  unfold Draft.literal Draft.tagParts
  rw [bind_assoc]
  refine Yields.fragment fun attrsOf fresh => ?_
  cases closed : h.tag.selfClosing with
  | true =>
    have single : Walk.isSingle options h.tag = true := by simp [Walk.isSingle, closed]
    have nothing : Builds truth scope component (attrsOf + 1) (Draft.allApplied file attrsOf []) none (.attrs attrsOf) [] := .nil
    simp only [if_true, bind_assoc, pure_bind, single]
    refine (nothing.attrBlock h.location fixed).bind ?_
    rintro _ _ ⟨rfl, lines, rfl, emits⟩
    refine Yields.pure ⟨rfl, emits.attributed fresh rfl fun memory built => ?_⟩
    simp [Line.effect?, built]
  | false =>
    simp only [Bool.false_eq_true, if_false, bind_assoc, pure_bind]
    refine ((inner attrsOf fresh).within none).bind ?_
    rintro content _ ⟨rfl, filled⟩
    refine ((copied attrsOf).attrBlock h.location fixed).bind ?_
    rintro _ _ ⟨rfl, lines, rfl, emits⟩
    cases Walk.isSingle options h.tag with
    | true =>
      refine Yields.pure ⟨rfl, emits.attributed fresh rfl fun memory built => ?_⟩
      simp [Line.effect?, built]
    | false => exact Yields.pure ⟨rfl, emits.tagRecord fresh h.tag.name filled apart free⟩

theorem shifted_zero (identity : UInt32) : shifted 0 identity = identity.toNat := by
  have bounded : identity.toNat < 4294967296 := identity.toNat_lt
  have limit : identityLimit = 4294967295 := rfl
  rw [shifted, limit]
  omega

-- Nodes with identities of their own, apart from the list that they go to and from those that are kept.
structure Apart (sink : Nat) (kept : Nat → Prop) (identities : List Nat) : Prop where
  distinct : identities.Nodup
  elsewhere : ∀ identity ∈ identities, identity ≠ sink ∧ ¬kept identity

namespace Apart

theorem left {front back : List Nat} (apart : Apart sink kept (front ++ back)) : Apart sink kept front :=
  ⟨(List.nodup_append.mp apart.distinct).1, fun identity member => apart.elsewhere identity (List.mem_append_left _ member)⟩

theorem right {front back : List Nat} (apart : Apart sink kept (front ++ back)) : Apart sink kept back :=
  ⟨(List.nodup_append.mp apart.distinct).2.1,
    fun identity member => apart.elsewhere identity (List.mem_append_right _ member)⟩

theorem tail {identity : Nat} {rest : List Nat} (apart : Apart sink kept (identity :: rest)) : Apart sink kept rest := by
  have split : Apart sink kept ([identity] ++ rest) := apart
  exact split.right

-- Below a tag, the list around the tag is kept too.
theorem below {identity : Nat} {rest : List Nat} (apart : Apart sink kept (identity :: rest)) :
    Apart identity (fun other => kept other ∨ other = sink) rest where
  distinct := apart.tail.distinct
  elsewhere other member := by
    obtain ⟨outside, free⟩ := apart.tail.elsewhere other member
    refine ⟨?_, fun either => either.elim free outside⟩
    rintro rfl
    exact (List.nodup_cons.mp apart.distinct).1 member

end Apart

variable {fault : Path → Fault} {stack : Stack}

-- Text in a switch is blank and writes nothing, or it is refused.
theorem Yields.blank {location : Location} {state : Switch} (identity : Nat) (value : String) :
    Yields component bound (Draft.leaf file sink identity location (.text value)) (some state)
      fun lines after => lines = [] ∧ after = some state := by
  refine Yields.look fun l _ here => ?_
  rw [here]
  cases blank : Text.isAllBlank value with
  | true =>
    simp only [Option.isSome_some, if_true]
    exact Yields.pure ⟨rfl, rfl⟩
  | false =>
    simp only [Option.isSome_some, if_true, Bool.false_eq_true, if_false]
    exact Yields.fail _ _

theorem Yields.blanks {owned : Bool} {state : Switch} (nodes : List Node) (text : nodes.all Node.isText = true) :
    Yields component bound (Draft.outlines options fault stack owned sink (Outline.ofNodes 0 nodes)) (some state)
      fun lines after => lines = [] ∧ after = some state := by
  induction nodes with
  | nil => exact Yields.pure ⟨rfl, rfl⟩
  | cons first rest ih =>
    rw [List.all_cons, Bool.and_eq_true] at text
    cases first with
    | tag identity own children location => cases text.1
    | leaf identity value location =>
      cases value with
      | text value =>
        refine (Yields.blank (shifted 0 identity) value).bind ?_
        rintro _ _ ⟨rfl, rfl⟩
        refine (ih text.2).bind ?_
        rintro _ _ ⟨rfl, rfl⟩
        exact Yields.pure ⟨rfl, rfl⟩
      | _ => cases text.1

mutual

-- The content of a basic node appends its records.
theorem Node.isBasic.built : ∀ (node : Node) (owned : Bool) (sink : Nat) (kept : Nat → Prop) (bound : Nat),
    node.isBasic component = true → Apart sink kept node.identities →
    Builds truth scope component bound (Draft.outline options fault stack owned sink (Outline.ofNode 0 node)) none
      (.records sink kept bound) (Node.allRecords options (node.resolve truth scope))
  | .leaf identity value location, owned, sink, kept, bound, basic, _ => by
    rw [Node.resolve, Node.allRecords, Node.allRecords, List.append_nil]
    exact .leaf _ basic
  | .tag identity own children location, owned, sink, kept, bound, basic, apart => by
    rw [Outline.ofNode, Draft.outline, Outline.flatten_ofNodes, Node.resolve]
    refine Yields.look fun l within _ => ?_
    have childless : (Sketch.ofNodes 0 children).isEmpty = true →
        Node.allRecords options (Node.resolveAll truth scope children) = [] := by
      rw [Sketch.isEmpty_ofNodes, List.isEmpty_iff]
      rintro rfl
      rw [Node.resolveAll, Node.allRecords]
    unfold Node.isBasic at basic
    cases kind : TagKind.ofName? own.name with
    | none =>
      simp only [kind, Bool.and_eq_true, Bool.not_eq_true'] at basic
      obtain ⟨⟨unknown, fixed⟩, basic⟩ := basic
      have outside := apart.elsewhere identity.toNat List.mem_cons_self
      simp only [TagKind.classify, kind, within.registered, unknown, Bool.false_eq_true, if_false, shifted_zero,
        Node.allRecords, Node.records, List.append_nil]
      exact Builds.literal (fun attrsOf _ => Node.allBasic.built children true _ _ _ basic apart.below)
        (fun attrsOf => Node.allBasic.applied 0 children none basic) fixed outside.1 outside.2
    | some found =>
      simp only [kind] at basic
      simp only [TagKind.classify, kind]
      cases found with
      | attr flow =>
        cases flow with
        | applied => cases basic
        | content =>
          simp only [Node.allRecords, Node.records, kind, List.append_nil]
          refine Yields.require fun _ _ => Yields.require fun _ _ => ?_
          cases owned with
          | true => exact Builds.nil
          | false => exact Yields.fail _ _
      | control control flow =>
        cases flow with
        | applied => cases control <;> cases basic
        | content =>
          cases control with
          | conditional =>
            have nothing : Node.allRecords options [] = [] := by rw [Node.allRecords]
            simp only [apply_ite (Node.allRecords options), nothing]
            exact Builds.conditional (Node.allBasic.built children owned sink kept bound basic apart.tail) childless
          | switch =>
            have chosen : Node.allRecords options ((Node.choose? truth scope children).getD []) =
                ((Node.choose? truth scope children).map (Node.allRecords options)).getD [] := by
              cases Node.choose? truth scope children <;> simp [Node.allRecords]
            simp only [chosen]
            exact (Node.areBranches.built children owned sink kept bound Switches.fresh basic apart.tail).switch
          | loop => cases basic
          | case => cases basic
          | default => cases basic
      | _ => cases basic

theorem Node.allBasic.built : ∀ (nodes : List Node) (owned : Bool) (sink : Nat) (kept : Nat → Prop) (bound : Nat),
    Node.allBasic component nodes = true → Apart sink kept (Node.allIdentities nodes) →
    Builds truth scope component bound (Draft.outlines options fault stack owned sink (Outline.ofNodes 0 nodes)) none
      (.records sink kept bound) (Node.allRecords options (Node.resolveAll truth scope nodes))
  | [], _, _, _, _, _, _ => by rw [Node.resolveAll]; exact .nil
  | first :: rest, owned, sink, kept, bound, basic, apart => by
    obtain ⟨here, later⟩ := Bool.and_eq_true_iff.mp basic
    rw [Node.resolveAll, Node.allRecords_append]
    exact (Node.isBasic.built first owned sink kept bound here apart.left).append
      (Node.allBasic.built rest owned sink kept bound later apart.right)

theorem Node.areBranches.built : ∀ (nodes : List Node) (owned : Bool) (sink : Nat) (kept : Nat → Prop) (bound : Nat)
    (state : Switch), Node.areBranches component nodes = true → Apart sink kept (Node.allIdentities nodes) →
    Branches truth scope component bound (Draft.outlines options fault stack owned sink (Outline.ofNodes 0 nodes)) state
      (.records sink kept bound) ((Node.choose? truth scope nodes).map (Node.allRecords options))
  | [], _, _, _, _, _, _, _ => by rw [Node.choose?]; exact .nil
  | .leaf identity value _ :: rest, owned, sink, kept, bound, state, branches, apart => by
    rw [Node.choose?]
    cases value with
    | text value =>
      refine (Yields.blank (shifted 0 identity) value).bind ?_
      rintro _ _ ⟨rfl, rfl⟩
      simp only [List.nil_append, bind_pure]
      exact Node.areBranches.built rest owned sink kept bound state branches apart.right
    | _ => cases branches
  | .tag identity own children location :: rest, owned, sink, kept, bound, state, branches, apart => by
    rw [Outline.ofNodes, Draft.outlines, Outline.ofNode, Draft.outline, Outline.flatten_ofNodes, Node.choose?]
    unfold Node.areBranches at branches
    cases kind : TagKind.ofName? own.name with
    | none => simp [kind] at branches
    | some found =>
      simp only [kind] at branches
      simp only [Draft.tag, TagKind.classify, kind, Draft.get_bind]
      cases found with
      | control control flow =>
        cases flow with
        | applied => cases control <;> cases branches
        | content =>
          have below : Apart sink kept (Node.allIdentities children) := apart.left.tail
          cases control with
          | case =>
            obtain ⟨here, later⟩ := Bool.and_eq_true_iff.mp branches
            rw [apply_ite (Option.map _)]
            exact .cons_case (Node.allBasic.built children owned sink kept bound here below) fun state _ =>
              Node.areBranches.built rest owned sink kept bound state later apart.right
          | default =>
            obtain ⟨here, text⟩ := Bool.and_eq_true_iff.mp branches
            refine Yields.bind (Node.allBasic.built children owned sink kept bound here below).default ?_
            rintro lines _ ⟨state', rfl, serves⟩
            refine (Yields.blanks rest text).bind ?_
            rintro _ _ ⟨rfl, rfl⟩
            rw [List.append_nil]
            exact Yields.pure ⟨state', rfl, serves⟩
          | conditional => cases branches
          | loop => cases branches
          | switch => cases branches
      | _ => cases branches

end

end Content

namespace Outline

variable {component : String → Bool} {reach : Path → Option (Template × Expander)} {stack : Stack} {shift : Nat}

mutual

theorem expand_basic (known : Nat) : ∀ (node : Node), node.isBasic component = true →
    expand reach stack shift known node = (ofNode shift node, known)
  | .leaf _ _ _, _ => rfl
  | .tag _ own children _, basic => by
    unfold Node.isBasic at basic
    split at basic
    · rename_i kind
      exact expand_tag (by simp [kind]) fun _ => expandAll_basic known children (Bool.and_eq_true_iff.mp basic).2
    · rename_i kind
      exact expand_tag (by simp [kind]) fun entered => by simp [Tag.isEntered, kind] at entered
    · rename_i kind
      exact expand_tag (by simp [kind]) fun _ => expandAll_basic known children basic
    · rename_i kind
      exact expand_tag (by simp [kind]) fun _ => expandAll_branches known children basic
    · cases basic

theorem expandAll_basic (known : Nat) : ∀ (nodes : List Node), Node.allBasic component nodes = true →
    expandAll reach stack shift known nodes = (ofNodes shift nodes, known)
  | [], _ => rfl
  | first :: rest, basic => by
    obtain ⟨here, later⟩ := Bool.and_eq_true_iff.mp basic
    rw [expandAll, expand_basic known first here, expandAll_basic known rest later, ofNodes]

theorem expandAll_branches (known : Nat) : ∀ (nodes : List Node), Node.areBranches component nodes = true →
    expandAll reach stack shift known nodes = (ofNodes shift nodes, known)
  | [], _ => rfl
  | .leaf _ value _ :: rest, branches => by
    cases value with
    | text => rw [expandAll, expand, expandAll_branches known rest branches, ofNodes, ofNode]
    | _ => cases branches
  | .tag _ own children _ :: rest, branches => by
    unfold Node.areBranches at branches
    split at branches
    · rename_i kind
      obtain ⟨here, later⟩ := Bool.and_eq_true_iff.mp branches
      rw [expandAll, expand_tag (by simp [kind]) fun _ => expandAll_basic known children here,
        expandAll_branches known rest later, ofNodes]
    · rename_i kind
      obtain ⟨here, text⟩ := Bool.and_eq_true_iff.mp branches
      rw [expandAll, expand_tag (by simp [kind]) fun _ => expandAll_basic known children here,
        expandAll_branches known rest (Node.areBranches_of_text text), ofNodes]
    · cases branches

end

end Outline

-- Lines that append records to the list of the closure make it return them.
theorem Emits.execute {truth : String → Bool} {scope : Scope} {kept : Nat → Prop} {bound : Nat} {lines : List Line}
    {records : List Record} (emits : Emits truth scope (.records Output.rootSink kept bound) lines records) :
    Line.execute truth scope lines = some records := by
  obtain ⟨memory, ran, _, _, known, found, filled⟩ := emits.written
    ⟨fun identity => if identity = Output.rootSink then some [] else none, fun _ => none⟩ ⟨[], by simp⟩
  obtain rfl : known = [] := by simpa using found.symm
  have ended := ran [] rfl
  simp [Line.execute, ended, filled]

namespace Template

theorem outlines_basic {component : String → Bool} {template : Template} (options : Options) (loader : Loader)
    (basic : Node.allBasic component template.nodes = true) :
    template.outlines options loader = Outline.ofNodes 0 template.nodes := by
  unfold outlines
  cases loader.templates.length <;> rw [Outline.expander, Outline.expandAll_basic _ _ basic]

-- The code of a basic template is that of the lines drafted for it. Whatever tests hold, running them gives the records
-- that the template denotes once its tests are decided.
theorem compile_builds (template : Template) (options : Options) (loader : Loader) (shared : Names) (text : String)
    (basic : Node.allBasic ((Registry.create options.registryScope).contains shared) template.nodes = true)
    (distinct : (Node.allIdentities template.nodes).Nodup) (nonzero : 0 ∉ Node.allIdentities template.nodes)
    (compiled : (template.compile options loader shared).1 = .ok text) :
    ∃ lines, (template.draft options loader shared).1 = .ok lines ∧ text = Line.file .empty lines ∧
      ∀ truth, Line.execute truth .empty lines =
        some (Node.allRecords options (Node.resolveAll truth .empty template.nodes)) := by
  have apart : Apart Output.rootSink (fun _ => False) (Node.allIdentities template.nodes) := by
    refine ⟨distinct, fun identity member => ⟨?_, id⟩⟩
    rintro rfl
    exact nonzero member
  have built (truth : String → Bool) : Builds truth .empty ((Registry.create options.registryScope).contains shared) 1
      (Draft.outlines options loader.fault ⟨(Path.ofText options.filePath).normalize, []⟩ false Output.rootSink
        (Outline.ofNodes 0 template.nodes)) none (.records Output.rootSink (fun _ => False) 1)
      (Node.allRecords options (Node.resolveAll truth .empty template.nodes)) :=
    Node.allBasic.built template.nodes false Output.rootSink _ 1 basic apart
  replace built truth := built truth (.start options shared) ⟨rfl, fun _ => rfl, Nat.le_refl _⟩ rfl
  rw [compile_eq_draft, draft, outlines_basic options loader basic] at compiled
  rw [draft, outlines_basic options loader basic]
  revert built compiled
  rcases (Draft.outlines options loader.fault ⟨(Path.ofText options.filePath).normalize, []⟩ false Output.rootSink
    (Outline.ofNodes 0 template.nodes)).run.run (.start options shared) with ⟨_ | lines, l⟩
  · intro compiled
    cases compiled
  · intro compiled built
    have unscoped : l.scope = .empty := (built fun _ => true).1.scope
    refine ⟨lines, rfl, ?_, fun truth => (built truth).2.2.execute⟩
    rw [← unscoped, Line.file_eq]
    exact (Except.ok.inj compiled).symm

-- With all tests true, and with all of them false.
theorem compile_builds_conditionalClass : ∃ text lines,
    ((conditionalClass (.literal "wide")).compile .standard noParts []).1 = .ok text ∧
    ((conditionalClass (.literal "wide")).draft .standard noParts []).1 = .ok lines ∧ text = Line.file .empty lines ∧
    Line.execute (fun _ => true) .empty lines =
      some [.tag "article" [("class", .text "wide"), ("hidden", .flag)] (some [.field "text" "brief"])] ∧
    Line.execute (fun _ => false) .empty lines =
      some [.tag "article" [("hidden", .flag)] (some [.tag "hr" [] none])] := by
  have compiled : ((conditionalClass (.literal "wide")).compile .standard noParts []).1.isOk = true := by decide +kernel
  cases outcome : ((conditionalClass (.literal "wide")).compile .standard noParts []).1 with
  | error e =>
    rw [outcome] at compiled
    cases compiled
  | ok text =>
    obtain ⟨lines, drafted, written, executed⟩ := compile_builds (conditionalClass (.literal "wide")) .standard noParts [] text
      (by decide +kernel) (by decide +kernel) (by decide +kernel) outcome
    exact ⟨text, lines, rfl, drafted, written, executed fun _ => true, executed fun _ => false⟩

end Template

end Stencil
