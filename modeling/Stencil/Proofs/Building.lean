import Stencil.Proofs.Denotation
import Stencil.Proofs.Refinement

-- Generated code builds the records that its template denotes. The lines of some content append its records to one
-- list and leave the lists of the tags around it alone; the lines of a fragment assign the attributes of one tag, and
-- they follow the same control flow as the content.

namespace Stencil

namespace Channel

-- The attributes of a tag. Nothing else changes.
def attrs (attrsOf : Nat) : Channel (String × AttrValue) where
  ready memory := ∃ known, memory.attrs attrsOf = some known
  writes assigned memory memory' := memory'.children = memory.children ∧
    (∀ other, other ≠ attrsOf → memory'.attrs other = memory.attrs other) ∧
    ∃ known, memory.attrs attrsOf = some known ∧ memory'.attrs attrsOf = some (assigned.foldl Attributes.set known)
  nothing := fun ⟨known, found⟩ => ⟨rfl, fun _ _ => rfl, known, found, found⟩
  append := by
    rintro front back memory memory' memory'' ⟨lists, others, known, found, left⟩ ⟨lists', others', known', found', left'⟩
    obtain rfl : front.foldl Attributes.set known = known' := Option.some.inj (left.symm.trans found')
    refine ⟨lists'.trans lists, fun other apart => (others' other apart).trans (others other apart), known, found, ?_⟩
    rw [left', List.foldl_append]
  stays := fun ⟨_, _, _, _, left⟩ => ⟨_, left⟩

-- The list of records that some content goes to. The lists of kept tags and the attributes below bound stay as they
-- are.
def records (sink : Nat) (kept : Nat → Prop) (bound : Nat) : Channel Record where
  ready memory := ∃ known, memory.children sink = some known
  writes added memory memory' := (∀ other, kept other → other ≠ sink → memory'.children other = memory.children other) ∧
    (∀ other, other < bound → memory'.attrs other = memory.attrs other) ∧
    ∃ known, memory.children sink = some known ∧ memory'.children sink = some (known ++ added)
  nothing := fun ⟨known, found⟩ => ⟨fun _ _ _ => rfl, fun _ _ => rfl, known, found, by rw [found, List.append_nil]⟩
  append := by
    rintro front back memory memory' memory'' ⟨lists, attrs, known, found, left⟩ ⟨lists', attrs', known', found', left'⟩
    obtain rfl : known ++ front = known' := Option.some.inj (left.symm.trans found')
    refine ⟨fun other keep apart => (lists' other keep apart).trans (lists other keep apart),
      fun other below => (attrs' other below).trans (attrs other below), known, found, ?_⟩
    rw [left', List.append_assoc]
  stays := fun ⟨_, _, _, _, left⟩ => ⟨_, left⟩

end Channel

namespace Emits

variable {truth : String → Bool} {scope : Scope} {attrsOf sink : Nat} {kept : Nat → Prop} {bound : Nat}
  {lines : List Line} {assigned : List (String × AttrValue)}

theorem assignAttr (name : String) {operand : Operand} {value : AttrValue} (fixed : operand.fixed? = some value) :
    Emits truth scope (.attrs attrsOf) [.assignAttr attrsOf (.text name) operand] [(name, value)] := by
  refine line rfl fun memory ⟨known, found⟩ => ⟨memory.setAttrs attrsOf (known.set (name, value)), ?_, rfl, ?_, ?_⟩
  · simp [Line.effect?, found, fixed]
  · intro other apart
    simp [apart]
  · exact ⟨known, found, by simp⟩

theorem field (key text : String) :
    Emits truth scope (.records sink kept bound) [.record sink key text] [.field key text] := by
  refine line rfl fun memory ⟨known, found⟩ =>
    ⟨memory.setChildren sink (known ++ [.field key text]), ?_, ?_, fun _ _ => rfl, known, found, by simp⟩
  · simp [Line.effect?, Memory.append, found]
  · intro other _ apart
    simp [apart]

-- The lines for the attributes of a tag set them and nothing else, wherever they are run.
theorem attrBlock (body : Emits truth scope (.attrs attrsOf) lines assigned) (memory : Memory) :
    ∃ memory', Runs truth scope (.resetAttrs attrsOf :: lines) memory memory' ∧ memory'.children = memory.children ∧
      (∀ other, other ≠ attrsOf → memory'.attrs other = memory.attrs other) ∧
      memory'.attrs attrsOf = some (.settled assigned) := by
  obtain ⟨memory', ran, lists, others, known, found, left⟩ :=
    body.written (memory.setAttrs attrsOf []) ⟨[], by simp⟩
  have reset : Runs truth scope [.resetAttrs attrsOf] memory (memory.setAttrs attrsOf []) := .line rfl rfl
  obtain rfl : known = [] := by simpa using found.symm
  refine ⟨memory', reset.append ran, lists, fun other apart => ?_, ?_⟩
  · rw [others other apart]
    simp [apart]
  · rw [left, Attributes.foldl_set]

theorem skipped_attrBlock (body : Emits truth scope (.attrs attrsOf) lines assigned) :
    Skipped truth scope (.resetAttrs attrsOf :: lines) := by
  have reset : Skipped truth scope [.resetAttrs attrsOf] := .line rfl
  exact reset.append body.skipped

-- A record that takes in the attributes that were built for it.
theorem attributed (body : Emits truth scope (.attrs attrsOf) lines assigned) (fresh : bound ≤ attrsOf) {last : Line}
    {record : Record} (plain : last.isBranch = false)
    (effect : ∀ memory : Memory, memory.attrs attrsOf = some (.settled assigned) →
      last.effect? memory = memory.append sink record) :
    Emits truth scope (.records sink kept bound) (.resetAttrs attrsOf :: lines ++ [last]) [record] := by
  refine ⟨body.skipped_attrBlock.append (.line plain), fun memory ⟨known, found⟩ => ?_⟩
  obtain ⟨middle, ran, lists, others, built⟩ := body.attrBlock memory
  have appended : middle.append sink record = some (middle.setChildren sink (known ++ [record])) := by
    simp [Memory.append, lists, found]
  refine ⟨_, ran.append (.line plain ((effect middle built).trans appended)), fun other _ apart => ?_, fun other below => ?_,
    known, found, by simp⟩
  · simp [apart, lists]
  · exact others other (Nat.ne_of_lt (Nat.lt_of_lt_of_le below fresh))

-- A tag with a list of children, which is built while the attributes wait.
theorem tagRecord (body : Emits truth scope (.attrs attrsOf) lines assigned) (fresh : bound ≤ attrsOf) {identity : Nat}
    {content : List Line} {children : List Record} (name : String)
    (inner : Emits truth scope (.records identity (fun other => kept other ∨ other = sink) (attrsOf + 1)) content children)
    (apart : identity ≠ sink) (free : ¬kept identity) :
    Emits truth scope (.records sink kept bound)
      (.resetAttrs attrsOf :: lines ++ .resetChildren identity :: content ++ [.tagRecord sink attrsOf name (some identity)])
      [.tag name (.settled assigned) (some children)] := by
  have reset : Skipped truth scope [.resetChildren identity] := .line rfl
  refine ⟨(body.skipped_attrBlock.append (reset.append inner.skipped)).append (.line rfl), fun memory ⟨known, found⟩ => ?_⟩
  obtain ⟨first, ran, lists, others, built⟩ := body.attrBlock memory
  have emptied : Runs truth scope [.resetChildren identity] first (first.setChildren identity []) := .line rfl rfl
  obtain ⟨second, ran', lists', others', start, none, filled⟩ :=
    inner.written (first.setChildren identity []) ⟨[], by simp⟩
  obtain rfl : start = [] := by simpa using none.symm
  -- The list around the tag and the attributes are as they were before the children.
  have around : second.children sink = some known := by
    rw [lists' sink (.inr rfl) apart.symm]
    simp [apart.symm, lists, found]
  have waiting : second.attrs attrsOf = some (.settled assigned) := by
    rw [others' attrsOf (Nat.lt_succ_self _)]
    simpa using built
  refine ⟨second.setChildren sink (known ++ [.tag name (.settled assigned) (some children)]),
    (ran.append (emptied.append ran')).append (.line rfl ?_), fun other keep elsewhere => ?_, fun other below => ?_,
    known, found, by simp⟩
  · simp [Line.effect?, Memory.append, waiting, filled, around]
  · have outside : other ≠ identity := fun equal => free (equal ▸ keep)
    rw [Memory.children_setChildren, if_neg elsewhere, lists' other (.inl keep) outside]
    simp [outside, lists]
  · rw [Memory.attrs_setChildren, others' other (Nat.lt_of_lt_of_le below (Nat.le_succ_of_le fresh))]
    exact others other (Nat.ne_of_lt (Nat.lt_of_lt_of_le below fresh))

end Emits

-- What does not change while a basic template is drafted, and how far its fragments are numbered.
structure Ledger.Within (component : String → Bool) (bound : Nat) (l : Ledger) : Prop where
  scope : l.scope = .empty
  registered : ∀ name, l.registry.contains l.shared name = component name
  bounded : bound ≤ l.nextFragment

-- If a draft succeeds, then its result is right, together with what it leaves around the next node.
def Yields {α : Type} (component : String → Bool) (bound : Nat) (draft : Draft α) (around : Option Switch)
    (right : α → Option Switch → Prop) : Prop :=
  ∀ l : Ledger, l.Within component bound → l.branch = around → match draft.run.run l with
    | (.ok a, l') => l'.Within component bound ∧ right a l'.branch
    | (.error _, _) => True

namespace Yields

variable {component : String → Bool} {bound : Nat} {α β : Type} {around branch : Option Switch} {file : Path} {h : Header}
  {right : α → Option Switch → Prop} {goal : β → Option Switch → Prop}

theorem pure {a : α} (holds : right a around) : Yields component bound (Pure.pure a) around right := by
  rintro l within rfl
  exact ⟨within, holds⟩

theorem fail (cause : Cause) (location : Location) :
    Yields component bound (Draft.fail file cause location) around right := fun _ _ _ => trivial

theorem bind {draft : Draft α} {next : α → Draft β} (first : Yields component bound draft around right)
    (rest : ∀ a after, right a after → Yields component bound (next a) after goal) :
    Yields component bound (draft >>= next) around goal := by
  intro l within here
  have begun := first l within here
  rw [run_bind]
  revert begun
  rcases draft.run.run l with ⟨_ | a, l'⟩
  · exact fun _ => trivial
  · exact fun ⟨within', holds⟩ => rest a l'.branch holds l' within' rfl

theorem mono {draft : Draft α} {goal : α → Option Switch → Prop} (yields : Yields component bound draft around right)
    (weaker : ∀ a after, right a after → goal a after) : Yields component bound draft around goal := by
  intro l within here
  have begun := yields l within here
  revert begun
  rcases draft.run.run l with ⟨_ | a, l'⟩
  · exact id
  · exact fun ⟨within', holds⟩ => ⟨within', weaker a l'.branch holds⟩

theorem look {next : Ledger → Draft β}
    (rest : ∀ l, l.Within component bound → l.branch = around → Yields component bound (next l) around goal) :
    Yields component bound (get >>= next) around goal := by
  intro l within here
  rw [run_bind]
  exact rest l within here l within here

theorem marking (state : Switch) : Yields component bound (modify fun l => { l with branch := some state }) around
    fun _ after => after = some state :=
  fun _ within _ => ⟨⟨within.scope, within.registered, within.bounded⟩, rfl⟩

theorem within {body : Draft α} {right : α → Prop} (inner : Yields component bound body branch fun a _ => right a) :
    Yields component bound (Draft.within branch body) around fun a after => after = around ∧ right a := by
  rintro l within rfl
  have begun := inner { l with branch := branch } ⟨within.scope, within.registered, within.bounded⟩ rfl
  rw [run_within]
  revert begun
  rcases body.run.run { l with branch := branch } with ⟨_ | _, _⟩
  · exact id
  · exact fun ⟨within', holds⟩ => ⟨⟨within'.scope, within'.registered, within'.bounded⟩, rfl, holds⟩

-- A new fragment has a number of its own, and all later ones are larger.
theorem fragment {next : Nat → Draft β}
    (rest : ∀ attrsOf, bound ≤ attrsOf → Yields component (attrsOf + 1) (next attrsOf) around goal) :
    Yields component bound (Draft.fragment >>= next) around goal := by
  rintro l within rfl
  have later := rest l.nextFragment within.bounded { l with nextFragment := l.nextFragment + 1 }
    ⟨within.scope, within.registered, Nat.le_refl _⟩ rfl
  rw [run_bind]
  show match (next l.nextFragment).run.run { l with nextFragment := l.nextFragment + 1 } with
    | (.ok a, l') => l'.Within component bound ∧ goal a l'.branch
    | (.error _, _) => True
  revert later
  rcases (next l.nextFragment).run.run { l with nextFragment := l.nextFragment + 1 } with ⟨_ | a, l'⟩
  · exact id
  · exact fun ⟨within', holds⟩ =>
      ⟨⟨within'.scope, within'.registered, Nat.le_of_succ_le (Nat.le_trans (Nat.succ_le_succ within.bounded) within'.bounded)⟩,
        holds⟩

theorem require {name : String} {next : Part → Draft β}
    (rest : ∀ p, Attr.param? h.tag.attrs name = some p → Yields component bound (next p) around goal) :
    Yields component bound (Draft.require file h name >>= next) around goal := by
  unfold Draft.require
  cases found : Attr.param? h.tag.attrs name with
  | none => exact (fail _ _ : Yields component bound _ around fun _ _ => False).bind fun _ _ absurd => absurd.elim
  | some p =>
    rw [pure_bind]
    exact rest p found

-- A test is drafted as the text that its truth is known by.
theorem condition (truth : String → Bool) (scope : Scope) (p : Part) :
    Yields component bound (Draft.condition file h p) around
      fun test after => after = around ∧ Line.holds truth scope test = truth (p.test scope) := by
  cases p with
  | literal text => exact pure ⟨rfl, congrArg truth (Code.render_text scope _)⟩
  | expression e =>
    have same (l : Ledger) : l.scope.after .condition e = l.scope := by simp [Scope.after, Expr.promoted?]
    -- Nothing becomes local by being tested.
    have unmoved : Yields component bound (modify fun l => { l with scope := l.scope.after .condition e }) around
        fun _ after => after = around := by
      rintro l within rfl
      exact ⟨⟨(same l).trans within.scope, within.registered, within.bounded⟩, rfl⟩
    have drafted : Yields component bound (Draft.expr file .condition e h.location) around fun code after =>
        after = around ∧ e.emit? .condition = some code := by
      refine unmoved.bind ?_
      rintro _ _ rfl
      cases e.emit? .condition with
      | none => exact fail _ _
      | some code => exact pure ⟨rfl, rfl⟩
    refine drafted.bind ?_
    rintro code _ ⟨rfl, emitted⟩
    exact pure ⟨rfl, by simp [Line.holds, Operand.code, Part.test, emitted]⟩

end Yields

section Drafts

variable (truth : String → Bool) (scope : Scope) (component : String → Bool) (bound : Nat) {α : Type}

def Builds (draft : Draft (List Line)) (around : Option Switch) (channel : Channel α) (items : List α) : Prop :=
  Yields component bound draft around fun lines after => after = around ∧ Emits truth scope channel lines items

def Branches (draft : Draft (List Line)) (state : Switch) (channel : Channel α) (outcome : Option (List α)) : Prop :=
  Yields component bound draft (some state) fun lines after =>
    ∃ state', after = some state' ∧ Serves truth scope channel lines state.hasCase state'.hasCase outcome

end Drafts

namespace Builds

variable {truth : String → Bool} {scope : Scope} {component : String → Bool} {bound : Nat} {α : Type} {file : Path}
  {h : Header} {around : Option Switch} {channel : Channel α} {items : List α} {body : Draft (List Line)}

theorem nil : Builds truth scope component bound (pure []) around channel [] := Yields.pure ⟨rfl, .nil⟩

theorem append {draft more : Draft (List Line)} {others : List α}
    (first : Builds truth scope component bound draft around channel items)
    (second : Builds truth scope component bound more around channel others) :
    Builds truth scope component bound (do let lines ← draft; return lines ++ (← more)) around channel
      (items ++ others) := by
  refine Yields.bind first ?_
  rintro lines _ ⟨rfl, emits⟩
  refine Yields.bind second ?_
  rintro lines' _ ⟨rfl, emits'⟩
  exact Yields.pure ⟨rfl, emits.append emits'⟩

theorem within (branch : Option Switch) (inner : Builds truth scope component bound body branch channel items) :
    Builds truth scope component bound (Draft.within branch body) around channel items :=
  Yields.within (Yields.mono inner fun _ _ right => right.2)

theorem conditional {isChildless : Bool} (inner : Builds truth scope component bound body none channel items)
    (nothing : isChildless = true → items = []) :
    Builds truth scope component bound (Draft.conditional file h isChildless body) around channel
      (if h.tag.holds truth scope then items else []) := by
  refine Yields.require fun test found => (inner.within none).bind ?_
  rintro lines _ ⟨rfl, emits⟩
  have holds : h.tag.holds truth scope = truth (test.test scope) := by simp [Tag.holds, found]
  cases isChildless with
  | true =>
    refine Yields.pure ⟨rfl, ?_⟩
    rw [nothing rfl, ite_self]
    exact .nil
  | false =>
    refine (Yields.condition truth scope test).bind ?_
    rintro operand _ ⟨rfl, same⟩
    refine Yields.pure ⟨rfl, ?_⟩
    rw [holds, ← same]
    exact Serves.conditional emits

theorem case {state : Switch} (inner : Builds truth scope component bound body none channel items) :
    Yields component bound (Draft.case file h body) (some state) fun lines after =>
      after = some { state with hasCase := true } ∧
        Serves truth scope channel lines state.hasCase true (if h.tag.holds truth scope then some items else none) := by
  refine Yields.look fun l _ here => ?_
  rw [here]
  cases refused : state.hasDefault with
  | true =>
    simp only [refused, if_true]
    exact Yields.fail _ _
  | false =>
    simp only [refused, Bool.false_eq_true, if_false]
    refine (Yields.marking _).bind ?_
    rintro _ _ rfl
    refine Yields.require fun test found => (inner.within none).bind ?_
    rintro lines _ ⟨rfl, emits⟩
    refine (Yields.condition truth scope test).bind ?_
    rintro operand _ ⟨rfl, same⟩
    refine Yields.pure ⟨by simp, ?_⟩
    have holds : h.tag.holds truth scope = truth (test.test scope) := by simp [Tag.holds, found]
    rw [holds, ← same]
    cases state.hasCase with
    | true => exact .next emits
    | false => exact .first emits

theorem default {state : Switch} (inner : Builds truth scope component bound body none channel items) :
    Branches truth scope component bound (Draft.default file h body) state channel (some items) := by
  refine Yields.look fun l _ here => ?_
  rw [here]
  refine (Yields.marking { state with hasDefault := true }).bind ?_
  rintro _ _ rfl
  refine (inner.within none).bind ?_
  rintro lines _ ⟨rfl, emits⟩
  refine Yields.pure ⟨_, rfl, ?_⟩
  cases state.hasCase with
  | true => exact .last emits
  | false => exact .only emits

variable {attrsOf : Nat} {assignment : String × AttrValue} {assigned : List (String × AttrValue)}

theorem ownAttr (location : Location) {attr : Attr} (fixed : attr.assignment? = some assignment) :
    Builds truth scope component bound (Draft.ownAttr file attrsOf location attr) around (.attrs attrsOf) [assignment] := by
  unfold Attr.assignment? at fixed
  unfold Draft.ownAttr
  split at fixed
  · rename_i name value named valued
    cases fixed
    rw [named, valued]
    exact Yields.pure ⟨rfl, .assignAttr name rfl⟩
  · rename_i name named valued
    cases fixed
    rw [named, valued]
    exact Yields.pure ⟨rfl, .assignAttr name rfl⟩
  · cases fixed

theorem ownAttrs (location : Location) {attrs : List Attr}
    (fixed : attrs.all (fun attr => attr.assignment?.isSome) = true) :
    Builds truth scope component bound (Draft.ownAttrs file attrsOf location attrs) around (.attrs attrsOf)
      (attrs.filterMap Attr.assignment?) := by
  induction attrs with
  | nil => exact nil
  | cons attr rest ih =>
    rw [List.all_cons, Bool.and_eq_true] at fixed
    obtain ⟨assignment, found⟩ := Option.isSome_iff_exists.mp fixed.1
    rw [List.filterMap_cons_some found]
    exact (ownAttr location found).append (ih fixed.2)

theorem appliedAttr (fixed : h.tag.assignment? = some assignment) :
    Builds truth scope component bound (Draft.appliedAttr file attrsOf h) around (.attrs attrsOf) [assignment] := by
  refine Yields.require fun name named => Yields.require fun value valued => ?_
  unfold Tag.assignment? at fixed
  rw [named, valued] at fixed
  split at fixed
  · rename_i name value same same'
    cases fixed
    cases same
    cases same'
    exact Yields.pure ⟨rfl, .assignAttr name rfl⟩
  · cases fixed

-- The lines for the attributes of a tag, from its fragment and from the tag itself.
theorem attrBlock {copies : List Sketch} (location : Location) {attrs : List Attr}
    (copied : Builds truth scope component bound (Draft.allApplied file attrsOf copies) none (.attrs attrsOf) assigned)
    (fixed : attrs.all (fun attr => attr.assignment?.isSome) = true) :
    Yields component bound (Draft.attrBlock file attrsOf copies attrs location) around fun block after =>
      after = around ∧ ∃ lines, block = .resetAttrs attrsOf :: lines ∧
        Emits truth scope (.attrs attrsOf) lines (assigned ++ attrs.filterMap Attr.assignment?) := by
  refine (copied.within none).bind ?_
  rintro applied _ ⟨rfl, emits⟩
  have owned (around : Option Switch) : Builds truth scope component bound
      (Draft.ownAttrs file attrsOf location attrs) around (.attrs attrsOf) (attrs.filterMap Attr.assignment?) :=
    ownAttrs location fixed
  refine Yields.bind (owned _) ?_
  rintro own _ ⟨rfl, emits'⟩
  exact Yields.pure ⟨rfl, applied ++ own, rfl, emits.append emits'⟩

end Builds

namespace Branches

variable {truth : String → Bool} {scope : Scope} {component : String → Bool} {bound : Nat} {α : Type} {file : Path}
  {h : Header} {around : Option Switch} {channel : Channel α} {items : List α} {body draft rest : Draft (List Line)}
  {state : Switch} {outcome other : Option (List α)}

theorem nil : Branches truth scope component bound (pure []) state channel none :=
  Yields.pure ⟨state, rfl, .nil⟩

theorem cons_case (inner : Builds truth scope component bound body none channel items)
    (behind : ∀ state, state.hasCase = true → Branches truth scope component bound rest state channel other) :
    Branches truth scope component bound (do let lines ← Draft.case file h body; return lines ++ (← rest)) state channel
      (if h.tag.holds truth scope then some items else other) := by
  refine inner.case.bind ?_
  rintro lines _ ⟨rfl, serves⟩
  refine Yields.bind (behind { state with hasCase := true } rfl) ?_
  rintro lines' _ ⟨state', rfl, serves'⟩
  refine Yields.pure ⟨state', rfl, ?_⟩
  have chain := serves.append serves'
  cases holds : h.tag.holds truth scope <;> simpa [holds] using chain

theorem switch (inner : Branches truth scope component bound body Switches.fresh channel outcome) :
    Builds truth scope component bound (Draft.switch body) around channel (outcome.getD []) := by
  refine Yields.within (Yields.bind inner ?_)
  rintro lines _ ⟨state, rfl, serves⟩
  refine Yields.look fun l _ here => Yields.pure ?_
  have chained : (l.branch.map Switch.hasCase).getD false = state.hasCase := by rw [here]; rfl
  rw [chained]
  exact serves.switch

end Branches

end Stencil
