import Stencil.Proofs.LineTokens

-- Lists are made empty before they are used. What holds of the lines of a compilation holds of the tokens of its text:
-- each list of attributes or children is made empty by exactly one statement, in front of its other occurrences and in a
-- block around them.

namespace Stencil

-- An element that alone gives some value.
theorem apart_of_nodup {α β : Type} {x : α} {front back : List α} {f : α → Option β} {value : β}
    (distinct : ((front ++ x :: back).filterMap f).Nodup) (gives : f x = some value) :
    ∀ y, y ∈ front ∨ y ∈ back → f y ≠ some value := by
  rw [List.filterMap_append, List.filterMap_cons, gives] at distinct
  obtain ⟨_, behind, apart⟩ := List.nodup_append.mp distinct
  intro y member same
  rcases member with left | right
  · exact apart value (List.mem_filterMap.mpr ⟨y, left, same⟩) value List.mem_cons_self rfl
  · exact (List.nodup_cons.mp behind).1 (List.mem_filterMap.mpr ⟨y, right, same⟩)

namespace Line

variable {scope : Scope} {given : List String} (reading : Reading scope given)

theorem level_of_mentions {line : Line} {slot : Slot} (used : slot ∈ line.mentions) (depth : Nat) :
    line.level depth = some depth := by
  cases line <;> first | rfl | cases used

-- Lines that use no list but the outermost before it is made empty, and make none empty twice.
structure Careful (lines : List Line) : Prop where
  tidy : Tidy [.children 0] lines
  attrs : (attrResets lines).Nodup
  children : (childResets lines).Nodup
  outermost : 0 ∉ childResets lines

namespace Careful

variable {front back : List Line} {opening : Line} {slot : Slot}

theorem apart (careful : Careful (front ++ opening :: back)) (resets : opening.reset? = some slot) :
    ∀ line, line ∈ front ∨ line ∈ back → line.reset? ≠ some slot := by
  intro line member same
  cases slot with
  | attrs number =>
    have number_of {line : Line} (resets : line.reset? = some (.attrs number)) :
        line.reset?.bind Slot.attrs? = some number := by
      rw [resets]
      rfl
    exact apart_of_nodup careful.attrs (number_of resets) line member (number_of same)
  | children number =>
    have number_of {line : Line} (resets : line.reset? = some (.children number)) :
        line.reset?.bind Slot.children? = some number := by
      rw [resets]
      rfl
    exact apart_of_nodup careful.children (number_of resets) line member (number_of same)
  | result number => cases opening <;> cases resets
  | item number => cases opening <;> cases resets

-- The lines in which a list occurs, apart from the one that makes it empty, stand behind that one.
theorem reset_before {lines : List Line} (careful : Careful lines) (inner : slot ≠ .children 0) {first last : List Line}
    {here : Line} (split : lines = first ++ here :: last) (used : slot ∈ here.mentions) :
    ∃ front opening back, first = front ++ opening :: back ∧ opening.reset? = some slot ∧
      (levels back 0).isSome = true := by
  rcases careful.tidy first here last split slot used with outer | found
  · exact absurd (List.mem_singleton.mp outer) inner
  · exact found

theorem exists_reset {lines : List Line} (careful : Careful lines) (calm : ∀ line ∈ lines, line.Calm scope given)
    (list : slot.isList = true) (inner : slot ≠ .children 0)
    (occurs : .named slot.name ∈ lines.flatMap (tokens reading)) :
    ∃ front opening back, lines = front ++ opening :: back ∧ opening.reset? = some slot := by
  obtain ⟨inside, outside, split⟩ := List.append_of_mem occurs
  obtain ⟨first, here, last, left, right, rfl, own, _⟩ := split_flatMap split
  by_cases resets : here.reset? = some slot
  · exact ⟨first, here, last, rfl, resets⟩
  · have used := (used_tokens reading (calm here (by simp)) list resets own).1
    obtain ⟨front, opening, back, rfl, resets, _⟩ := careful.reset_before inner rfl used
    exact ⟨front, opening, back ++ here :: last, by simp, resets⟩

theorem absent_before (careful : Careful (front ++ opening :: back))
    (calm : ∀ line ∈ front ++ opening :: back, line.Calm scope given) (list : slot.isList = true)
    (inner : slot ≠ .children 0) (resets : opening.reset? = some slot) :
    .named slot.name ∉ front.flatMap (tokens reading) := by
  intro occurs
  obtain ⟨inside, outside, split⟩ := List.append_of_mem occurs
  obtain ⟨first, here, last, left, right, rfl, own, _⟩ := split_flatMap split
  have apart := careful.apart resets
  have used := (used_tokens reading (calm here (by simp)) list (apart here (by simp)) own).1
  have around : first ++ here :: last ++ opening :: back = first ++ here :: (last ++ opening :: back) := by simp
  obtain ⟨_, earlier, _, rfl, again, _⟩ := careful.reset_before inner around used
  exact apart earlier (by simp) again

-- Behind the line that makes a list empty, nothing is assigned to it, and the block of that line is still open.
theorem used_behind (careful : Careful (front ++ opening :: back))
    (calm : ∀ line ∈ front ++ opening :: back, line.Calm scope given) (list : slot.isList = true)
    (inner : slot ≠ .children 0) (resets : opening.reset? = some slot) {inside outside : List Token}
    (split : back.flatMap (tokens reading) = inside ++ .named slot.name :: outside) :
    (∃ token rest, outside = token :: rest ∧ token ≠ .mark '=') ∧
      ((∀ raw ∈ given, Text.isClosed raw = true) → (Token.descend inside 0).isSome = true) := by
  obtain ⟨first, here, last, left, right, rfl, own, rfl, rfl⟩ := split_flatMap split
  have apart := careful.apart resets
  obtain ⟨used, token, rest, rfl, plain⟩ := used_tokens reading (calm here (by simp)) list (apart here (by simp)) own
  refine ⟨⟨token, rest ++ last.flatMap (tokens reading), rfl, plain⟩, fun closed => ?_⟩
  have around : front ++ opening :: (first ++ here :: last) = (front ++ opening :: first) ++ here :: last := by simp
  obtain ⟨others, again, between, same, found, level⟩ := careful.reset_before inner around used
  -- The line that makes the list empty is the only one.
  have between_eq : between = first := by
    rcases List.append_eq_append_iff.mp same with ⟨more, rfl, rest⟩ | ⟨more, rfl, rest⟩
    · cases more with
      | nil => exact (List.cons.inj rest).2.symm
      | cons _ more =>
        obtain ⟨_, rfl⟩ := List.cons.inj rest
        exact absurd found (apart again (by simp))
    · cases more with
      | nil => exact (List.cons.inj rest).2
      | cons _ more =>
        obtain ⟨rfl, _⟩ := List.cons.inj rest
        exact absurd found (apart again (by simp))
  subst between_eq
  obtain ⟨depth, reached⟩ := Option.isSome_iff_exists.mp level
  have before := reaches_flatMap reading (fun line member => calm line (by simp [member])) closed reached
  have within := reaches_statement reading (calm here (by simp)) closed (level_of_mentions used depth)
  rw [← Phrase.braces_tokens, ← tokens, own] at within
  obtain ⟨final, nested, _⟩ := before.append within 0
  rw [← Token.braces_append, ← List.append_assoc, Token.braces_append, Token.nest_append] at nested
  obtain ⟨_, nested, _⟩ := Option.bind_eq_some_iff.mp nested
  rw [Token.descend, nested]
  rfl

-- The same for the text up to its end.
theorem used_after (careful : Careful (front ++ opening :: back))
    (calm : ∀ line ∈ front ++ opening :: back, line.Calm scope given) (list : slot.isList = true)
    (inner : slot ≠ .children 0) (resets : opening.reset? = some slot) {inside outside : List Token}
    (split : Text.marks " ?>\n" ++ (back.flatMap (tokens reading) ++ Output.epilogue.tokens) =
      inside ++ .named slot.name :: outside) :
    (∃ token rest, outside = token :: rest ∧ token ≠ .mark '=') ∧
      ((∀ raw ∈ given, Text.isClosed raw = true) → (Token.descend inside 0).isSome = true) := by
  obtain ⟨inside, rfl, behind⟩ := split_behind (Token.not_mem_marks _) split
  obtain ⟨outside, own, rfl⟩ := split_before (Output.not_mem_epilogue list inner) behind
  obtain ⟨⟨token, rest, rfl, plain⟩, enclosed⟩ := careful.used_behind reading calm list inner resets own
  refine ⟨⟨token, _, rfl, plain⟩, fun closed => ?_⟩
  rw [Token.descend, Token.braces_append, Token.braces_marks]
  exact enclosed closed

theorem initialised {lines : List Line} (careful : Careful lines) (calm : ∀ line ∈ lines, line.Calm scope given)
    (list : slot.isList = true) (inner : slot ≠ .children 0)
    (occurs : .named slot.name ∈ Output.prologue.tokens ++ (lines.flatMap (tokens reading) ++ Output.epilogue.tokens)) :
    ∃ before after, Output.prologue.tokens ++ (lines.flatMap (tokens reading) ++ Output.epilogue.tokens) =
        before ++ Token.initial slot.name ++ after ∧ .named slot.name ∉ before ∧ ¬Token.initial slot.name <:+: after ∧
      ((∀ raw ∈ given, Text.isClosed raw = true) → Token.Encloses slot.name after) := by
  have prologue := Output.not_mem_prologue list inner
  have within : .named slot.name ∈ lines.flatMap (tokens reading) := by
    simpa [prologue, Output.not_mem_epilogue list inner] using occurs
  obtain ⟨front, opening, back, rfl, resets⟩ := careful.exists_reset reading calm list inner within
  refine ⟨Output.prologue.tokens ++ (front.flatMap (tokens reading) ++ Text.marks "<?php "),
    Text.marks " ?>\n" ++ (back.flatMap (tokens reading) ++ Output.epilogue.tokens), ?_, ?_, ?_, ?_⟩
  · simp [tokens_reset reading resets]
  · have before := careful.absent_before reading calm list inner resets
    simp only [List.mem_append, not_or]
    exact ⟨prologue, before, Token.not_mem_marks _⟩
  · intro again
    obtain ⟨inside, outside, again⟩ := again
    rw [List.append_assoc] at again
    obtain ⟨⟨token, rest, same, plain⟩, _⟩ := careful.used_after reading calm list inner resets again.symm
    exact plain (List.cons.inj same).1.symm
  · intro closed inside outside split
    exact (careful.used_after reading calm list inner resets split).2 closed

-- Behind the beginning, the outermost list is not made empty again.
theorem outermost_kept {lines : List Line} (careful : Careful lines) (calm : ∀ line ∈ lines, line.Calm scope given) :
    ¬Token.initial "children0" <:+: lines.flatMap (tokens reading) ++ Output.epilogue.tokens := by
  intro again
  obtain ⟨inside, outside, again⟩ := again
  rw [List.append_assoc] at again
  rcases split_append again.symm with ⟨more, split, behind⟩ | ⟨more, _, split⟩
  · obtain ⟨first, here, last, left, right, rfl, own, _, rfl⟩ := split_flatMap split
    have other : here.reset? ≠ some (.children 0) := by
      intro resets
      refine careful.outermost (List.mem_filterMap.mpr ⟨here, by simp, ?_⟩)
      rw [resets]
      rfl
    obtain ⟨_, token, rest, rfl, plain⟩ := used_tokens reading (calm here (by simp)) rfl other own
    exact plain (List.cons.inj behind).1.symm
  · obtain ⟨token, rest, same, plain⟩ := Phrase.settled_tokens (by decide +kernel) (by decide) split
    exact plain (List.cons.inj same).1.symm

end Careful

end Line

namespace Template

variable {template : Template} {options : Options} {loader : Loader} {shared : Names} {text : String}

theorem exists_careful (success : (template.compile options loader shared).1 = .ok text)
    (distinct : (Node.allIdentities template.nodes).Nodup) (nonzero : 0 ∉ Node.allIdentities template.nodes)
    (sound : ∀ load ∈ template.loads options loader, load.Sound) :
    ∃ lines scope, Line.Careful lines ∧
      (∀ line ∈ lines, line.Calm scope (Node.allRaws (template.inlined options loader).nodes)) ∧
      text = Line.file scope lines := by
  obtain ⟨lines, _, written, same⟩ := written success
  obtain ⟨apart, nowhere⟩ := identities_distinct distinct nonzero sound
  obtain ⟨taken, numbered⟩ := written.attrResets
  have own : (Line.childResets lines).Sublist
      (Sketch.allIdentities (Outline.flatten (template.outlines options loader))) := written.childResets
  refine ⟨lines, _, ⟨written.tidy, ?_, own.nodup apart, fun zero => nowhere (own.subset zero)⟩,
    written.calm (List.Subset.refl _), same⟩
  rw [numbered.found]
  exact numbered.distinct

-- Each list but the outermost is made empty by one statement, before it occurs elsewhere, and in a block around its
-- other occurrences if no text that is taken over closes a block which it did not open. The outermost is made empty at
-- the beginning only.
theorem compile_initialises (template : Template) (options : Options) (loader : Loader) (shared : Names)
    (text : String) (success : (template.compile options loader shared).1 = .ok text)
    (distinct : (Node.allIdentities template.nodes).Nodup) (nonzero : 0 ∉ Node.allIdentities template.nodes)
    (sound : ∀ load ∈ template.loads options loader, load.Sound)
    (bare : ∀ raw ∈ Node.allRaws (template.inlined options loader).nodes, Text.isBare raw = true) :
    (∀ slot : Slot, slot.isList = true → slot ≠ .children 0 → .named slot.name ∈ Text.tokens text →
      ∃ before after, Text.tokens text = before ++ Token.initial slot.name ++ after ∧ .named slot.name ∉ before ∧
        ¬Token.initial slot.name <:+: after ∧
        ((∀ raw ∈ Node.allRaws (template.inlined options loader).nodes, Text.isClosed raw = true) →
          Token.Encloses slot.name after)) ∧
      ∃ rest, Text.tokens text = Text.tokens Output.opening ++ rest ∧
        Token.initial "children0" <:+: Text.tokens Output.opening ∧ ¬Token.initial "children0" <:+: rest := by
  obtain ⟨lines, scope, careful, calm, rfl⟩ := exists_careful success distinct nonzero sound
  obtain ⟨reading⟩ := exists_reading scope (Node.allRaws (template.inlined options loader).nodes)
  rw [Output.tokens_opening, Line.tokens_text reading calm bare]
  refine ⟨?_, _, rfl, by decide +kernel, careful.outermost_kept reading calm⟩
  intro slot list inner occurs
  exact careful.initialised reading calm list inner occurs

-- A tag whose child is in a part, with its own list in a loop.
def loopInPart : Template :=
  ⟨[.tag 1 ⟨"div", [], false⟩
    [.tag 2 ⟨"include", [⟨.literal "from", some (.literal "part.json"), .zero⟩], true⟩ [] .zero] .zero]⟩

def loopParts : Loader where
  templates :=
    [(Path.ofText "part.json",
      ⟨[.tag 1 ⟨"for-each", [⟨.literal "from", some (.expression (.var "rows" [])), .zero⟩,
          ⟨.literal "item", some (.literal "row"), .zero⟩], false⟩
        [.tag 2 ⟨"b", [], false⟩ [.leaf 3 (.text "x") .zero] .zero] .zero]⟩)]
  fault path := .unreadable path.text

def loopInPartLines : List Line :=
  [.resetAttrs 1, .resetChildren 1,
    .openLoop (.computed (.place "rows")) ⟨none, .place "row"⟩,
    .resetAttrs 2, .resetChildren 5, .record 5 "text" "x", .tagRecord 1 2 "b" (some 5), .close,
    .tagRecord 0 1 "div" (some 1)]

theorem compile_initialises_loopInPart : ∃ text, (loopInPart.compile .standard loopParts []).1 = .ok text ∧
    .named "children5" ∈ Text.tokens text ∧
    ∃ before after, Text.tokens text = before ++ Token.initial "children5" ++ after ∧ .named "children5" ∉ before ∧
      ¬Token.initial "children5" <:+: after ∧ Token.Encloses "children5" after := by
  have compiled : (loopInPart.compile .standard loopParts []).1.toOption =
      some (Line.file (Scope.empty.promote "row") loopInPartLines) := by decide +kernel
  have loaded : ∀ load ∈ loopInPart.loads .standard loopParts, (Node.allIdentities load.nodes).Nodup ∧
      0 ∉ Node.allIdentities load.nodes ∧
      ∀ identity ∈ Node.allIdentities load.nodes, identity + load.shift ≤ identityLimit := by decide +kernel
  have sound : ∀ load ∈ loopInPart.loads .standard loopParts, load.Sound := fun load member =>
    ⟨(loaded load member).1, (loaded load member).2.1, (loaded load member).2.2⟩
  have none : Node.allRaws (loopInPart.inlined .standard loopParts).nodes = [] := by decide +kernel
  have numbered : (Slot.children 5).name = "children5" := by decide +kernel
  obtain ⟨reading⟩ := exists_reading (Scope.empty.promote "row") []
  have calm : ∀ line ∈ loopInPartLines, line.Calm (Scope.empty.promote "row") [] := by
    have placed (name : String) : (Code.place name).Calm (Scope.empty.promote "row") [] := ⟨_, Expr.reads_place name⟩
    simp [loopInPartLines, Line.Calm, Operand.Calm, placed]
  have occurs : .named "children5" ∈ loopInPartLines.flatMap (Line.tokens reading) := by
    refine List.mem_flatMap.mpr ⟨.resetChildren 5, by simp [loopInPartLines], ?_⟩
    rw [Line.tokens_reset reading rfl, numbered]
    simp [Token.initial]
  have among : .named "children5" ∈ Text.tokens (Line.file (Scope.empty.promote "row") loopInPartLines) := by
    rw [Line.tokens_text reading calm (List.forall_mem_nil _)]
    simp [occurs]
  have success := compile_of_toOption compiled
  obtain ⟨initialised, _⟩ := compile_initialises loopInPart .standard loopParts [] _ success (by decide +kernel)
    (by decide +kernel) sound (by simp [none])
  have initialised := initialised (.children 5) rfl (by decide)
  rw [numbered] at initialised
  obtain ⟨before, after, same, first, once, enclosed⟩ := initialised among
  exact ⟨_, success, among, before, after, same, first, once, enclosed (by simp [none])⟩

-- A value that closes a block which the generated code has opened.
def closingConst : Template := ⟨[.tag 1 ⟨"p", [⟨.literal "id", some (.expression (.const "\x7d")), .zero⟩], true⟩ [] .zero]⟩

-- What stands between the place where the attributes are made empty and where they are put into the record.
def closingConstPhrase : Phrase :=
  [.code "<?php ", .named "attrs1", .code "[", .literal "id", .code "] = ", .raw "\x7d", .code "; ?>\n", .code "<?php ",
    .named "children0", .code "[] = [", .literal "tag", .code " => ", .literal "p", .code ", ", .literal "attrs",
    .code " => "]

theorem closingConst_leaves_block :
    (Node.allIdentities closingConst.nodes).Nodup ∧ 0 ∉ Node.allIdentities closingConst.nodes ∧
    (closingConst.loads .standard noParts).length = 0 ∧
    (∀ raw ∈ Node.allRaws (closingConst.inlined .standard noParts).nodes, Text.isBare raw = true) ∧
    ∃ text before inside outside, (closingConst.compile .standard noParts []).1 = .ok text ∧
      Text.tokens text = before ++ Token.initial "attrs1" ++ (inside ++ .named "attrs1" :: outside) ∧
      Token.descend inside 0 = none := by
  have compiled : (closingConst.compile .standard noParts []).1.toOption = some (Phrase.render (Output.prologue ++
      (Line.reset (.attrs 1) ++ (closingConstPhrase ++ (.named "attrs1" :: .code "]; ?>\n" :: Output.epilogue))))) := by
    decide +kernel
  refine ⟨by decide +kernel, by decide +kernel, by decide +kernel, by decide +kernel, ?_⟩
  refine ⟨_, Output.prologue.tokens ++ Text.marks "<?php ", Text.marks " ?>\n" ++ closingConstPhrase.tokens,
    Phrase.tokens (.code "]; ?>\n" :: Output.epilogue), compile_of_toOption compiled, ?_, by decide +kernel⟩
  rw [Phrase.tokens_render (by decide +kernel) (by decide +kernel)]
  decide +kernel

end Template

end Stencil
