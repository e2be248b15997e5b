import Stencil.Proofs.Accumulator
import Stencil.Proofs.Brackets
import Stencil.Proofs.Storage

-- The brackets of the generated code. The code of an expression closes each bracket that it opens, and a line opens and
-- closes as many blocks as it moves between levels. So the output of a compilation is balanced, and its blocks of code
-- follow one another.

namespace Stencil

namespace Code

variable {scope : Scope}

def Even (scope : Scope) (code : Code) : Prop := Text.Even (code.render scope)

-- Fixed texts with code between them.
def fill : List String → List Code → Code
  | [], _ => empty
  | fixed :: rest, [] => text fixed ++ fill rest []
  | fixed :: rest, hole :: holes => text fixed ++ (hole ++ fill rest holes)

theorem render_fill (frame : List String) (holes : List Code) :
    (fill frame holes).render scope = Text.fill frame (holes.map (render scope)) := by
  induction frame generalizing holes with
  | nil => rfl
  | cons fixed rest ih =>
    cases holes with
    | nil => rw [fill, render_append, render_text, ih, List.map_nil, Text.fill]
    | cons hole others =>
      rw [fill, render_append, render_append, render_text, ih, List.map_cons, Text.fill, String.append_assoc]

theorem even_text {value : String} (even : Text.Even value) : (text value).Even scope := by
  rwa [Even, render_text]

theorem even_quiet {value : String} (quiet : Text.isQuiet value = true) : (text value).Even scope :=
  even_text (Text.even_of_isQuiet quiet)

theorem even_empty : empty.Even scope := Text.even_empty

theorem Even.append {a b : Code} (first : a.Even scope) (second : b.Even scope) : (a ++ b).Even scope := by
  rw [Even, render_append]
  exact Text.Even.append first second

theorem even_concat {codes : List Code} (all : ∀ code ∈ codes, code.Even scope) : (concat codes).Even scope := by
  induction codes with
  | nil => exact even_empty
  | cons first rest ih =>
    rw [concat_cons]
    exact (all first List.mem_cons_self).append (ih fun code member => all code (List.mem_cons_of_mem _ member))

theorem evens_render {holes : List Code} (evens : ∀ hole ∈ holes, hole.Even scope) :
    ∀ hole ∈ holes.map (render scope), Text.Even hole := by
  intro hole member
  obtain ⟨code, listed, rfl⟩ := List.mem_map.mp member
  exact evens code listed

theorem even_fill (frame : List String) (holes : List Code)
    (known : (Text.isFrame ⟨[], true⟩ ⟨[], true⟩ frame && Text.isFrame ⟨[], false⟩ ⟨[], false⟩ frame) = true)
    (evens : ∀ hole ∈ holes, hole.Even scope) : (fill frame holes).Even scope := by
  rw [Even, render_fill]
  exact Text.even_fill known (evens_render evens)

theorem even_join {separator : String} (even : Text.Even separator) :
    ∀ {codes : List Code}, (∀ code ∈ codes, code.Even scope) → (join separator codes).Even scope
  | [], _ => even_empty
  | [code], all => all code List.mem_cons_self
  | first :: second :: rest, all => by
    rw [join]
    · refine (all first List.mem_cons_self).append ((even_text even).append (even_join even fun code member => ?_))
      exact all code (List.mem_cons_of_mem _ member)
    · simp

theorem even_list {codes : List Code} (all : ∀ code ∈ codes, code.Even scope) : (join ", " codes).Even scope :=
  even_join (Text.even_of_isQuiet (by decide)) all

theorem even_safeRead {place : Code} (even : place.Even scope) : place.safeRead.Even scope :=
  even_fill ["(isset(", ") ? ", " : \"\")"] [place, place] (by decide) (by simpa using even)

theorem even_root (name : String) : (root name).Even scope := by
  rw [Even, render_root]
  split <;> exact Text.even_of_isQuiet (by decide)

end Code

namespace Builtin

variable {scope : Scope}

open Code

theorem isQuiet_table : ∀ entry ∈ table, ∀ name ∈ entry.2.names, Text.isQuiet name = true := by decide +kernel

theorem even_call {name : Code} (even : name.Even scope) {args : List Code} (all : ∀ arg ∈ args, arg.Even scope) :
    (Code.concat [name, "(", Code.join ", " args, ")"]).Even scope :=
  even.append (even_fill ["(", ")"] [Code.join ", " args] (by decide) (by simpa using even_list all))

theorem even_fixedCall {name : String} (quiet : Text.isQuiet name = true) {args : List Code}
    (all : ∀ arg ∈ args, arg.Even scope) : (call name args).Even scope :=
  even_call (even_quiet quiet) all

theorem even_getD {args : List Code} (all : ∀ arg ∈ args, arg.Even scope) (i : Nat) {other : Code}
    (even : other.Even scope) : (args.getD i other).Even scope := by
  rw [List.getD_eq_getElem?_getD]
  cases found : args[i]? with
  | none => exact even
  | some arg => exact all arg (List.mem_of_getElem? found)

theorem even_lowerSplit {args : List Code} (all : ∀ arg ∈ args, arg.Even scope) (source : List Expr) :
    (lowerSplit args source).Even scope := by
  have blank : (Code.text "\"\"").Even scope := even_text (Text.even_quoted "")
  have subject := even_getD all 0 blank
  have between := even_getD all 1 blank
  have held : (Code.text separator).Even scope := even_quiet (by decide)
  have chars : (call "mb_str_split" [args.getD 0 "\"\""]).Even scope :=
    even_fixedCall (by decide) (by simpa using subject)
  unfold lowerSplit
  split
  · exact chars
  · split
    · exact chars
    · refine even_fixedCall (by decide) ?_
      simpa using ⟨between, subject⟩
  · have parts : (call "explode" [separator, args.getD 0 "\"\""]).Even scope := by
      refine even_fixedCall (by decide) ?_
      simpa using ⟨held, subject⟩
    refine even_fill ["((", " = ", ") === \"\" ? ", " : ", ")"] [separator, args.getD 1 "\"\"",
      call "mb_str_split" [args.getD 0 "\"\""], call "explode" [separator, args.getD 0 "\"\""]] (by decide) ?_
    simpa using ⟨held, between, chars, parts⟩

-- The calls of known functions are even if their arguments are.
theorem even_lower {name : String} {builtin : Builtin} (known : lookup? name = some builtin) {args : List Code}
    (all : ∀ arg ∈ args, arg.Even scope) (source : List Expr) : (builtin.lower args source).Even scope := by
  have fixed := isQuiet_table _ (entry_of_lookup known)
  have missing : (Code.text "NULL").Even scope := even_quiet (by decide)
  have unit : (Code.text "'UTF-8'").Even scope := even_quiet (by decide)
  have array : (Code.text "[]").Even scope := even_fill ["[]"] [] (by decide) (List.forall_mem_nil _)
  have zero : (Code.text "0").Even scope := even_quiet (by decide)
  cases builtin with
  | rename target => exact even_fixedCall (fixed target (by simp [names])) all
  | renameWith target last =>
    refine even_fixedCall (fixed target (by simp [names])) fun arg member => ?_
    rcases List.mem_append.mp member with given | added
    · exact all arg given
    · rw [List.mem_singleton.mp added]
      exact even_quiet (fixed last (by simp [names]))
  | substring =>
    refine even_fixedCall (by decide) fun arg member => ?_
    simp only [List.mem_append, List.mem_replicate, List.mem_singleton] at member
    rcases member with (given | ⟨_, rfl⟩) | rfl
    · exact all arg given
    · exact missing
    · exact unit
  | replace =>
    refine even_fixedCall (by decide) ?_
    simpa using ⟨even_getD all 1 missing, even_getD all 2 missing, even_getD all 0 missing⟩
  | split => exact even_lowerSplit all source
  | format =>
    have point : (Code.text "\".\"").Even scope := even_text (Text.even_quoted ".")
    refine even_fixedCall (by decide) ?_
    simpa using ⟨even_getD all 0 missing, even_getD all 1 zero, even_getD all 2 point⟩
  | contains =>
    have search : (call "array_search" [args.getD 1 "NULL", args.getD 0 "[]"]).Even scope := by
      refine even_fixedCall (by decide) ?_
      simpa using ⟨even_getD all 1 missing, even_getD all 0 array⟩
    exact even_fill ["(", " !== false)"] [call "array_search" [args.getD 1 "NULL", args.getD 0 "[]"]] (by decide)
      (by simpa using search)
  | join =>
    refine even_fixedCall (by decide) ?_
    simpa using ⟨even_getD all 1 (even_text (Text.even_quoted "")), even_getD all 0 array⟩
  | round =>
    refine even_fixedCall (by decide) ?_
    simpa using even_getD all 0 zero
  | random => exact even_fill ["((float)rand() / (float)getrandmax())"] [] (by decide) (List.forall_mem_nil _)
  | classes => exact even_fixedCall (by decide) all

end Builtin

namespace Expr

open Code

variable {scope : Scope} {given : List String}

theorem even_keysCode {keys : List Code} (all : ∀ key ∈ keys, key.Even scope) : (keysCode keys).Even scope := by
  refine even_concat fun code member => ?_
  obtain ⟨key, listed, rfl⟩ := List.mem_map.mp member
  exact even_fill ["[", "]"] [key] (by decide) (by simpa using all key listed)

theorem even_varCode {root : Code} (even : root.Even scope) {name : String} {keys : List Code}
    (all : ∀ key ∈ keys, key.Even scope) : (varCode root name keys).Even scope := by
  unfold varCode
  split
  · rename_i bare
    simp only [Bool.and_eq_true, Bool.or_eq_true, decide_eq_true_eq] at bare
    rcases bare.1 with rfl | rfl <;> exact even_quiet (by decide)
  · refine Even.append ?_ (even_keysCode all)
    split
    · exact even_quiet (by decide)
    · refine even.append (even_fill ["[", "]"] [Text.quoted name] (by decide) ?_)
      simpa using even_text (Text.even_quoted name)

theorem even_unaryCode {op : UnaryOp} {value : Code} (even : value.Even scope) : (unaryCode op value).Even scope := by
  cases op with
  | brackets => exact even_fill ["(", ")"] [value] (by decide) (by simpa using even)
  | _ => exact (even_quiet (by decide)).append (even.append even_empty)

theorem even_callCode {name : String} {args : List Code} {source : List Expr} (all : ∀ arg ∈ args, arg.Even scope)
    (inert : Builtin.lookup? name = none → Text.isInert name = true) : (callCode name args source).Even scope := by
  unfold callCode
  split
  · rename_i found
    refine Builtin.even_lower found (fun arg member => ?_) []
    rw [← List.map_uncurry_zip_eq_zipWith] at member
    obtain ⟨⟨expr, code⟩, paired, rfl⟩ := List.mem_map.mp member
    have even := all code (List.of_mem_zip paired).2
    show (if expr.isStored then code.safeRead else code).Even scope
    split
    · exact even_safeRead even
    · exact even
  · exact Builtin.even_lower ‹_› all source
  · rename_i missing
    exact Builtin.even_call (even_quiet (Text.isQuiet_of_isInert (inert missing))) all

theorem isQuiet_of_allFigures {text : String} (written : Number.allFigures text = true) : Text.isQuiet text = true := by
  refine Number.all_of_allFigures (fun c figure => ?_) written
  have apart : ∀ other : Char, Number.isFigure other = false → c ≠ other :=
    fun _ different => Number.ne_of_isFigure figure different
  simp [apart _ (rfl : Number.isFigure '\x7b' = false), apart _ (rfl : Number.isFigure '\x7d' = false),
    apart _ (rfl : Number.isFigure '(' = false), apart _ (rfl : Number.isFigure ')' = false),
    apart _ (rfl : Number.isFigure '[' = false), apart _ (rfl : Number.isFigure ']' = false),
    apart _ (rfl : Number.isFigure '"' = false), apart _ (rfl : Number.isFigure '?' = false),
    apart _ (rfl : Number.isFigure '<' = false)]

-- The code of an expression closes what it opens if no text that it takes over has a bracket or a quote.
theorem closed_even (inert : ∀ raw ∈ given, Text.isInert raw = true) : Closed given (Code.Even scope) where
  raw text listed := even_quiet (Text.isQuiet_of_isInert (inert text listed))
  quoted text := even_text (Text.even_quoted text)
  number value := even_quiet (isQuiet_of_allFigures value.allFigures_text)
  var name keys := even_varCode (even_root name)
  binary op left right first second := by
    -- The symbol may be the beginning of a limit, but the blank behind it is not its rest.
    have known : (Text.isFrame ⟨[], true⟩ ⟨[], true⟩ ["", " " ++ op.symbol ++ " ", ""] &&
        Text.isFrame ⟨[], false⟩ ⟨[], false⟩ ["", " " ++ op.symbol ++ " ", ""]) = true := by
      cases op <;> decide
    have even : Text.Even (Text.fill ["", " " ++ op.symbol ++ " ", ""] [left.render scope, right.render scope]) :=
      Text.even_fill known (by simpa using ⟨first, second⟩)
    simpa [Code.Even, Text.fill, String.append_assoc] using even
  unary _ _ := even_unaryCode
  isset value even := even_fill ["isset(", ")"] [value] (by decide) (by simpa using even)
  ternary condition consequent alternate first second third :=
    even_fill ["(", " ? ", " : ", ")"] [condition, consequent, alternate] (by decide) (by simpa using ⟨first, second, third⟩)
  concat _ := even_join (Text.even_of_isQuiet (by decide))
  array entries all := even_fill ["[", "]"] [Code.join ", " entries] (by decide) (by simpa using even_list all)
  numbered next value even :=
    (even_quiet (isQuiet_of_allFigures (Number.allFigures_toString next))).append
      (even_fill [" => ", ""] [value] (by decide) (by simpa using even))
  keyed key value first second := first.append (even_fill [" => ", ""] [value] (by decide) (by simpa using second))
  range kind start stop first second := by
    have mode : (Code.text (rangeMode kind)).Even scope := by cases kind <;> exact even_quiet (by decide)
    exact even_fill ["mkArr(", ", ", ", ", ")"] [start, stop, rangeMode kind] (by decide)
      (by simpa using ⟨first, second, mode⟩)
  named _ _ _ all known := even_callCode all fun missing => inert _ (known missing)
  call _ _ callee args := Builtin.even_call callee args

theorem even_emit? (inert : ∀ raw ∈ given, Text.isInert raw = true) {context : Context} {e : Expr} {code : Code}
    (emitted : e.emit? context = some code) (among : e.raws ⊆ given) : code.Even scope := by
  have closed : Closed given (Code.Even scope) := closed_even inert
  unfold emit? at emitted
  split at emitted
  · obtain ⟨place, made, rfl⟩ := Option.map_eq_some_iff.mp emitted
    exact even_safeRead (closed.code? made among)
  · obtain ⟨codes, made, rfl⟩ := Option.map_eq_some_iff.mp emitted
    exact even_varCode (even_quiet (by decide)) (closed.codes? made among)
  · exact closed.code? emitted among

theorem sources_even (inert : ∀ raw ∈ given, Text.isInert raw = true) :
    Sources given (Code.Even scope) (Code.Even scope) :=
  ⟨fun _ emitted among => even_emit? inert emitted among, fun emitted among => even_emit? inert emitted among⟩

end Expr

namespace Output

theorem even_numbered {name : String} (quiet : Text.isQuiet name = true) (n : Nat) : Text.Even (name ++ toString n) :=
  (Text.even_of_isQuiet quiet).append
    (Text.even_of_isQuiet (Expr.isQuiet_of_allFigures (Number.allFigures_toString n)))

theorem even_attrs (n : Nat) : Text.Even (attrs n) := even_numbered (by decide) n

theorem even_children (n : Nat) : Text.Even (children n) := even_numbered (by decide) n

theorem even_result (n : Nat) : Text.Even (result n) := even_numbered (by decide) n

theorem even_item (n : Nat) : Text.Even (item n) := even_numbered (by decide) n

variable {scope : Scope}

-- A statement is a block of its own.
theorem leads_statement (before after : List Bracket) (frame : List String) (holes : List Code)
    (known : Text.isFrame ⟨before, true⟩ ⟨after, true⟩ frame = true) (evens : ∀ hole ∈ holes, hole.Even scope) :
    Text.Leads ⟨before, false⟩ ⟨after, false⟩ ((Code.statement (Code.fill frame holes)).render scope) := by
  have enter : Text.Leads ⟨[], false⟩ ⟨[], true⟩ "<?php " := Text.leads_fixed (by decide)
  have body : Text.Leads ⟨before, true⟩ ⟨after, true⟩ ((Code.fill frame holes).render scope) := by
    rw [Code.render_fill]
    exact Text.leads_fill known (Code.evens_render evens)
  have leave : Text.Leads ⟨[], true⟩ ⟨[], false⟩ " ?>\n" := Text.leads_fixed (by decide)
  rw [Code.statement, Code.concat_cons, Code.render_append, Code.render_text, Code.concat_cons, Code.render_append,
    Code.concat_cons, Code.concat_nil, Code.append_empty, Code.render_text]
  exact (enter.below before).append (body.append (leave.below after))

-- What the longest line does with a result: it is tested, and appended in one of three ways.
def appending (result item children : String) : String :=
  Text.fill [";\nif (is_array(", ")) \x7b\n" ++ "  if (isset(", "[\"tag\"]) || isset(", "[\"text\"]) || isset(",
      "[\"comment\"]) || isset(", "[\"script\"])) \x7b\n" ++ "    ", "[] = ",
      ";\n" ++ "  \x7d else \x7b\n" ++ "    foreach (", " as ", ") \x7b\n" ++ "      ", "[] = ",
      ";\n" ++ "    \x7d\n" ++ "  \x7d\n" ++ "\x7d else \x7b\n" ++ "  ", "[] = [\"text\" => ", "];\n" ++ "\x7d"]
    [result, result, result, result, result, children, result, result, item, children, item, children, result]

theorem even_appending {result item children : String} (first : Text.Even result) (second : Text.Even item)
    (third : Text.Even children) : Text.Even (appending result item children) :=
  Text.even_fill (by decide +kernel) (by simp [first, second, third])

theorem leads_expressionBlock (identity sink : Nat) {value : Code} (even : value.Even scope) :
    Text.Leads ⟨[], false⟩ ⟨[], false⟩ ((expressionBlock identity sink value).render scope) := by
  have same : expressionBlock identity sink value =
      Code.statement (Code.fill ["", " = ", ""]
        [result identity, value, appending (result identity) (item identity) (children sink)]) := by
    simp only [expressionBlock, appending, Text.fill, String.append_assoc, String.append_empty]
    rfl
  have appended : Text.Even (appending (result identity) (item identity) (children sink)) :=
    even_appending (even_result identity) (even_item identity) (even_children sink)
  rw [same]
  refine leads_statement [] [] _ _ (by decide) ?_
  simpa using ⟨Code.even_text (even_result identity), even, Code.even_text appended⟩

end Output

theorem Operand.Holds.even {scope : Scope} {operand : Operand} (holds : operand.Holds (Code.Even scope)) :
    operand.code.Even scope := by
  cases operand with
  | text value => exact Code.even_text (Text.even_quoted value)
  | flag => exact Code.even_quiet (by decide)
  | computed code => exact holds

namespace Line

open Code

variable {scope : Scope}

-- What a line opens and closes, by itself.
def change : Line → List Bracket × List Bracket
  | .openIf _ => ([], [.curly])
  | .openLoop _ _ => ([], [.curly])
  | .elseIf _ => ([.curly], [.curly])
  | .otherwise => ([.curly], [.curly])
  | .close => ([.curly], [])
  | _ => ([], [])

theorem leads (line : Line) (holds : line.Holds (Code.Even scope) (Code.Even scope)) :
    Text.Leads ⟨line.change.1, false⟩ ⟨line.change.2, false⟩ (line.code.render scope) := by
  have attrs (n : Nat) : (Code.text (Output.attrs n)).Even scope := even_text (Output.even_attrs n)
  have children (n : Nat) : (Code.text (Output.children n)).Even scope := even_text (Output.even_children n)
  have result (n : Nat) : (Code.text (Output.result n)).Even scope := even_text (Output.even_result n)
  have item (n : Nat) : (Code.text (Output.item n)).Even scope := even_text (Output.even_item n)
  have quoted (value : String) : (Code.text (Text.quoted value)).Even scope := even_text (Text.even_quoted value)
  have state : (Code.text Output.state).Even scope := even_quiet (by decide)
  have components : (Code.text Output.components).Even scope := even_quiet (by decide)
  cases line with
  | resetAttrs attrsOf =>
    exact Output.leads_statement [] [] ["", " = [];"] [Output.attrs attrsOf] (by decide) (by simpa using attrs attrsOf)
  | resetChildren identity =>
    exact Output.leads_statement [] [] ["", " = [];"] [Output.children identity] (by decide)
      (by simpa using children identity)
  | assignAttr attrsOf name value =>
    refine Output.leads_statement [] [] ["", "[", "] = ", ";"] [Output.attrs attrsOf, name.code, value.code] (by decide) ?_
    simpa using ⟨attrs attrsOf, holds.1.even, holds.2.even⟩
  | record sink key text =>
    refine Output.leads_statement [] [] ["", "[] = [", " => ", "];"]
      [Output.children sink, Text.quoted key, Text.quoted text] (by decide) ?_
    simpa using ⟨children sink, quoted key, quoted text⟩
  | scriptRecord sink attrsOf body =>
    refine Output.leads_statement [] [] ["", "[] = [\"script\" => [\"attrs\" => ", ", \"body\" => ", "]];"]
      [Output.children sink, Output.attrs attrsOf, Text.quoted body] (by decide) ?_
    simpa using ⟨children sink, attrs attrsOf, quoted body⟩
  | tagRecord sink attrsOf name childrenOf =>
    refine Output.leads_statement [] [] ["", "[] = [\"tag\" => ", ", \"attrs\" => ", "", "];"]
      [Output.children sink, Text.quoted name, Output.attrs attrsOf, _] (by decide) ?_
    cases childrenOf with
    | none => simpa using ⟨children sink, quoted name, attrs attrsOf, even_empty⟩
    | some identity =>
      have label : Text.Even ", \"children\" => " :=
        @Text.even_fill [", \"children\" => "] [] (by decide) (List.forall_mem_nil _)
      have own := label.append (Output.even_children identity)
      simpa using ⟨children sink, quoted name, attrs attrsOf, even_text own⟩
  | expressionBlock identity sink value => exact Output.leads_expressionBlock identity sink holds
  | parameter target value =>
    refine Output.leads_statement [] [] ["if (!isset(", ")) ", " = ", ";"] [target, target, value.code] (by decide) ?_
    simpa using ⟨holds.1, holds.2.even⟩
  | assign target value =>
    exact Output.leads_statement [] [] ["", " = ", ";"] [target, value.code] (by decide)
      (by simpa using ⟨holds.1, holds.2.even⟩)
  | keepChildren target identity =>
    exact Output.leads_statement [] [] ["", " = ", ";"] [target, Output.children identity] (by decide)
      (by simpa using ⟨holds, children identity⟩)
  | useState target name initial =>
    have kept : (Code.concat [Output.state, "[", Text.quoted name, "]"]).Even scope :=
      state.append (even_fill ["[", "]"] [Text.quoted name] (by decide) (by simpa using quoted name))
    have first : (initial.elim ("null" : Code) Operand.code).Even scope := by
      cases initial with
      | none => exact even_quiet (by decide)
      | some value => exact (holds.2 value rfl).even
    refine Output.leads_statement [] [] ["", " = isset(", ") ? ", " : ", ";"]
      [target, Code.concat [Output.state, "[", Text.quoted name, "]"], Code.concat [Output.state, "[", Text.quoted name, "]"],
        initial.elim ("null" : Code) Operand.code] (by decide) ?_
    simpa using ⟨holds.1, kept, first⟩
  | importComponent name path extension =>
    refine Output.leads_statement [] [] ["", "[", "] = include(__DIR__ . \"/\" . ", " . ", ");"]
      [Output.components, Text.quoted name, path.code, Text.quoted extension] (by decide) ?_
    simpa using ⟨components, quoted name, Operand.Holds.even holds, quoted extension⟩
  | callComponent identity sink attrsOf name childrenOf =>
    have own : (childrenOf.elim ("[]" : Code) fun identity => (Output.children identity : Code)).Even scope := by
      cases childrenOf with
      | none => exact even_fill ["[]"] [] (by decide) (List.forall_mem_nil _)
      | some below => exact children below
    have called := @Output.leads_statement scope [] [] ["", " = ", "[", "](", ", ", ", true, ", ");"]
      [Output.result identity, Output.components, Text.quoted name, Output.attrs attrsOf, _, Output.state] (by decide)
      (by simpa using ⟨result identity, components, quoted name, attrs attrsOf, own, state⟩)
    have appended := @Output.leads_statement scope [] [] ["foreach (", " as ", ") \x7b ", "[] = ", "; \x7d"]
      [Output.result identity, Output.item identity, Output.children sink, Output.item identity] (by decide)
      (by simpa using ⟨result identity, item identity, children sink, item identity⟩)
    have both := called.append appended
    rw [← Code.render_append] at both
    exact both
  | openIf test =>
    exact Output.leads_statement [] [.curly] ["if (", ") \x7b"] [test.code] (by decide)
      (by simpa using Operand.Holds.even holds)
  | openLoop source binding =>
    have bound : binding.code.Even scope := by
      obtain ⟨key, item⟩ := binding
      cases key with
      | none => exact holds.2.2
      | some key => exact (holds.2.1 key rfl).append (even_fill [" => ", ""] [item] (by decide) (by simpa using holds.2.2))
    exact Output.leads_statement [] [.curly] ["foreach (", " as ", ") \x7b"] [source.code, binding.code] (by decide)
      (by simpa using ⟨holds.1.even, bound⟩)
  | elseIf test =>
    exact Output.leads_statement [.curly] [.curly] ["\x7d else if (", ") \x7b"] [test.code] (by decide)
      (by simpa using Operand.Holds.even holds)
  | otherwise => exact Output.leads_statement [.curly] [.curly] ["\x7d else \x7b"] [] (by decide) (List.forall_mem_nil _)
  | close => exact Output.leads_statement [.curly] [] ["\x7d"] [] (by decide) (List.forall_mem_nil _)

theorem change_of_level {line : Line} {depth next : Nat} (moved : line.level depth = some next) :
    ∃ outer, List.replicate depth Bracket.curly = line.change.1 ++ outer ∧
      List.replicate next Bracket.curly = line.change.2 ++ outer := by
  -- The lines that close a block stand in one.
  have within : depth ≠ 0 → List.replicate depth Bracket.curly = .curly :: List.replicate (depth - 1) .curly := by
    intro deep
    rw [← List.replicate_succ, Nat.sub_add_cancel (Nat.pos_of_ne_zero deep)]
  cases line with
  | elseIf test =>
    obtain ⟨deep, same⟩ := Option.ite_none_left_eq_some.mp moved
    cases same
    exact ⟨List.replicate (depth - 1) .curly, within deep, within deep⟩
  | otherwise =>
    obtain ⟨deep, same⟩ := Option.ite_none_left_eq_some.mp moved
    cases same
    exact ⟨List.replicate (depth - 1) .curly, within deep, within deep⟩
  | close =>
    obtain ⟨deep, same⟩ := Option.ite_none_left_eq_some.mp moved
    cases same
    exact ⟨List.replicate (depth - 1) .curly, within deep, rfl⟩
  | _ =>
    cases moved
    exact ⟨List.replicate depth .curly, rfl, rfl⟩

-- A line changes the nesting as it changes the level.
theorem leads_level {line : Line} (holds : line.Holds (Code.Even scope) (Code.Even scope)) {depth next : Nat}
    (moved : line.level depth = some next) : Text.Leads ⟨List.replicate depth .curly, false⟩
      ⟨List.replicate next .curly, false⟩ (line.code.render scope) := by
  obtain ⟨outer, before, after⟩ := change_of_level moved
  rw [before, after]
  exact (line.leads holds).below outer

theorem leads_levels {lines : List Line} (holds : ∀ line ∈ lines, line.Holds (Code.Even scope) (Code.Even scope))
    {depth next : Nat} (moved : levels lines depth = some next) : Text.Leads ⟨List.replicate depth .curly, false⟩
      ⟨List.replicate next .curly, false⟩ ((codes lines).render scope) := by
  induction lines generalizing depth with
  | nil =>
    cases moved
    exact Text.even_empty.leads _
  | cons line rest ih =>
    obtain ⟨middle, first, behind⟩ := Option.bind_eq_some_iff.mp moved
    rw [codes_cons, Code.render_append]
    refine (leads_level (holds line List.mem_cons_self) first).append (ih (fun other member => ?_) behind)
    exact holds other (List.mem_cons_of_mem _ member)

end Line

namespace Output

theorem leads_opening : Text.Leads ⟨[], false⟩ ⟨[.curly], false⟩ opening := Text.leads_fixed (by decide +kernel)

theorem signs_closing : Text.signs closing = [.enter, .closes .curly] := by decide +kernel

end Output

namespace Template

-- The output closes each bracket with one of its kind and none that is not open, its blocks of code follow one another,
-- and the last one, which stays open, is that of the closing text, if no text that is taken over has a bracket, a
-- quote or a character with which a limit of a block begins.
theorem compile_balanced (template : Template) (options : Options) (loader : Loader) (shared : Names) (text : String)
    (success : (template.compile options loader shared).1 = .ok text)
    (inert : ∀ raw ∈ Node.allRaws (template.inlined options loader).nodes, Text.isInert raw = true) :
    Nesting.run ⟨[], false⟩ (Text.signs text) = some ⟨[], true⟩ ∧
      ∃ front, text = front ++ Output.closing ∧ Text.signs text = Text.signs front ++ [.enter, .closes .curly] ∧
        Nesting.run ⟨[], false⟩ (Text.signs front) = some ⟨[.curly], false⟩ := by
  obtain ⟨lines, _, written, same⟩ := written success
  rw [Line.file_eq] at same
  have closes : Line.levels lines 1 = some 1 := by
    have moves : Line.Moves lines 0 _ := written.moves
    rw [Written.depth_outside (l := .start options shared) written] at moves
    exact moves 1
  have holds := (@Expr.sources_even (template.walk options loader shared).2.scope _ inert).holds_written written (List.Subset.refl _)
  have front := Output.leads_opening.append (Line.leads_levels holds closes)
  subst same
  have signs := Text.signs_append front.whole Output.closing
  rw [Output.signs_closing] at signs
  refine ⟨?_, _, rfl, signs, front.run⟩
  rw [signs, Nesting.run_append, front.run]
  rfl

-- A chain of cases whose second one calls a function of the template's own, with texts that look like code.
def bracketTexts : Template :=
  ⟨[.tag 1 ⟨"switch", [], false⟩
    [.tag 2 ⟨"case", [⟨.literal "test", some (.expression (.binary .less (.var "n" []) (.const "MAX"))), .zero⟩], false⟩
      [.leaf 3 (.text "?> \x7d \"(") .zero] .zero,
    .tag 4 ⟨"case", [⟨.literal "test", some (.expression (.var "open" [])), .zero⟩], false⟩
      [.leaf 5 (.block (.call (.var "wrap" []) [.array [.plain (.str "]")]])) .zero] .zero] .zero]⟩

theorem compile_balanced_bracketTexts : Node.allRaws (bracketTexts.inlined .standard noParts).nodes = ["MAX", "wrap"] ∧
    ∃ text, (bracketTexts.compile .standard noParts []).1 = .ok text ∧
      Nesting.run ⟨[], false⟩ (Text.signs text) = some ⟨[], true⟩ := by
  have raws : Node.allRaws (bracketTexts.inlined .standard noParts).nodes = ["MAX", "wrap"] := by decide +kernel
  have compiled : (bracketTexts.compile .standard noParts []).1.isOk = true := by decide +kernel
  obtain ⟨text, success⟩ := exists_text compiled
  refine ⟨raws, text, success, ?_⟩
  refine (compile_balanced bracketTexts .standard noParts [] text success ?_).1
  rw [raws]
  decide

end Template

end Stencil
