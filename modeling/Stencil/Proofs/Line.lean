import Stencil.Output

-- Generated code line by line. The walk writes code piece by piece; a line keeps what such a piece is made
-- of, and the code of a list of lines is what the walk writes.

namespace Stencil

namespace Chunk

-- Taking chunks in front of others may begin with the first of them.
theorem foldr_cons (chunk : Chunk) {rest : List Chunk} (normal : Normal rest) (back : List Chunk) :
    (cons chunk rest).foldr cons back = cons chunk (rest.foldr cons back) := by
  cases chunk with
  | root name => rfl
  | text value =>
    by_cases filled : value = ""
    · subst filled; rfl
    · cases rest with
      | nil => simp [cons, filled]
      | cons head tail =>
        cases head with
        | root name => simp [cons, filled]
        | text next =>
          -- The two texts join first, or the second joins what comes behind it.
          have some : next ≠ "" := normal.1
          have joined : value ++ next ≠ "" := by simp [filled]
          simp only [cons, filled, if_false, List.foldr_cons, joined, some]
          cases tail.foldr cons back with
          | nil => rfl
          | cons first more => cases first <;> simp [String.append_assoc]

theorem foldr_foldr (front : List Chunk) {middle : List Chunk} (normal : Normal middle) (back : List Chunk) :
    (front.foldr cons middle).foldr cons back = front.foldr cons (middle.foldr cons back) := by
  induction front with
  | nil => rfl
  | cons chunk rest ih =>
    rw [List.foldr_cons, foldr_cons chunk (Code.normal_foldr rest normal), ih, List.foldr_cons]

theorem foldr_nil {chunks : List Chunk} (normal : Normal chunks) : chunks.foldr cons [] = chunks := by
  induction chunks with
  | nil => rfl
  | cons chunk rest ih =>
    cases chunk with
    | root name => rw [List.foldr_cons, ih normal]; rfl
    | text value =>
      obtain ⟨filled, apart, tail⟩ := normal
      rw [List.foldr_cons, ih tail]
      cases rest with
      | nil => simp [cons, filled]
      | cons head more =>
        cases head with
        | root name => simp [cons, filled]
        | text next => simp [startsWithText] at apart

end Chunk

namespace Code

theorem ext {a b : Code} (same : a.chunks = b.chunks) : a = b := by
  cases a; cases b; cases same; rfl

theorem append_assoc (a b c : Code) : a ++ b ++ c = a ++ (b ++ c) :=
  ext (Chunk.foldr_foldr a.chunks b.normal c.chunks)

@[simp] theorem empty_append (a : Code) : empty ++ a = a := rfl

@[simp] theorem append_empty (a : Code) : a ++ empty = a := ext (Chunk.foldr_nil a.normal)

@[simp] theorem concat_nil : concat [] = empty := rfl

@[simp] theorem concat_cons (part : Code) (rest : List Code) : concat (part :: rest) = part ++ concat rest := rfl

section Render

variable (scope : Scope)

theorem render_cons (chunk : Chunk) (rest : List Chunk) :
    String.join ((Chunk.cons chunk rest).map (Chunk.render scope)) =
      chunk.render scope ++ String.join (rest.map (Chunk.render scope)) := by
  cases chunk with
  | root name => simp [Chunk.cons]
  | text value =>
    by_cases filled : value = ""
    · simp [Chunk.cons, Chunk.render, filled]
    · cases rest with
      | nil => simp [Chunk.cons, Chunk.render, filled]
      | cons head tail => cases head <;> simp [Chunk.cons, Chunk.render, filled, String.append_assoc]

@[simp] theorem render_append (a b : Code) : (a ++ b).render scope = a.render scope ++ b.render scope := by
  show String.join ((a.chunks.foldr Chunk.cons b.chunks).map (Chunk.render scope)) =
    String.join (a.chunks.map (Chunk.render scope)) ++ b.render scope
  induction a.chunks with
  | nil => simp [render]
  | cons chunk rest ih => rw [List.foldr_cons, render_cons, ih, List.map_cons, String.join_cons, String.append_assoc]

@[simp] theorem render_empty : empty.render scope = "" := rfl

@[simp] theorem render_text (value : String) : (text value).render scope = value := by
  by_cases filled : value = "" <;> simp [text, render, Chunk.cons, Chunk.render, filled, String.join]

theorem render_root (name : String) :
    (root name).render scope = if scope.isLocal name then "$__scope" else "$__data" := by
  simp [render, root, Chunk.render]

end Render

end Code

-- A value in the generated code: fixed text, the value of a flag, or computed.
inductive Operand where
  | text (value : String)
  | flag
  | computed (code : Code)

def Operand.code : Operand → Code
  | .text value => Text.quoted value
  | .flag => "false"
  | .computed code => code

structure Binding where
  key : Option Code
  item : Code

def Binding.code (binding : Binding) : Code :=
  match binding.key with
  | some key => Code.concat [key, " => ", binding.item]
  | none => binding.item

-- The text of an operand, of a binding and of a line, letter by letter, once the local names are known.
def Operand.print (scope : Scope) : Operand → String
  | .text value => Text.quoted value
  | .flag => "false"
  | .computed code => code.render scope

def Binding.print (scope : Scope) (binding : Binding) : String :=
  match binding.key with
  | some key => key.render scope ++ " => " ++ binding.item.render scope
  | none => binding.item.render scope

inductive Line where
  | resetAttrs (attrsOf : Nat)
  | resetChildren (identity : Nat)
  | assignAttr (attrsOf : Nat) (name value : Operand)
  | record (sink : Nat) (key text : String)
  | scriptRecord (sink attrsOf : Nat) (body : String)
  | tagRecord (sink attrsOf : Nat) (name : String) (childrenOf : Option Nat)
  | expressionBlock (identity sink : Nat) (value : Code)
  | parameter (target : Code) (value : Operand)
  | assign (target : Code) (value : Operand)
  | keepChildren (target : Code) (identity : Nat)
  | useState (target : Code) (name : String) (initial : Option Operand)
  | importComponent (name : String) (path : Operand) (extension : String)
  | callComponent (identity sink attrsOf : Nat) (name : String) (childrenOf : Option Nat)
  | openIf (test : Operand)
  | openLoop (source : Operand) (binding : Binding)
  | elseIf (test : Operand)
  | otherwise
  | close

namespace Line

def code : Line → Code
  | .resetAttrs attrsOf => Output.reset (Output.attrs attrsOf)
  | .resetChildren identity => Output.reset (Output.children identity)
  | .assignAttr attrsOf name value => Output.assignAttr attrsOf name.code value.code
  | .record sink key text => Output.record sink key text
  | .scriptRecord sink attrsOf body => Output.scriptRecord sink attrsOf body
  | .tagRecord sink attrsOf name childrenOf => Output.tagRecord sink attrsOf name childrenOf
  | .expressionBlock identity sink value => Output.expressionBlock identity sink value
  | .parameter target value => Output.parameter target value.code
  | .assign target value => Output.assign target value.code
  | .keepChildren target identity => Output.assign target (Output.children identity)
  | .useState target name initial => Output.useState target name (initial.elim ("null" : Code) Operand.code)
  | .importComponent name path extension => Output.importComponent name path.code extension
  | .callComponent identity sink attrsOf name childrenOf =>
    Output.callComponent identity sink attrsOf name
      (childrenOf.elim ("[]" : Code) fun identity => (Output.children identity : Code))
  | .openIf test => Output.statement ["if (", test.code, ") \x7b"]
  | .openLoop source binding => Output.statement ["foreach (", source.code, " as ", binding.code, ") \x7b"]
  | .elseIf test => Output.statement ["\x7d else if (", test.code, ") \x7b"]
  | .otherwise => Output.statement ["\x7d else \x7b"]
  | .close => Output.closeBlock

-- The pieces of a line, letter by letter.
def pieces (scope : Scope) : Line → List String
  | .resetAttrs attrsOf => ["<?php $attrs", toString attrsOf, " = []; ?>\n"]
  | .resetChildren identity => ["<?php $children", toString identity, " = []; ?>\n"]
  | .assignAttr attrsOf name value =>
    ["<?php $attrs", toString attrsOf, "[", name.print scope, "] = ", value.print scope, "; ?>\n"]
  | .record sink key text =>
    ["<?php $children", toString sink, "[] = [", Text.quoted key, " => ", Text.quoted text, "]; ?>\n"]
  | .scriptRecord sink attrsOf body =>
    ["<?php $children", toString sink, "[] = [\"script\" => [\"attrs\" => $attrs", toString attrsOf,
      ", \"body\" => ", Text.quoted body, "]]; ?>\n"]
  | .tagRecord sink attrsOf name childrenOf =>
    ["<?php $children", toString sink, "[] = [\"tag\" => ", Text.quoted name, ", \"attrs\" => $attrs",
      toString attrsOf, childrenOf.elim "" fun identity => ", \"children\" => $children" ++ toString identity,
      "]; ?>\n"]
  | .expressionBlock identity sink value =>
    ["<?php $result", toString identity, " = ", value.render scope, ";\nif (is_array($result", toString identity,
      ")) \x7b\n  if (isset($result", toString identity, "[\"tag\"]) || isset($result", toString identity,
      "[\"text\"]) || isset($result", toString identity, "[\"comment\"]) || isset($result", toString identity,
      "[\"script\"])) \x7b\n    $children", toString sink, "[] = $result", toString identity,
      ";\n  \x7d else \x7b\n    foreach ($result", toString identity, " as $item", toString identity,
      ") \x7b\n      $children", toString sink, "[] = $item", toString identity,
      ";\n    \x7d\n  \x7d\n\x7d else \x7b\n  $children", toString sink, "[] = [\"text\" => $result",
      toString identity, "];\n\x7d ?>\n"]
  | .parameter target value =>
    ["<?php if (!isset(", target.render scope, ")) ", target.render scope, " = ", value.print scope, "; ?>\n"]
  | .assign target value => ["<?php ", target.render scope, " = ", value.print scope, "; ?>\n"]
  | .keepChildren target identity => ["<?php ", target.render scope, " = $children", toString identity, "; ?>\n"]
  | .useState target name initial =>
    ["<?php ", target.render scope, " = isset($__state[", Text.quoted name, "]) ? $__state[", Text.quoted name, "] : ",
      initial.elim "null" (Operand.print scope), "; ?>\n"]
  | .importComponent name path extension =>
    ["<?php $__components[", Text.quoted name, "] = include(__DIR__ . \"/\" . ", path.print scope, " . ",
      Text.quoted extension, "); ?>\n"]
  | .callComponent identity sink attrsOf name childrenOf =>
    ["<?php $result", toString identity, " = $__components[", Text.quoted name, "]($attrs", toString attrsOf, ", ",
      childrenOf.elim "[]" fun identity => "$children" ++ toString identity, ", true, $__state); ?>\n",
      "<?php foreach ($result", toString identity, " as $item", toString identity, ") \x7b $children", toString sink,
      "[] = $item", toString identity, "; \x7d ?>\n"]
  | .openIf test => ["<?php if (", test.print scope, ") \x7b ?>\n"]
  | .openLoop source binding =>
    ["<?php foreach (", source.print scope, " as ", binding.print scope, ") \x7b ?>\n"]
  | .elseIf test => ["<?php \x7d else if (", test.print scope, ") \x7b ?>\n"]
  | .otherwise => ["<?php \x7d else \x7b ?>\n"]
  | .close => ["<?php \x7d ?>\n"]

def print (scope : Scope) (line : Line) : String := String.join (line.pieces scope)

-- The file that some lines make up: a closure that returns the records they append.
def file (scope : Scope) (lines : List Line) : String :=
  "<?php\n\nreturn function ($__data = [], $__children = [], $__isComponent = false, $__state = []) \x7b\n" ++
    "$__scope = [];\n$__components = [];\n$children0 = [];\n?>\n" ++ String.join (lines.map (print scope)) ++
    "<?php\nreturn $children0;\n\x7d;\n"

def codes (lines : List Line) : Code := Code.concat (lines.map code)

@[simp] theorem codes_nil : codes [] = Code.empty := rfl

@[simp] theorem codes_cons (line : Line) (rest : List Line) : codes (line :: rest) = line.code ++ codes rest := rfl

@[simp] theorem codes_append (front back : List Line) : codes (front ++ back) = codes front ++ codes back := by
  induction front with
  | nil => rfl
  | cons line rest ih => rw [List.cons_append, codes_cons, ih, codes_cons, Code.append_assoc]

variable (scope : Scope)

@[simp] theorem render_operand (operand : Operand) : operand.code.render scope = operand.print scope := by
  cases operand <;> simp [Operand.code, Operand.print]

@[simp] theorem render_binding (binding : Binding) : binding.code.render scope = binding.print scope := by
  cases key : binding.key <;> simp [Binding.code, Binding.print, key, String.append_assoc]

-- The longest line by itself: the test of a result and the three ways in which it is appended.
set_option maxRecDepth 4000 in
theorem render_expressionBlock (identity sink : Nat) (value : Code) :
    (code (.expressionBlock identity sink value)).render scope = print scope (.expressionBlock identity sink value) := by
  apply String.toList_inj.mp
  simp [code, print, pieces, Output.expressionBlock, Output.statement, Code.statement, Output.children, Output.result,
    Output.item]

theorem render_code (line : Line) : line.code.render scope = line.print scope := by
  apply String.toList_inj.mp
  cases line with
  | tagRecord sink attrsOf name childrenOf =>
    cases childrenOf <;> simp [code, print, pieces, Output.tagRecord, Output.statement, Code.statement,
      Output.children, Output.attrs]
  | useState target name initial =>
    cases initial <;> simp [code, print, pieces, Output.useState, Output.statement, Code.statement, Output.state]
  | callComponent identity sink attrsOf name childrenOf =>
    cases childrenOf <;> simp [code, print, pieces, Output.callComponent, Output.statement, Code.statement,
      Output.children, Output.attrs, Output.result, Output.item, Output.components, Output.state]
  | expressionBlock identity sink value => exact congrArg String.toList (render_expressionBlock scope identity sink value)
  | _ =>
    simp [code, print, pieces, Output.reset, Output.assignAttr, Output.record, Output.scriptRecord, Output.parameter,
      Output.assign, Output.importComponent, Output.closeBlock, Output.statement, Code.statement, Output.children,
      Output.attrs, Output.components]

theorem file_eq (lines : List Line) :
    file scope lines = Output.opening ++ (codes lines).render scope ++ Output.closing := by
  have body : (codes lines).render scope = String.join (lines.map (print scope)) := by
    induction lines with
    | nil => rfl
    | cons line rest ih => rw [codes_cons, Code.render_append, render_code, ih, List.map_cons, String.join_cons]
  rw [body]
  rfl

end Line

end Stencil
