import Stencil.Code

-- The shape of the generated code: a closure that returns a list of node records. Every tag appends its
-- records to the accumulator of the tag around it, and builds its attributes in a variable of its own.

namespace Stencil.Output

open Text (quoted)

-- The accumulator that the closure returns.
def rootSink : Nat := 0

def opening : String :=
  "<?php\n\nreturn function ($__data = [], $__children = [], $__isComponent = false, $__state = []) \x7b\n" ++
  "$__scope = [];\n$__components = [];\n$children0 = [];\n?>\n"

def closing : String := "<?php\nreturn $children0;\n\x7d;\n"

def children (identity : Nat) : String := "$children" ++ toString identity

def attrs (identity : Nat) : String := "$attrs" ++ toString identity

def result (identity : Nat) : String := "$result" ++ toString identity

def item (identity : Nat) : String := "$item" ++ toString identity

def components : String := "$__components"

def state : String := "$__state"

-- A statement of several pieces, in a block of its own.
def statement (pieces : List Code) : Code := Code.statement (Code.concat pieces)

def closeBlock : Code := statement ["\x7d"]

-- Makes a variable an empty list.
def reset (name : String) : Code := statement [name, " = [];"]

def assign (target value : Code) : Code := statement [target, " = ", value, ";"]

def assignAttr (identity : Nat) (name value : Code) : Code :=
  statement [attrs identity, "[", name, "] = ", value, ";"]

-- Appends a record with one field.
def record (sink : Nat) (key text : String) : Code :=
  statement [children sink, "[] = [", quoted key, " => ", quoted text, "];"]

def scriptRecord (sink attrsOf : Nat) (body : String) : Code :=
  statement [children sink, "[] = [\"script\" => [\"attrs\" => ", attrs attrsOf, ", \"body\" => ", quoted body, "]];"]

-- Appends the record of a tag, with its children if it has a list of them.
def tagRecord (sink attrsOf : Nat) (name : String) (childrenOf : Option Nat) : Code :=
  let own := match childrenOf with
    | some identity => ", \"children\" => " ++ children identity
    | none => ""
  statement [children sink, "[] = [\"tag\" => ", quoted name, ", \"attrs\" => ", attrs attrsOf, own, "];"]

-- Appends the value of an expression: a record as it is, a list of records one by one, anything else as
-- text.
def expressionBlock (identity sink : Nat) (value : Code) : Code :=
  let result := result identity
  let item := item identity
  let children := children sink
  let append :=
    ";\nif (is_array(" ++ result ++ ")) \x7b\n" ++
    "  if (isset(" ++ result ++ "[\"tag\"]) || isset(" ++ result ++ "[\"text\"]) || isset(" ++
    result ++ "[\"comment\"]) || isset(" ++ result ++ "[\"script\"])) \x7b\n" ++
    "    " ++ children ++ "[] = " ++ result ++ ";\n" ++
    "  \x7d else \x7b\n" ++
    "    foreach (" ++ result ++ " as " ++ item ++ ") \x7b\n" ++
    "      " ++ children ++ "[] = " ++ item ++ ";\n" ++
    "    \x7d\n" ++
    "  \x7d\n" ++
    "\x7d else \x7b\n" ++
    "  " ++ children ++ "[] = [\"text\" => " ++ result ++ "];\n" ++
    "\x7d"
  statement [result, " = ", value, append]

def conditional (test body : Code) : Code :=
  Code.concat [statement ["if (", test, ") \x7b"], body, closeBlock]

def loop (source binding body : Code) : Code :=
  Code.concat [statement ["foreach (", source, " as ", binding, ") \x7b"], body, closeBlock]

def firstCase (test body : Code) : Code := statement ["if (", test, ") \x7b"] ++ body

def nextCase (test body : Code) : Code := statement ["\x7d else if (", test, ") \x7b"] ++ body

def lastCase (body : Code) : Code := statement ["\x7d else \x7b"] ++ body

-- Gives a parameter its default value.
def parameter (target value : Code) : Code :=
  statement ["if (!isset(", target, ")) ", target, " = ", value, ";"]

def importComponent (name : String) (path : Code) (extension : String) : Code :=
  statement [components, "[", quoted name, "] = include(__DIR__ . \"/\" . ", path, " . ", quoted extension, ");"]

-- Calls a component and appends the records that it returns.
def callComponent (identity sink attrsOf : Nat) (name : String) (children : Code) : Code :=
  statement [result identity, " = ", components, "[", quoted name, "](", attrs attrsOf, ", ", children,
    ", true, ", state, ");"] ++
  statement ["foreach (", result identity, " as ", item identity, ") \x7b ", Output.children sink, "[] = ",
    item identity, "; \x7d"]

-- Takes a variable from the kept state, or gives it its first value.
def useState (target : Code) (name : String) (initial : Code) : Code :=
  let kept : Code := Code.concat [state, "[", quoted name, "]"]
  statement [target, " = isset(", kept, ") ? ", kept, " : ", initial, ";"]

end Stencil.Output
