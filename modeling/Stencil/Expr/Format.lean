import Stencil.Expr.Basic
import Stencil.Json.Record

-- Expressions as JSON values. Reading goes from the inside out: each value is read in every way its
-- surroundings may ask for, and a record picks from the readings of its fields. All of these are readings of
-- nested values; a value that stands by itself has to name its type besides.

namespace Stencil

open Json (Body)

-- A value together with what it says as an expression, an entry, or a list of either.
structure Expr.Reading where
  json : Json
  expr : Option Expr
  entry : Option Entry
  exprs : Option (List Expr)
  entries : Option (List Entry)

namespace Expr

-- The types of expressions, in the order of their numbers.
def types : List String :=
  ["var", "const", "str", "num", "binary", "unary", "isset", "ternary", "concat", "array", "range", "func"]

-- The type under which expressions that are not supported are written.
def unsupportedType : String := "unsupported"

def Reading.string? (r : Reading) : Option String := r.json.string?

-- An absent or empty key means an entry without one.
def entryOfBody? (body : Body Reading) : Option Entry :=
  match body.slots? ["key", "value"] with
  | some [key, some value] => do
    let value ← value.expr
    match key with
    | none => some (.plain value)
    | some key => match key.json with
      | .null => some (.plain value)
      | _ => key.expr.map fun key => .keyed key value
  | _ => none

def ofSlots? (kind : String) (body : Body Reading) : Option Expr :=
  match kind with
  | "var" => match body.slots? ["name", "keys"] with
    | some [some name, keys] => do
      some (.var (← name.string?) (← Body.optional keys [] Reading.exprs))
    | _ => none
  | "const" => match body.slots? ["value"] with
    | some [some value] => value.string?.map .const
    | _ => none
  | "str" => match body.slots? ["value"] with
    | some [some value] => value.string?.map .str
    | _ => none
  | "num" => match body.slots? ["value"] with
    | some [some value] => value.json.number?.map .num
    | _ => none
  | "binary" => match body.slots? ["op", "left", "right"] with
    | some [some op, some left, some right] => do
      some (.binary (← op.json.nestedChoice?.bind BinaryOp.ofName?) (← left.expr) (← right.expr))
    | _ => none
  | "unary" => match body.slots? ["op", "value"] with
    | some [some op, some value] => do
      some (.unary (← op.json.nestedChoice?.bind UnaryOp.ofName?) (← value.expr))
    | _ => none
  | "isset" => match body.slots? ["value"] with
    | some [some value] => value.expr.map .isset
    | _ => none
  | "ternary" => match body.slots? ["condition", "consequent", "alternate"] with
    | some [some condition, some consequent, some alternate] => do
      some (.ternary (← condition.expr) (← consequent.expr) (← alternate.expr))
    | _ => none
  | "concat" => match body.slots? ["values"] with
    | some [some values] => values.exprs.map .concat
    | _ => none
  | "array" => match body.slots? ["values"] with
    | some [values] => (Body.optional values [] Reading.entries).map .array
    | _ => none
  | "range" => match body.slots? ["kind", "start", "end"] with
    | some [some kind, some start, some stop] => do
      some (.range (← kind.json.nestedChoice?.bind RangeKind.ofName?) (← start.expr) (← stop.expr))
    | _ => none
  | "func" => match body.slots? ["callee", "args"] with
    | some [some callee, args] => do
      some (.call (← callee.expr) (← Body.optional args [] Reading.exprs))
    | _ => none
  -- Whatever fields it has, an expression of another type is kept as unsupported.
  | _ => match body with
    | .named _ => some .unsupported
    | .listed items => if items.isEmpty then some .unsupported else none

def ofBody? (body : Body Reading) : Option Expr := do
  let (kind, rest) ← body.tagged? fun r => r.json.nestedType? types unsupportedType
  ofSlots? kind rest

mutual

def reading : Json → Reading
  | .array items =>
    let items' := readings items
    ⟨.array items, ofBody? (.listed items'), entryOfBody? (.listed items'),
      items'.mapM Reading.expr, items'.mapM Reading.entry⟩
  | .object fields =>
    let fields' := fieldReadings fields
    ⟨.object fields, ofBody? (.named fields'), entryOfBody? (.named fields'), none, none⟩
  | .null => ⟨.null, none, none, none, none⟩
  | .bool value => ⟨.bool value, none, none, none, none⟩
  | .number value => ⟨.number value, none, none, none, none⟩
  | .string value => ⟨.string value, none, none, none, none⟩
  | .unread => ⟨.unread, none, none, none, none⟩

def readings : List Json → List Reading
  | [] => []
  | item :: rest => reading item :: readings rest

def fieldReadings : List (String × Json) → List (String × Reading)
  | [] => []
  | (name, value) :: rest => (name, reading value) :: fieldReadings rest

end

-- The expression that a nested value stands for.
def ofNested? (json : Json) : Option Expr := (reading json).expr

-- The expression that a value by itself stands for.
def ofJson? (json : Json) : Option Expr := if json.namesType then ofNested? json else none

mutual

def toJson : Expr → Json
  | .var name keys => .object [("type", .string "var"), ("name", .string name), ("keys", .array (toJsons keys))]
  | .const text => .object [("type", .string "const"), ("value", .string text)]
  | .str text => .object [("type", .string "str"), ("value", .string text)]
  | .num value => .object [("type", .string "num"), ("value", .number value)]
  | .binary op left right =>
    .object [("type", .string "binary"), ("op", .string op.name), ("left", toJson left), ("right", toJson right)]
  | .unary op value => .object [("type", .string "unary"), ("op", .string op.name), ("value", toJson value)]
  | .isset value => .object [("type", .string "isset"), ("value", toJson value)]
  | .ternary condition consequent alternate =>
    .object [("type", .string "ternary"), ("condition", toJson condition), ("consequent", toJson consequent),
      ("alternate", toJson alternate)]
  | .concat values => .object [("type", .string "concat"), ("values", .array (toJsons values))]
  | .array entries => .object [("type", .string "array"), ("values", .array (entriesToJson entries))]
  | .range kind start stop =>
    .object [("type", .string "range"), ("kind", .string kind.name), ("start", toJson start), ("end", toJson stop)]
  | .call callee args =>
    .object [("type", .string "func"), ("callee", toJson callee), ("args", .array (toJsons args))]
  | .unsupported => .object [("type", .string unsupportedType)]

def toJsons : List Expr → List Json
  | [] => []
  | value :: rest => toJson value :: toJsons rest

def entryToJson : Entry → Json
  | .plain value => .object [("key", .null), ("value", toJson value)]
  | .keyed key value => .object [("key", toJson key), ("value", toJson value)]

def entriesToJson : List Entry → List Json
  | [] => []
  | entry :: rest => entryToJson entry :: entriesToJson rest

end

end Expr

end Stencil
