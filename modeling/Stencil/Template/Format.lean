import Stencil.Expr.Format
import Stencil.Json.Reader
import Stencil.Template.Basic

-- Templates as JSON values and as JSON texts.

namespace Stencil

open Json (Body)

namespace Location

def ofJson? (json : Json) : Option Location := do
  match (← json.body?).slots? ["line", "column"] with
  | some [some line, some column] => some ⟨← line.word?, ← column.word?⟩
  | _ => none

def toJson (location : Location) : Json :=
  .object [("line", Json.ofWord location.line), ("column", Json.ofWord location.column)]

end Location

namespace Part

-- The types of parts, in the order of their numbers.
def types : List String := ["string", "logic"]

-- The part that a nested value stands for.
def ofNested? (json : Json) : Option Part := do
  let (kind, body) ← (← json.body?).tagged? (Json.nestedType? types none)
  match kind with
  | "string" => match body.slots? ["value"] with
    | some [some value] => value.string?.map .literal
    | _ => none
  | "logic" => match body.slots? ["expr"] with
    | some [some expr] => (Expr.ofNested? expr).map .expression
    | _ => none
  | _ => none

-- The part that a value outside of tagged records stands for.
def ofJson? (json : Json) : Option Part := if json.namesType then ofNested? json else none

def toJson : Part → Json
  | .literal text => .object [("type", .string "string"), ("value", .string text)]
  | .expression expr => .object [("type", .string "logic"), ("expr", expr.toJson)]

end Part

namespace Attr

-- An empty value means a flag.
def valueOf? (part? : Json → Option Part) : Json → Option (Option Part)
  | .null => some none
  | json => (part? json).map some

-- An attribute whose name and value are read by `part?`.
def ofParts? (part? : Json → Option Part) (json : Json) : Option Attr := do
  match (← json.body?).slots? ["name", "value", "location"] with
  | some [some name, value, location] =>
    some ⟨← part? name, ← Body.optional value none (valueOf? part?),
      ← Body.optional location .zero Location.ofJson?⟩
  | _ => none

-- The attribute that a value outside of tagged records stands for. An attribute has no type itself, so its
-- name and value stand outside of tagged records too.
def ofJson? (json : Json) : Option Attr := ofParts? Part.ofJson? json

-- The attribute that a nested value stands for.
def ofNested? (json : Json) : Option Attr := ofParts? Part.ofNested? json

def toJson (attr : Attr) : Json :=
  .object [("name", attr.name.toJson), ("value", (attr.value.map Part.toJson).getD .null),
    ("location", attr.location.toJson)]

def listOfJson? (json : Json) : Option (List Attr) := do (← json.array?).mapM ofJson?

end Attr

-- A value together with what it says, nested, as a node or a list of nodes.
structure Node.Reading where
  json : Json
  node : Option Node
  nodes : Option (List Node)

namespace Node

-- The types of nodes, in the order of their numbers.
def types : List String := ["tag", "text", "comment", "string", "logic", "logic-node", "script"]

def Reading.string? (r : Reading) : Option String := r.json.string?

def location? (slot : Option Reading) : Option Location :=
  Body.optional slot .zero fun r => Location.ofJson? r.json

def attrs? (slot : Option Reading) : Option (List Attr) :=
  Body.optional slot [] fun r => do (← r.json.array?).mapM Attr.ofNested?

def leaf? (id : Reading) (location : Option Reading) (leaf : Leaf) : Option Node := do
  some (.leaf (← id.json.word?) leaf (← location? location))

def ofSlots? (kind : String) (body : Body Reading) : Option Node :=
  match kind with
  | "tag" => match body.slots? ["id", "name", "attrs", "isSingle", "children", "location"] with
    | some [some id, some name, attrs, selfClosing, children, location] => do
      let tag := ⟨← name.string?, ← attrs? attrs, ← Body.optional selfClosing false fun r => r.json.bool?⟩
      some (.tag (← id.json.word?) tag (← Body.optional children [] Reading.nodes) (← location? location))
    | _ => none
  | "text" => match body.slots? ["id", "text", "location"] with
    | some [some id, some text, location] => do leaf? id location (.text (← text.string?))
    | _ => none
  | "comment" => match body.slots? ["id", "value", "location"] with
    | some [some id, some value, location] => do leaf? id location (.comment (← value.string?))
    | _ => none
  | "string" => match body.slots? ["id", "value", "location"] with
    | some [some id, some value, location] => do leaf? id location (.string (← value.string?))
    | _ => none
  | "logic" => match body.slots? ["id", "expr", "location"] with
    | some [some id, some expr, location] => do leaf? id location (.slot (← Expr.ofNested? expr.json))
    | _ => none
  | "logic-node" => match body.slots? ["id", "expr", "location"] with
    | some [some id, some expr, location] => do leaf? id location (.block (← Expr.ofNested? expr.json))
    | _ => none
  | "script" => match body.slots? ["id", "attrs", "body", "location"] with
    | some [some id, attrs, text, location] => do
      leaf? id location (.script (← attrs? attrs) (← Body.optional text "" Reading.string?))
    | _ => none
  | _ => none

def ofBody? (body : Body Reading) : Option Node := do
  let (kind, rest) ← body.tagged? fun r => r.json.nestedType? types none
  ofSlots? kind rest

mutual

def reading : Json → Reading
  | .array items =>
    let items' := readings items
    ⟨.array items, ofBody? (.listed items'), items'.mapM Reading.node⟩
  | .object fields => ⟨.object fields, ofBody? (.named (fieldReadings fields)), none⟩
  | .null => ⟨.null, none, none⟩
  | .bool value => ⟨.bool value, none, none⟩
  | .number value => ⟨.number value, none, none⟩
  | .string value => ⟨.string value, none, none⟩
  | .unread => ⟨.unread, none, none⟩

def readings : List Json → List Reading
  | [] => []
  | item :: rest => reading item :: readings rest

def fieldReadings : List (String × Json) → List (String × Reading)
  | [] => []
  | (name, value) :: rest => (name, reading value) :: fieldReadings rest

end

-- The node that a value outside of tagged records stands for.
def ofJson? (json : Json) : Option Node := if json.namesType then (reading json).node else none

def listOfJson? (json : Json) : Option (List Node) := do (← json.array?).mapM ofJson?

def leafToJson (identity : UInt32) (location : Location) (leaf : Leaf) : Json :=
  let common (kind : String) (own : List (String × Json)) : Json :=
    .object (("type", .string kind) :: ("id", Json.ofWord identity) :: own ++ [("location", location.toJson)])
  match leaf with
  | .text value => common "text" [("text", .string value)]
  | .comment value => common "comment" [("value", .string value)]
  | .string value => common "string" [("value", .string value)]
  | .slot expr => common "logic" [("expr", expr.toJson)]
  | .block expr => common "logic-node" [("expr", expr.toJson)]
  | .script attrs body => common "script" [("attrs", .array (attrs.map Attr.toJson)), ("body", .string body)]

mutual

def toJson : Node → Json
  | .tag identity header children location =>
    .object [("type", .string "tag"), ("id", Json.ofWord identity), ("name", .string header.name),
      ("attrs", .array (header.attrs.map Attr.toJson)), ("isSingle", .bool header.selfClosing),
      ("children", .array (toJsons children)), ("location", location.toJson)]
  | .leaf identity content location => leafToJson identity location content

def toJsons : List Node → List Json
  | [] => []
  | node :: rest => toJson node :: toJsons rest

end

end Node

-- Whether the given fields of a record, the first it declares, can be read in full. Of the other fields
-- only the writing has been checked.
def Json.declaredReadable (names : List String) (limit : Nat) : Json → Bool
  | .object fields => fields.all fun field => !names.contains field.1 || field.2.isReadable limit
  | .array items => (items.take names.length).all (Json.isReadable limit)
  | _ => true

namespace Template

def ofJson? (json : Json) : Option Template := do
  match (← json.body?).slots? ["nodes"] with
  | some [nodes] => (Body.optional nodes [] Node.listOfJson?).map Template.mk
  | _ => none

def toJson (template : Template) : Json := .object [("nodes", .array (Node.toJsons template.nodes))]

def ofText? (text : String) : Option Template := do
  let json ← Json.ofText? text
  if json.declaredReadable ["nodes"] (Json.depthLimit - 1) then ofJson? json else none

end Template

-- Reads a text as a value that is read in full.
def Json.ofFullText? (text : String) : Option Json := do
  let json ← Json.ofText? text
  if json.isReadable Json.depthLimit then some json else none

namespace Attr

-- Reads a text as an attribute. Its location is a record of its own, so undeclared fields of the location
-- need no value either.
def ofText? (text : String) : Option Attr := do
  let json ← Json.ofText? text
  if json.declaredReadable ["name", "value"] (Json.depthLimit - 1) then ofJson? json else none

end Attr

end Stencil
