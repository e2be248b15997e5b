import Stencil.Json.Basic

-- Records in the template format. A record gives its fields by name in any order, or lists their values in
-- the declared order; a tagged record gives its type first or in the field `type`. A record that stands inside a
-- tagged record is nested, and may be written a little more freely than one that stands by itself.

namespace Stencil.Json

-- The contents of a record: fields by name, or values in the declared order.
inductive Body (α : Type) where
  | named (fields : List (String × α))
  | listed (items : List α)

namespace Body

variable {α : Type}

-- The value of a field that may be absent; fails when the field is repeated.
def field? (fields : List (String × α)) (name : String) : Option (Option α) :=
  match fields.filter fun field => field.1 = name with
  | [] => some none
  | [field] => some (some field.2)
  | _ => none

-- The values of the declared fields, in order. Unknown names are passed over, a repeated field or a list
-- with too many values is refused.
def slots? (names : List String) : Body α → Option (List (Option α))
  | .named fields => names.mapM (field? fields)
  | .listed items =>
    if items.length ≤ names.length then
      some (items.map some ++ List.replicate (names.length - items.length) none)
    else none

-- The type of a tagged record, and the rest of it.
def tagged? (type? : α → Option String) : Body α → Option (String × Body α)
  | .named fields => do
    let tag ← (← field? fields "type")
    let kind ← type? tag
    some (kind, .named fields)
  | .listed [] => none
  | .listed (tag :: rest) => (type? tag).map fun kind => (kind, .listed rest)

-- A field with a default may be missing.
def optional {β : Type} (slot : Option α) (absent : β) (read? : α → Option β) : Option β :=
  match slot with
  | none => some absent
  | some value => read? value

end Body

-- The contents of a value that can be a record.
def body? : Json → Option (Body Json)
  | .object fields => some (.named fields)
  | .array items => some (.listed items)
  | _ => none

def string? : Json → Option String
  | .string value => some value
  | _ => none

def bool? : Json → Option Bool
  | .bool value => some value
  | _ => none

def number? : Json → Option Number
  | .number value => some value
  | _ => none

def array? : Json → Option (List Json)
  | .array items => some items
  | _ => none

-- An integer of 32 bits, written without fraction and exponent.
def word? : Json → Option UInt32
  | .number (.integer value) => if 0 ≤ value && value < Nat.pow 2 32 then some value.toNat.toUInt32 else none
  | _ => none

-- The name of a choice: written alone, or as the only field of an object that holds nothing else.
def choice? : Json → Option String
  | .string value => some value
  | .object [(name, .null)] => some name
  | _ => none

-- The name of a choice in a nested record. Its field may also hold an empty object.
def nestedChoice? : Json → Option String
  | .object [(name, .object [])] => some name
  | json => json.choice?

-- The type of a nested record: by its name, or by its number in the order of the declared types. A number
-- beyond them means the type `other`, if there is one.
def nestedType? (types : List String) (other : Option String) : Json → Option String
  | .string name => some name
  | .number (.integer value) => if 0 ≤ value then types[value.toNat]?.or other else none
  | _ => none

-- Whether a tagged record gives its type by name. Only a nested record need not.
def namesType : Json → Bool
  | .object fields => fields.any fun field => field.1 = "type" && field.2.string?.isSome
  | .array (tag :: _) => tag.string?.isSome
  | _ => false

def ofWord (value : UInt32) : Json := .number (.integer value.toNat)

end Stencil.Json
