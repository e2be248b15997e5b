import Stencil.Json.Number

-- JSON values. Fields keep their order and repetitions, since a reader of records has to see both.

namespace Stencil

-- A JSON value. `unread` stands for a text that is written correctly but has no value: a numeral too
-- large for a double, or a string with an unpaired surrogate.
inductive Json where
  | null
  | bool (value : Bool)
  | number (value : Number)
  | string (value : String)
  | array (items : List Json)
  | object (fields : List (String × Json))
  | unread

namespace Json

mutual

-- Whether every part has a value and arrays and objects nest at most `limit` deep.
def isReadable : Nat → Json → Bool
  | _, .null => true
  | _, .bool _ => true
  | _, .number _ => true
  | _, .string _ => true
  | 0, .array _ => false
  | 0, .object _ => false
  | limit + 1, .array items => areReadable limit items
  | limit + 1, .object fields => fieldsAreReadable limit fields
  | _, .unread => false

def areReadable : Nat → List Json → Bool
  | _, [] => true
  | limit, item :: rest => isReadable limit item && areReadable limit rest

def fieldsAreReadable : Nat → List (String × Json) → Bool
  | _, [] => true
  | limit, (_, value) :: rest => isReadable limit value && fieldsAreReadable limit rest

end

-- How deep arrays and objects may nest in a text that is read in full.
def depthLimit : Nat := 127

end Json

end Stencil
