import Stencil.Json.Basic
import Stencil.Json.Token

-- Reading JSON texts. The reader takes one token at a time and keeps a stack of the arrays and objects
-- that are still open.

namespace Stencil.Json

-- An open array or object; what it holds so far is kept in reverse.
inductive Frame where
  | items (done : List Json)
  | fields (done : List (Option String × Json)) (name : Option String)

-- What may come next.
inductive Phase where
  | value
  | valueOrClose
  | name
  | nameOrClose
  | colon
  | separator
  | finished (value : Json)

structure Reader where
  stack : List Frame
  phase : Phase

-- An object one of whose names has no value has none either.
def ofFields (fields : List (Option String × Json)) : Json :=
  match fields.mapM fun field => field.1.map fun name => (name, field.2) with
  | some named => .object named
  | none => .unread

namespace Reader

def start : Reader := ⟨[], .value⟩

-- Puts a finished value where it belongs.
def complete (stack : List Frame) (value : Json) : Reader :=
  match stack with
  | [] => ⟨[], .finished value⟩
  | .items done :: rest => ⟨.items (value :: done) :: rest, .separator⟩
  | .fields done name :: rest => ⟨.fields ((name, value) :: done) none :: rest, .separator⟩

def scalar? : Token → Option Json
  | .null => some .null
  | .bool value => some (.bool value)
  | .number value => some ((value.map Json.number).getD .unread)
  | .string value => some ((value.map Json.string).getD .unread)
  | _ => none

-- Begins a value.
def begin? (stack : List Frame) : Token → Option Reader
  | .openArray => some ⟨.items [] :: stack, .valueOrClose⟩
  | .openObject => some ⟨.fields [] none :: stack, .nameOrClose⟩
  | token => (scalar? token).map (complete stack)

def named? (stack : List Frame) (name : Option String) : Option Reader :=
  match stack with
  | .fields done _ :: rest => some ⟨.fields done name :: rest, .colon⟩
  | _ => none

-- Closes the innermost array or object.
def close? (stack : List Frame) : Token → Option Reader
  | .closeArray => match stack with
    | .items done :: rest => some (complete rest (.array done.reverse))
    | _ => none
  | .closeObject => match stack with
    | .fields done _ :: rest => some (complete rest (ofFields done.reverse))
    | _ => none
  | _ => none

def step? (r : Reader) (token : Token) : Option Reader :=
  match r.phase with
  | .value => begin? r.stack token
  | .valueOrClose => match token with
    | .closeArray => close? r.stack token
    | _ => begin? r.stack token
  | .name => match token with
    | .string name => named? r.stack name
    | _ => none
  | .nameOrClose => match token with
    | .string name => named? r.stack name
    | .closeObject => close? r.stack token
    | _ => none
  | .colon => match token with
    | .colon => some ⟨r.stack, .value⟩
    | _ => none
  | .separator => match token with
    | .comma => match r.stack with
      | .items _ :: _ => some ⟨r.stack, .value⟩
      | .fields _ _ :: _ => some ⟨r.stack, .name⟩
      | [] => none
    | _ => close? r.stack token
  | .finished _ => none

end Reader

-- Reads a whole text as one value.
def ofText? (text : String) : Option Json := do
  let tokens ← Token.scan? text.toList
  let reader ← tokens.foldlM Reader.step? Reader.start
  match reader.phase with
  | .finished value => some value
  | _ => none

end Stencil.Json
