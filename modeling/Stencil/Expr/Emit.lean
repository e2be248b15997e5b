import Stencil.Builtin
import Stencil.Code

-- The code of expressions. It never depends on the scope: roots of variables are left open. What an
-- expression does to the scope is said separately, by the context it stands in.

namespace Stencil

open Text (quoted)

namespace Expr

def rangeMode : RangeKind → String
  | .halfOpen => "MKARR_OPEN"
  | .closed => "MKARR_CLOSE"

def unaryCode (op : UnaryOp) (value : Code) : Code :=
  match op with
  | .not => Code.concat ["!", value]
  | .bitNot => Code.concat ["~", value]
  | .minus => Code.concat ["-", value]
  | .brackets => Code.concat ["(", value, ")"]

-- A variable read with `keys`, from the given root. The two truth values are no variables unless they
-- have keys.
def varCode (root : Code) (name : String) (keys : List Code) : Code :=
  if (name = "true" || name = "false") && keys.isEmpty then name
  else
    let base : Code := if name = "children" then "$__children" else Code.concat [root, "[", quoted name, "]"]
    base ++ Code.concat (keys.map fun key => Code.concat ["[", key, "]"])

-- Whether the expression names a stored variable, with or without keys.
def isStored : Expr → Bool
  | .var name keys => !(keys.isEmpty && isReserved name)
  | _ => false

-- A call by name goes through the table of known functions.
def callCode (name : String) (args : List Code) (raw : List Expr) : Code :=
  match Builtin.lookup? name with
  | some .classes =>
    Builtin.classes.lower
      (List.zipWith (fun arg code => if arg.isStored then code.safeRead else code) raw args) []
  | some builtin => builtin.lower args raw
  | none => Builtin.call name args

mutual

-- The code of an expression, or nothing when it has an unsupported part.
def code? : Expr → Option Code
  | .var name keys => do some (varCode (Code.root name) name (← codes? keys))
  | .const text => some text
  | .str text => some (quoted text)
  | .num value => some value.text
  | .binary op left right => do
    some (Code.concat [← code? left, " ", op.symbol, " ", ← code? right])
  | .unary op value => do some (unaryCode op (← code? value))
  | .isset value => do some (Code.concat ["isset(", ← code? value, ")"])
  | .ternary condition consequent alternate => do
    some (Code.concat ["(", ← code? condition, " ? ", ← code? consequent, " : ", ← code? alternate, ")"])
  | .concat values => do some (Code.join " . " (← codes? values))
  | .array entries => do
    let numbered := entries.any fun entry => entry.key?.isSome
    some (Code.concat ["[", Code.join ", " (← entryCodes? numbered 0 entries), "]"])
  | .range kind start stop => do
    some (Code.concat ["mkArr(", ← code? start, ", ", ← code? stop, ", ", rangeMode kind, ")"])
  | .call callee args => do
    match callee.bare? with
    | some name => some (callCode name (← codes? args) args)
    | none => some (Code.concat [← code? callee, "(", Code.join ", " (← codes? args), ")"])
  | .unsupported => none

def codes? : List Expr → Option (List Code)
  | [] => some []
  | value :: rest => do some ((← code? value) :: (← codes? rest))

-- The entries of an array. As soon as one entry has a key, those without are `numbered` from zero.
def entryCodes? (numbered : Bool) (next : Nat) : List Entry → Option (List Code)
  | [] => some []
  | .plain value :: rest => do
    let value ← code? value
    if numbered then
      some (Code.concat [toString next, " => ", value] :: (← entryCodes? numbered (next + 1) rest))
    else some (value :: (← entryCodes? numbered next rest))
  | .keyed key value :: rest => do
    some (Code.concat [← code? key, " => ", ← code? value] :: (← entryCodes? numbered next rest))

end

-- Where the value of an expression goes.
inductive Context where
  | value
  | condition
  | target (promotes : Bool)
  | dataTarget
  deriving DecidableEq, Repr

-- The code of an expression in its context. As a value, the test of a place becomes a safe read of it;
-- the target of a parameter always lies in the caller's data.
def emit? (context : Context) (expr : Expr) : Option Code :=
  match context, expr with
  | .value, .isset value => (code? value).map Code.safeRead
  | .dataTarget, .var name keys => (codes? keys).map (varCode "$__data" name)
  | _, _ => code? expr

-- The name that an expression makes local: a bare variable as the target of an assignment.
def promoted? (context : Context) (expr : Expr) : Option String :=
  match context, expr.bare? with
  | .target true, some name => if isReserved name then none else some name
  | _, _ => none

end Expr

namespace Scope

-- The scope after an expression, whether or not it could be compiled.
def after (s : Scope) (context : Expr.Context) (expr : Expr) : Scope :=
  match expr.promoted? context with
  | some name => s.promote name
  | none => s

end Scope

end Stencil
