import Stencil.Json.Number

-- Expressions of the template language.

namespace Stencil

inductive BinaryOp where
  | plus
  | minus
  | times
  | divide
  | modulo
  | or
  | and
  | bitOr
  | bitAnd
  | bitXor
  | shiftLeft
  | shiftRight
  | equal
  | notEqual
  | greater
  | greaterEqual
  | less
  | lessEqual
  deriving DecidableEq, Repr

inductive UnaryOp where
  | not
  | bitNot
  | minus
  | brackets
  deriving DecidableEq, Repr

-- Whether a range leaves out its end.
inductive RangeKind where
  | halfOpen
  | closed
  deriving DecidableEq, Repr

mutual

inductive Expr where
  | var (name : String) (keys : List Expr)
  | const (text : String)
  | str (text : String)
  | num (value : Number)
  | binary (op : BinaryOp) (left right : Expr)
  | unary (op : UnaryOp) (value : Expr)
  | isset (value : Expr)
  | ternary (condition consequent alternate : Expr)
  | concat (values : List Expr)
  | array (entries : List Entry)
  | range (kind : RangeKind) (start stop : Expr)
  | call (callee : Expr) (args : List Expr)
  | unsupported

-- An entry of an array, with or without a key.
inductive Entry where
  | plain (value : Expr)
  | keyed (key value : Expr)

end

namespace BinaryOp

def symbol : BinaryOp → String
  | .plus => "+"
  | .minus => "-"
  | .times => "*"
  | .divide => "/"
  | .modulo => "%"
  | .or => "||"
  | .and => "&&"
  | .bitOr => "|"
  | .bitAnd => "&"
  | .bitXor => "^"
  | .shiftLeft => "<<"
  | .shiftRight => ">>"
  | .equal => "=="
  | .notEqual => "!="
  | .greater => ">"
  | .greaterEqual => ">="
  | .less => "<"
  | .lessEqual => "<="

-- The name of the operator in the template format.
def name : BinaryOp → String
  | .plus => "plus"
  | .minus => "minus"
  | .times => "mult"
  | .divide => "divis"
  | .modulo => "mod"
  | .or => "or"
  | .and => "and"
  | .bitOr => "bitor"
  | .bitAnd => "bitand"
  | .bitXor => "bitxor"
  | .shiftLeft => "leftshift"
  | .shiftRight => "rightshift"
  | .equal => "equal"
  | .notEqual => "notequal"
  | .greater => "gt"
  | .greaterEqual => "gtequal"
  | .less => "lt"
  | .lessEqual => "ltequal"

def all : List BinaryOp :=
  [.plus, .minus, .times, .divide, .modulo, .or, .and, .bitOr, .bitAnd, .bitXor, .shiftLeft, .shiftRight,
    .equal, .notEqual, .greater, .greaterEqual, .less, .lessEqual]

def ofName? (name : String) : Option BinaryOp := all.find? fun op => op.name = name

theorem ofName?_name (op : BinaryOp) : ofName? op.name = some op := by cases op <;> decide

end BinaryOp

namespace UnaryOp

def name : UnaryOp → String
  | .not => "not"
  | .bitNot => "bitnot"
  | .minus => "uminus"
  | .brackets => "brack"

def all : List UnaryOp := [.not, .bitNot, .minus, .brackets]

def ofName? (name : String) : Option UnaryOp := all.find? fun op => op.name = name

theorem ofName?_name (op : UnaryOp) : ofName? op.name = some op := by cases op <;> decide

end UnaryOp

namespace RangeKind

def name : RangeKind → String
  | .halfOpen => "open"
  | .closed => "closed"

-- A closed range may also be called `close`.
def ofName? (name : String) : Option RangeKind :=
  if name = "open" then some .halfOpen
  else if name = "closed" || name = "close" then some .closed
  else none

theorem ofName?_name (kind : RangeKind) : ofName? kind.name = some kind := by cases kind <;> decide

end RangeKind

namespace Expr

-- The name of a variable without keys.
def bare? : Expr → Option String
  | .var name [] => some name
  | _ => none

-- Names that are never stored variables.
def isReserved (name : String) : Bool := name = "children" || name = "true" || name = "false"

end Expr

namespace Entry

def key? : Entry → Option Expr
  | .plain _ => none
  | .keyed key _ => some key

def value : Entry → Expr
  | .plain value => value
  | .keyed _ value => value

end Entry

end Stencil
