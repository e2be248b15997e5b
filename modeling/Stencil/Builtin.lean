import Stencil.Code
import Stencil.Expr.Basic

-- The functions that templates may call by their own names, and the calls they are lowered to. A function
-- that is not listed is called under the name the template gives it.

namespace Stencil

inductive Builtin where
  | rename (target : String)
  | renameWith (target : String) (last : String)
  | substring
  | replace
  | split
  | format
  | contains
  | join
  | round
  | random
  | classes
  deriving DecidableEq, Repr

namespace Builtin

def table : List (String × Builtin) := [
  ("str", .format),
  ("str_sub", .substring),
  ("str_len", .renameWith "mb_strlen" "'UTF-8'"),
  ("str_replace", .replace),
  ("str_pad_right", .renameWith "str_pad" "STR_PAD_RIGHT"),
  ("str_pad_left", .renameWith "str_pad" "STR_PAD_LEFT"),
  ("str_pad_both", .renameWith "str_pad" "STR_PAD_BOTH"),
  ("str_split", .split),
  ("str_lower", .renameWith "mb_strtolower" "'UTF-8'"),
  ("str_upper", .renameWith "mb_strtoupper" "'UTF-8'"),
  ("str_trim", .rename "trim"),
  ("str_ltrim", .rename "ltrim"),
  ("str_rtrim", .rename "rtrim"),
  ("str_urlencode", .rename "rawurlencode"),
  ("str_urldecode", .rename "rawurldecode"),
  ("str_htmlescape", .rename "htmlspecialchars"),
  ("arr_keys", .rename "array_keys"),
  ("arr_values", .rename "array_values"),
  ("arr_len", .rename "count"),
  ("arr_pop", .rename "array_pop"),
  ("arr_shift", .rename "array_shift"),
  ("arr_slice", .rename "array_slice"),
  ("arr_splice", .rename "array_splice"),
  ("arr_pad", .rename "array_pad"),
  ("arr_reverse", .rename "array_reverse"),
  ("arr_unique", .rename "array_unique"),
  ("arr_contain", .contains),
  ("arr_join", .join),
  ("num_int", .rename "intval"),
  ("num_float", .rename "floatval"),
  ("num_pow", .rename "pow"),
  ("num_abs", .rename "abs"),
  ("num_sqrt", .rename "sqrt"),
  ("num_acos", .rename "acos"),
  ("num_asin", .rename "asin"),
  ("num_atan", .rename "atan"),
  ("num_cos", .rename "cos"),
  ("num_sin", .rename "sin"),
  ("num_tan", .rename "tan"),
  ("num_round", .round),
  ("num_rand", .random),
  ("classes", .classes)]

def lookup? (name : String) : Option Builtin := table.lookup name

-- A call with the arguments in order.
def call (name : String) (args : List Code) : Code :=
  Code.concat [name, "(", Code.join ", " args, ")"]

-- Holds a separator that is only known when the generated code runs.
def separator : String := "$__separator"

-- Splits between characters when the separator is empty or missing, at the separator otherwise. A
-- separator that is not a literal is evaluated once and tested.
def lowerSplit (args : List Code) (raw : List Expr) : Code :=
  let subject := args.getD 0 "\"\""
  let between := args.getD 1 "\"\""
  match (raw[1]? : Option Expr) with
  | none => call "mb_str_split" [subject]
  | some (.str text) =>
    if text = "" then call "mb_str_split" [subject] else call "explode" [between, subject]
  | some _ =>
    Code.concat ["((", separator, " = ", between, ") === \"\" ? ", call "mb_str_split" [subject], " : ",
      call "explode" [separator, subject], ")"]

-- The call with its compiled arguments. The source arguments matter where a literal decides.
def lower (builtin : Builtin) (args : List Code) (raw : List Expr) : Code :=
  match builtin with
  | .rename target => call target args
  | .renameWith target last => call target (args ++ [(last : Code)])
  | .classes => call "classes" args
  | .substring => call "mb_substr" (args ++ List.replicate (3 - args.length) ("NULL" : Code) ++ [("'UTF-8'" : Code)])
  | .replace => call "str_replace" [args.getD 1 "NULL", args.getD 2 "NULL", args.getD 0 "NULL"]
  | .split => lowerSplit args raw
  | .format => call "toFixed" [args.getD 0 "NULL", args.getD 1 "0", args.getD 2 "\".\""]
  | .contains =>
    Code.concat ["(", call "array_search" [args.getD 1 "NULL", args.getD 0 "[]"], " !== false)"]
  | .join => call "implode" [args.getD 1 "\"\"", args.getD 0 "[]"]
  | .round => call "round" [args.getD 0 "0"]
  | .random => "((float)rand() / (float)getrandmax())"

end Builtin

end Stencil
