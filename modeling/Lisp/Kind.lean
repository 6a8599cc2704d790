import Lisp.Text.Basic

/-!
The kinds of values, in their fixed order.
-/
namespace Lisp

inductive Kind
  | nil
  | boolean
  | integer
  | float
  | string
  | symbol
  | keyword
  | list
  | vector
  | hashMap
  | atom
  | function
  | error
  deriving DecidableEq

namespace Kind

def name : Kind → Text
  | .nil => Text.of "nil"
  | .boolean => Text.of "boolean"
  | .integer => Text.of "integer"
  | .float => Text.of "float"
  | .string => Text.of "string"
  | .symbol => Text.of "symbol"
  | .keyword => Text.of "keyword"
  | .list => Text.of "list"
  | .vector => Text.of "vector"
  | .hashMap => Text.of "hash-map"
  | .atom => Text.of "atom"
  | .function => Text.of "function"
  | .error => Text.of "error"

def all : List Kind :=
  [.nil, .boolean, .integer, .float, .string, .symbol, .keyword, .list, .vector, .hashMap, .atom,
    .function, .error]

/-- The name of the kind with a number; numbers past the last have none of their own. -/
def nameOf (number : Nat) : Text := (all[number]?.map name).getD (Text.of "unknown")

end Kind

end Lisp
