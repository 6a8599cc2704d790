import Lisp.Kind

/-!
The functions built into the language. Most of them only look at their arguments and answer; four
call back into evaluation.
-/
namespace Lisp

inductive Comparison
  | less
  | atMost
  | greater
  | atLeast
  deriving DecidableEq

/-- The natives that do not call back. -/
inductive Operation
  | add
  | subtract
  | multiply
  | divide
  | modulo
  | equal
  | compare (c : Comparison)
  | atom
  | deref
  | reset
  | readString
  | slurp
  | list
  | vector
  | isSequential
  | isEmpty
  | count
  | cons
  | concat
  | conj
  | nth
  | first
  | rest
  | vec
  | hashMap
  | assoc
  | dissoc
  | get
  | contains
  | keys
  | vals
  | isKind (k : Kind)
  | isTrue
  | isFalse
  | isNumber
  | isFunction
  | isMacro
  | symbol
  | keyword
  | gensym
  | metadata
  | withMetadata
  | throw
  | error
  | errorValue
  | clock
  | printReadably
  | printJoined
  | writeReadably
  | writeDisplayed
  deriving DecidableEq

namespace Operation

def kindTestName : Kind → String
  | .nil => "nil?"
  | .boolean => "boolean?"
  | .integer => "int?"
  | .float => "float?"
  | .string => "string?"
  | .symbol => "symbol?"
  | .keyword => "keyword?"
  | .list => "list?"
  | .vector => "vector?"
  | .hashMap => "map?"
  | .atom => "atom?"
  | .function => "function?"
  | .error => "error?"

def label : Operation → String
  | .add => "+"
  | .subtract => "-"
  | .multiply => "*"
  | .divide => "/"
  | .modulo => "mod"
  | .equal => "="
  | .compare .less => "<"
  | .compare .atMost => "<="
  | .compare .greater => ">"
  | .compare .atLeast => ">="
  | .atom => "atom"
  | .deref => "deref"
  | .reset => "reset!"
  | .readString => "read-string"
  | .slurp => "slurp"
  | .list => "list"
  | .vector => "vector"
  | .isSequential => "sequential?"
  | .isEmpty => "empty?"
  | .count => "count"
  | .cons => "cons"
  | .concat => "concat"
  | .conj => "conj"
  | .nth => "nth"
  | .first => "first"
  | .rest => "rest"
  | .vec => "vec"
  | .hashMap => "hash-map"
  | .assoc => "assoc"
  | .dissoc => "dissoc"
  | .get => "get"
  | .contains => "contains?"
  | .keys => "keys"
  | .vals => "vals"
  | .isKind k => kindTestName k
  | .isTrue => "true?"
  | .isFalse => "false?"
  | .isNumber => "number?"
  | .isFunction => "fn?"
  | .isMacro => "macro?"
  | .symbol => "symbol"
  | .keyword => "keyword"
  | .gensym => "gensym"
  | .metadata => "meta"
  | .withMetadata => "with-meta"
  | .throw => "throw"
  | .error => "error"
  | .errorValue => "error-value"
  | .clock => "time-ms"
  | .printReadably => "pr-str"
  | .printJoined => "str"
  | .writeReadably => "prn"
  | .writeDisplayed => "println"

def name (op : Operation) : Text := Text.of op.label

/-- Every operation a session starts with. -/
def all : List Operation :=
  [.add, .subtract, .multiply, .divide, .modulo, .equal, .compare .less, .compare .atMost,
    .compare .greater, .compare .atLeast, .atom, .deref, .reset, .readString, .slurp, .list,
    .vector, .isSequential, .isEmpty, .count, .cons, .concat, .conj, .nth, .first, .rest, .vec,
    .hashMap, .assoc, .dissoc, .get, .contains, .keys, .vals, .isKind .nil, .isKind .integer,
    .isKind .float, .isKind .string, .isKind .symbol, .isKind .keyword, .isKind .list,
    .isKind .vector, .isKind .hashMap, .isKind .atom, .isKind .error, .isTrue, .isFalse, .isNumber,
    .isFunction, .isMacro, .symbol, .keyword, .gensym, .metadata, .withMetadata, .throw, .error,
    .errorValue, .clock, .printReadably, .printJoined, .writeReadably, .writeDisplayed]

end Operation

/-- A native function. An inert one is a function of some host outside the language, known by its
name alone; no session has one. -/
inductive Native
  | operation (op : Operation)
  | apply
  | map
  | swap
  | eval
  | inert (name : Text)
  deriving DecidableEq

namespace Native

def name : Native → Text
  | .operation op => op.name
  | .apply => Text.of "apply"
  | .map => Text.of "map"
  | .swap => Text.of "swap!"
  | .eval => Text.of "eval"
  | .inert name => name

/-- Every native a session starts with. -/
def all : List Native := Operation.all.map .operation ++ [.apply, .map, .swap, .eval]

end Native

end Lisp
