import Lisp.Text.Basic

/-!
The special forms: lists whose head is one of these symbols are dispatched by name, whatever the
name is bound to.
-/
namespace Lisp

inductive Special
  | letStar
  | sequence
  | conditional
  | quasiquote
  | tryStar
  | define
  | defineMacro
  | assign
  | function
  | quote
  | macroexpand
  | unquote
  | splice
  | catchStar
  deriving DecidableEq

namespace Special

def name : Special → Text
  | .letStar => Text.of "let*"
  | .sequence => Text.of "do"
  | .conditional => Text.of "if"
  | .quasiquote => Text.of "quasiquote"
  | .tryStar => Text.of "try*"
  | .define => Text.of "def!"
  | .defineMacro => Text.of "defmacro!"
  | .assign => Text.of "set!"
  | .function => Text.of "fn*"
  | .quote => Text.of "quote"
  | .macroexpand => Text.of "macroexpand"
  | .unquote => Text.of "unquote"
  | .splice => Text.of "splice-unquote"
  | .catchStar => Text.of "catch*"

def all : List Special :=
  [.letStar, .sequence, .conditional, .quasiquote, .tryStar, .define, .defineMacro, .assign,
    .function, .quote, .macroexpand, .unquote, .splice, .catchStar]

/-- The special forms by name. -/
def table : List (Text × Special) := all.map fun special => (special.name, special)

def ofName? (name : Text) : Option Special :=
  (table.find? fun entry => Text.same entry.1 name).map (·.2)

theorem ofName?_eq (name : Text) :
    ofName? name = all.find? fun special => special.name == name := by
  simp only [ofName?, table, List.find?_map, Option.map_map, Text.same_eq, Function.comp_def,
    Option.map_id']

end Special

end Lisp
