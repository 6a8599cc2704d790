import Lisp.Number.Literal
import Lisp.Source

/-!
Data as they are written in source: a tree without identity. The items of a curly group are keys and
values in turn.
-/
namespace Lisp

inductive Datum
  | nil
  | bool (b : Bool)
  | int (n : Int64)
  | float (x : Float)
  | string (s : Text)
  | symbol (name : Text)
  | keyword (name : Text)
  | group (b : Bracket) (items : List Datum)

namespace Datum

/-- A list of symbol and forms. -/
def call (head : Text) (forms : List Datum) : Datum := .group .round (.symbol head :: forms)

/-- Words that are not numbers: keywords start with a colon, three names are constants. -/
def ofName (word : Text) : Except ParseCause Datum := do
  if (← ParseCause.check (fetch word 0)) = 58 then
    return .keyword (← ParseCause.check (behind word 1))
  else if word = Text.of "nil" then return .nil
  else if word = Text.of "true" then return .bool true
  else if word = Text.of "false" then return .bool false
  else return .symbol word

/-- The datum a word stands for. -/
def ofWord (word : Text) : Except ParseCause Datum := do
  if ← ParseCause.check (Number.startsNumeral word) then
    match Number.scanInteger word with
    | .value n => return .int n
    | .tooLarge => .error (.integerRange word)
    | .notOne =>
      match Number.scanDouble word with
      | .value x => return .float x
      | .tooLarge => .error (.numberRange word)
      | .notOne => ofName word
  else ofName word

/-- The datum that a string in its quotes or a word stands for. -/
def ofAtom (text : Text) : Except ParseCause Datum := do
  if (← ParseCause.check (fetch text 0)) = 34 then
    return .string (← ParseCause.check (part text 1 (text.length - 1)))
  else ofWord text

theorem ofName_cons (first : UInt8) (rest : Text) :
    ofName (first :: rest) = .ok
      (if first = 58 then .keyword rest
      else if first :: rest = Text.of "nil" then .nil
      else if first :: rest = Text.of "true" then .bool true
      else if first :: rest = Text.of "false" then .bool false
      else .symbol (first :: rest)) := by
  simp only [ofName, fetch_zero, behind_one, ParseCause.check_ok_bind]
  repeat' split
  all_goals rfl

theorem ofWord_cons (first : UInt8) (rest : Text) :
    ofWord (first :: rest) =
      if Number.looksNumeric (first :: rest) then
        match Number.scanInteger (first :: rest) with
        | .value n => .ok (.int n)
        | .tooLarge => .error (.integerRange (first :: rest))
        | .notOne =>
          match Number.scanDouble (first :: rest) with
          | .value x => .ok (.float x)
          | .tooLarge => .error (.numberRange (first :: rest))
          | .notOne => ofName (first :: rest)
      else ofName (first :: rest) := by
  rw [ofWord, Number.startsNumeral_cons]
  rfl

theorem ofAtom_string (content : Text) {last : UInt8} :
    ofAtom (34 :: (content ++ [last])) = .ok (.string content) := by
  rw [ofAtom, part_inner]
  rfl

theorem ofAtom_word {first : UInt8} (h : first ≠ 34) (rest : Text) :
    ofAtom (first :: rest) = ofWord (first :: rest) := by
  rw [ofAtom, fetch_zero, ParseCause.check_ok_bind, if_neg h]

end Datum

end Lisp
