import Lisp.Bounds

/-!
Positions in a source text and what can be wrong with one. An error is incomplete when the text
ended before a form did, so that more text may still mend it.
-/
namespace Lisp

/-- Line and column, both counted from one; columns count bytes. -/
structure Position where
  line : Nat := 1
  column : Nat := 1
  deriving DecidableEq

namespace Position

def start : Position := {}

/-- The position behind a byte. -/
def after (p : Position) (b : UInt8) : Position :=
  if b = Text.newline then ⟨p.line + 1, 1⟩ else ⟨p.line, p.column + 1⟩

end Position

inductive Bracket
  | round
  | square
  | curly
  deriving DecidableEq

namespace Bracket

def opener : Bracket → UInt8
  | .round => 40
  | .square => 91
  | .curly => 123

def closer : Bracket → UInt8
  | .round => 41
  | .square => 93
  | .curly => 125

end Bracket

inductive ParseCause
  | unterminatedString
  | missingForm
  | missingCloser (b : Bracket)
  | unexpectedCloser (b : Bracket)
  | wrongCloser (closed opened : Bracket)
  | oddMap
  | integerRange (word : Text)
  | numberRange (word : Text)
  /-- A token is not what the reader takes it for: the interpreter itself is wrong. -/
  | crash (c : Crash)
  deriving DecidableEq

structure ParseError where
  position : Position
  cause : ParseCause
  deriving DecidableEq

namespace ParseCause

/-- Takes what a partial operation gives. -/
def check {α : Type} (found : Except Crash α) : Except ParseCause α := found.mapError .crash

@[simp] theorem check_ok_bind {α β : Type} (a : α) (f : α → Except ParseCause β) :
    check (.ok a) >>= f = f a := rfl

def inQuotes (t : Text) : Text := Text.of "'" ++ t ++ Text.of "'"

def text : ParseCause → Text
  | .unterminatedString => Text.of "expected '\"', got EOF"
  | .missingForm => Text.of "expected form, got EOF"
  | .missingCloser b => Text.of "expected " ++ inQuotes [b.closer] ++ Text.of " but got EOF"
  | .unexpectedCloser b => Text.of "unexpected " ++ inQuotes [b.closer]
  | .wrongCloser closed opened =>
    Text.of "unexpected " ++ inQuotes [closed.closer] ++ Text.of " closing " ++
      inQuotes [opened.opener]
  | .oddMap => Text.of "hash-map literal needs an even number of forms"
  | .integerRange word => Text.of "integer out of range " ++ inQuotes word
  | .numberRange word => Text.of "number out of range " ++ inQuotes word
  | .crash c => c.message

def isIncomplete : ParseCause → Bool
  | .unterminatedString | .missingForm | .missingCloser _ => true
  | _ => false

end ParseCause

namespace ParseError

def isIncomplete (e : ParseError) : Bool := e.cause.isIncomplete

def message (e : ParseError) : Text :=
  Text.of "parse error at " ++ Text.ofNat e.position.line ++ Text.of ":"
    ++ Text.ofNat e.position.column ++ Text.of ": " ++ e.cause.text

end ParseError

end Lisp
