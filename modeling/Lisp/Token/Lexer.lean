import Lisp.Source

/-!
Tokens of a source text. The lexer takes one byte at a time, so what it knows after a text and a
continuation is what it makes of the continuation from where the text left it.
-/
namespace Lisp

/-- The marks that abbreviate a two-element list around the form behind them. -/
inductive Mark
  | quote
  | quasiquote
  | unquote
  | splice
  | deref
  deriving DecidableEq

/-- The symbol at the head of the list. -/
def Mark.name : Mark → Text
  | .quote => Text.of "quote"
  | .quasiquote => Text.of "quasiquote"
  | .unquote => Text.of "unquote"
  | .splice => Text.of "splice-unquote"
  | .deref => Text.of "deref"

inductive Lexeme
  | opening (b : Bracket)
  | closing (b : Bracket)
  | mark (m : Mark)
  | caret
  /-- The text of a word, or that of a string in its quotes with the escapes resolved. -/
  | atom (text : Text)
  deriving DecidableEq

namespace Lexeme

abbrev string (content : Text) : Lexeme := .atom (34 :: (content ++ [34]))

abbrev word (first : UInt8) (rest : Text) : Lexeme := .atom (first :: rest)

end Lexeme

structure Token where
  lexeme : Lexeme
  position : Position
  deriving DecidableEq

/-- What a byte does between tokens. -/
inductive Role
  | blank
  | comment
  | doubleQuote
  | tilde
  | single (l : Lexeme)
  | plain
  deriving DecidableEq

/-- A comma is blank; a word ends before every byte that is not plain. -/
def Role.of (b : UInt8) : Role :=
  if b = 32 ∨ b = 13 ∨ b = 10 ∨ b = 9 ∨ b = 44 then .blank
  else if b = 59 then .comment
  else if b = 34 then .doubleQuote
  else if b = 126 then .tilde
  else if b = 40 then .single (.opening .round)
  else if b = 41 then .single (.closing .round)
  else if b = 91 then .single (.opening .square)
  else if b = 93 then .single (.closing .square)
  else if b = 123 then .single (.opening .curly)
  else if b = 125 then .single (.closing .curly)
  else if b = 39 then .single (.mark .quote)
  else if b = 96 then .single (.mark .quasiquote)
  else if b = 64 then .single (.mark .deref)
  else if b = 94 then .single .caret
  else .plain

/-- What the lexer is in the middle of. Bytes collected so far are kept last first. -/
inductive Lexer.Mode
  | gap
  | comment
  | tilde (start : Position)
  | word (start : Position) (first : UInt8) (recent : Text)
  | string (start : Position) (recent : Text) (escaped : Bool)
  deriving DecidableEq

structure Lexer where
  mode : Lexer.Mode := .gap
  position : Position := .start
  tokens : Array Token := #[]
  deriving DecidableEq

namespace Lexer

def emit (l : Lexer) (lexeme : Lexeme) (start : Position) : Lexer :=
  { l with mode := .gap, tokens := l.tokens.push ⟨lexeme, start⟩ }

/-- The byte an escaped byte stands for. -/
def unescape (b : UInt8) : UInt8 := if b = 110 then Text.newline else b

/-- Starts on a byte that continues no token. -/
def begin (l : Lexer) (b : UInt8) : Lexer :=
  match Role.of b with
  | .blank => { l with mode := .gap }
  | .comment => { l with mode := .comment }
  | .doubleQuote => { l with mode := .string l.position [] false }
  | .tilde => { l with mode := .tilde l.position }
  | .single lexeme => l.emit lexeme l.position
  | .plain => { l with mode := .word l.position b [] }

def take (l : Lexer) (b : UInt8) : Lexer :=
  match l.mode with
  | .gap => l.begin b
  | .comment => if b = Text.newline then { l with mode := .gap } else l
  | .tilde start =>
    if b = 64 then l.emit (.mark .splice) start else (l.emit (.mark .unquote) start).begin b
  | .word start first recent =>
    if Role.of b = .plain then { l with mode := .word start first (b :: recent) }
    else (l.emit (.word first recent.reverse) start).begin b
  | .string start recent true => { l with mode := .string start (unescape b :: recent) false }
  | .string start recent false =>
    if b = 34 then l.emit (.string recent.reverse) start
    else if b = 92 then { l with mode := .string start recent true }
    else { l with mode := .string start (b :: recent) false }

/-- The lexer after one more byte. -/
def feed (l : Lexer) (b : UInt8) : Lexer :=
  let position := l.position.after b
  { l.take b with position }

/-- The token that the end of the text completes. -/
def last? (l : Lexer) : Option Token :=
  match l.mode with
  | .tilde start => some ⟨.mark .unquote, start⟩
  | .word start first recent => some ⟨.word first recent.reverse, start⟩
  | .gap | .comment | .string .. => none

/-- The string that is still open when the text ends. -/
def trouble? (l : Lexer) : Option ParseError :=
  match l.mode with
  | .string start .. => some ⟨start, .unterminatedString⟩
  | _ => none

/-- All tokens of a text that ends here. -/
def finish (l : Lexer) : List Token :=
  match l.last? with
  | some t => (l.tokens.push t).toList
  | none => l.tokens.toList

theorem finish_eq (l : Lexer) : l.finish = l.tokens.toList ++ l.last?.toList := by
  unfold finish
  cases l.last? <;> simp

def run (source : Text) : Lexer := source.foldl feed {}

theorem run_append (s t : Text) : run (s ++ t) = t.foldl feed (run s) := List.foldl_append

theorem tokens_emit (l : Lexer) (lexeme : Lexeme) (start : Position) :
    l.tokens.toList <+: (l.emit lexeme start).tokens.toList := by
  simp [emit]

theorem tokens_begin (l : Lexer) (b : UInt8) : l.tokens.toList <+: (l.begin b).tokens.toList := by
  unfold begin
  split <;> first | exact List.prefix_rfl | exact tokens_emit ..

theorem tokens_take (l : Lexer) (b : UInt8) : l.tokens.toList <+: (l.take b).tokens.toList := by
  unfold take
  split
  · exact tokens_begin l b
  · split <;> exact List.prefix_rfl
  · split
    · exact tokens_emit ..
    · exact (tokens_emit ..).trans (tokens_begin ..)
  · split
    · exact List.prefix_rfl
    · exact (tokens_emit ..).trans (tokens_begin ..)
  · exact List.prefix_rfl
  · split
    · exact tokens_emit ..
    · split <;> exact List.prefix_rfl

/-- A token that is there stays there. -/
theorem tokens_feed (l : Lexer) (t : Text) :
    l.tokens.toList <+: (t.foldl feed l).tokens.toList := by
  induction t generalizing l with
  | nil => exact List.prefix_rfl
  | cons b t ih => exact (tokens_take l b).trans (ih (l.feed b))

end Lexer

end Lisp
