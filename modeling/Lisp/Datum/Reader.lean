import Lisp.Datum.Basic
import Lisp.Token.Lexer

/-!
Reading data from tokens. The forms that are begun and not finished stand on a stack, innermost
first; each token either grows the stack, completes forms on it, or is an error. A reader stays
where it stopped: a closer that fits nothing is left in place, a word or a map that is wrong is used
up.
-/
namespace Lisp

/-- A form that is begun and waits for more. Items read so far are kept last first. -/
inductive Pending
  | mark (m : Mark)
  | metadata
  | annotated (metadata : Datum)
  | group (b : Bracket) (start : Position) (recent : List Datum)

namespace Pending

/-- What is missing when the text ends inside the innermost form. -/
def missing : List Pending → ParseCause
  | .group b .. :: _ => .missingCloser b
  | _ => .missingForm

end Pending

/-- What becomes of the stack on one token. -/
inductive Advance
  | more (stack : List Pending)
  | form (d : Datum)
  | error (e : ParseError) (used : Bool)

namespace Advance

/-- Hands a complete datum to the innermost pending form. -/
def place (d : Datum) : List Pending → Advance
  | [] => .form d
  | .mark m :: outer => place (.call m.name [d]) outer
  | .metadata :: outer => .more (.annotated d :: outer)
  | .annotated metadata :: outer => place (.call (Text.of "with-meta") [d, metadata]) outer
  | .group b start recent :: outer => .more (.group b start (d :: recent) :: outer)

/-- Closes the innermost pending form. -/
def close (b : Bracket) (position : Position) : List Pending → Advance
  | .group opened start recent :: outer =>
    if b ≠ opened then .error ⟨position, .wrongCloser b opened⟩ false
    else if b = .curly ∧ recent.length % 2 ≠ 0 then .error ⟨start, .oddMap⟩ true
    else place (.group b recent.reverse) outer
  | _ => .error ⟨position, .unexpectedCloser b⟩ false

def step (stack : List Pending) (t : Token) : Advance :=
  match t.lexeme with
  | .opening b => .more (.group b t.position [] :: stack)
  | .closing b => close b t.position stack
  | .mark m => .more (.mark m :: stack)
  | .caret => .more (.metadata :: stack)
  | .atom text =>
    match Datum.ofAtom text with
    | .ok d => place d stack
    | .error cause => .error ⟨t.position, cause⟩ true

end Advance

structure Reader where
  tokens : List Token
  rest : List Token
  /-- The string left open at the end of the text. -/
  trouble : Option ParseError
  /-- The end of the text. -/
  stop : Position

namespace Reader

def ofText (source : Text) : Reader :=
  let lexer := Lexer.run source
  let tokens := lexer.finish
  ⟨tokens, tokens, lexer.trouble?, lexer.position⟩

/-- The error when the text ends with forms pending. An open string is the better report. -/
def ended (r : Reader) (stack : List Pending) : ParseError :=
  r.trouble.getD ⟨r.stop, Pending.missing stack⟩

/-- Reads one form, some of it perhaps on the stack already, and gives the tokens left. -/
def readFrom (r : Reader) : List Pending → List Token → Except ParseError Datum × List Token
  | stack, [] => (.error (r.ended stack), [])
  | stack, t :: rest =>
    match Advance.step stack t with
    | .more stack => readFrom r stack rest
    | .form d => (.ok d, rest)
    | .error e used => (.error e, if used then rest else t :: rest)

/-- The next form, if tokens or an open string remain. -/
def next (r : Reader) : Option (Except ParseError Datum) × Reader :=
  match r.rest with
  | [] => (r.trouble.map .error, r)
  | tokens =>
    let (result, rest) := r.readFrom [] tokens
    (some result, { r with rest })

/-- Back to the first form. -/
def reset (r : Reader) : Reader := { r with rest := r.tokens }

/-- All forms up to the end or the first error, and the tokens left. -/
def formsFrom (r : Reader) : List Pending → List Token → List Datum × Option ParseError × List Token
  | [], [] => ([], r.trouble, [])
  | p :: outer, [] => ([], some (r.ended (p :: outer)), [])
  | stack, t :: rest =>
    match Advance.step stack t with
    | .more stack => formsFrom r stack rest
    | .form d =>
      let (forms, error, left) := formsFrom r [] rest
      (d :: forms, error, left)
    | .error e used => ([], some e, if used then rest else t :: rest)

theorem formsFrom_cons (r : Reader) (stack : List Pending) (t : Token) (rest : List Token) :
    r.formsFrom stack (t :: rest) =
      match Advance.step stack t with
      | .more stack => r.formsFrom stack rest
      | .form d =>
        let (forms, error, left) := r.formsFrom [] rest
        (d :: forms, error, left)
      | .error e used => ([], some e, if used then rest else t :: rest) := by
  cases stack <;> rfl

def forms (r : Reader) : List Datum × Option ParseError × Reader :=
  let (forms, error, rest) := r.formsFrom [] r.rest
  (forms, error, { r with rest })

end Reader

namespace Datum

/-- The first form of a text; a text without forms reads as nil. -/
def read (source : Text) : Except ParseError Datum :=
  match (Reader.ofText source).next.1 with
  | none => .ok .nil
  | some result => result

/-- All forms of a text, and the error that ended the reading if there was one. -/
def readAll (source : Text) : List Datum × Option ParseError :=
  let (forms, error, _) := (Reader.ofText source).forms
  (forms, error)

/-- Whether a text ends in the middle of a form. -/
def isIncomplete (source : Text) : Bool := (readAll source).2.any ParseError.isIncomplete

end Datum

end Lisp
