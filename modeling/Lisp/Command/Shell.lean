import Lisp.Command.Dump
import Lisp.Datum.Progress
import Lisp.Session

/-!
The shell: it takes lines until they make complete forms, runs them, and shows the result. What it
writes is collected; failures are reported on the error stream. A line ends at a line break, which
may have a carriage return in front of it; a line that is longer than the buffer comes in parts.
-/
namespace Lisp.Command

def bufferSize : Nat := 4096

/-- A line and whether it is only the first part of one. -/
structure Line where
  text : Text
  isPart : Bool := false
  deriving DecidableEq

/-- The lines of a text. Bytes of the line so far are kept last first, with their number; a carriage
return that would end a part goes to the next one. -/
def linesFrom (recent : Text) (count : Nat) : Text → List Line
  | [] => if recent = [] then [] else [⟨recent.reverse, false⟩]
  | b :: rest =>
    if b = Text.newline then
      let text := match recent with
        | 13 :: recent => recent.reverse
        | recent => recent.reverse
      ⟨text, false⟩ :: linesFrom [] 0 rest
    else if count + 1 < bufferSize then linesFrom (b :: recent) (count + 1) rest
    else if b = 13 then ⟨recent.reverse, true⟩ :: linesFrom [13] 1 rest
    else ⟨(b :: recent).reverse, true⟩ :: linesFrom [] 0 rest

def linesOf (t : Text) : List Line := linesFrom [] 0 t

/-- The entries typed before, oldest first. -/
abbrev History := Sequence Text

namespace History

def limit : Nat := 1000

/-- The entries without the oldest ones that are too many. -/
def trimmed (h : History) : History := h.drop (h.size - limit)

def add (h : History) (entry : Text) : History :=
  if h.get? (h.size - 1) = some entry then h else trimmed (h.append [entry])

/-- The entries of a file, up to a line that is too long or is not UTF-8. -/
def ofFile (content : Text) : History :=
  let whole := (linesOf content).takeWhile fun line => !line.isPart && Text.isUtf8 line.text
  trimmed (.ofList (whole.map (·.text)))

def toFile (h : History) : Text := h.toList.flatMap Text.line

end History

/-- The two streams the command writes to. -/
structure Screen where
  output : Rope := .empty
  errors : Rope := .empty

/-- How a failure is reported. -/
def report (h : Heap) (e : Failure) : Text :=
  match e.thrown? with
  | some v => Text.of "uncaught error: " ++ h.render .displayed v
  | none => e.message h

/-- The file that the host must look for before a run can go on. -/
def wanted? : Failure → Option Text
  | .unread path => some path
  | _ => none

/-- A program and what it has written. -/
structure Terminal where
  world : World
  screen : Screen := {}
  wanted : Option Text := none

namespace Terminal

def print (t : Terminal) (text : Text) : Terminal :=
  { t with screen.output := t.screen.output.append text }

/-- Moves what the program printed and logged to the screen. -/
def collect (t : Terminal) : Terminal :=
  { t with
    world.console.written := .empty
    world.log.lines := .empty
    screen.output := t.screen.output.join t.world.console.written
    screen.errors := t.screen.errors.join t.world.log.lines }

/-- Runs a computation and shows its result, or reports its failure. -/
def run {α : Type} (t : Terminal) (computation : Run α) (shown : Heap → α → Text) :
    Bool × Terminal :=
  let { world, screen, wanted } := t
  match computation world with
  | .ok a world =>
    let text := shown world.heap a
    (true, (collect { world, screen, wanted }).print text)
  | .error e world =>
    let text := Text.line (report world.heap e)
    let t := collect { world, screen, wanted := wanted? e }
    (false, { t with screen.errors := t.screen.errors.append text })

def rep (t : Terminal) (source : Text) : Bool × Terminal :=
  t.run (Session.rep source) fun _ text => Text.line text

end Terminal

structure Shell where
  terminal : Terminal
  history : History := .empty
  /-- The lines of forms that are not complete yet. -/
  buffer : Intake := .empty

namespace Shell

def prompt (s : Shell) : Text := Text.of (if s.buffer.isEmpty then "user> " else "  ... ")

/-- Runs complete source, or does what a command in its place says, and tells whether the shell
goes on. -/
def obey (s : Shell) (source : Text) : Bool × Shell :=
  let trimmed := Text.trim source
  let dump := Text.of ":dump "
  let { terminal, history, buffer } := s
  if trimmed = [] then (true, { terminal, history, buffer })
  else if trimmed = Text.of ":quit" then (false, { terminal, history, buffer })
  else if dump.isPrefixOf trimmed then
    let evaluation : Run Value := do
      let form ← Session.read (trimmed.drop dump.length)
      Session.evaluate form
    let (_, terminal) := terminal.run evaluation Command.dump
    (true, { terminal, history := history.add trimmed, buffer })
  else if trimmed.head? = some 58 then
    let answer := Text.of "unknown command. Use :dump <expr> or :quit."
    (true, { terminal := terminal.print (Text.line answer), history, buffer })
  else
    let entry := source.map fun b => if b = Text.newline then 32 else b
    let (_, terminal) := terminal.rep source
    (true, { terminal, history := history.add entry, buffer })

/-- Takes one line, and tells whether the shell goes on. -/
def accept (s : Shell) (line : Text) : Bool × Shell :=
  let { terminal, history, buffer } := s
  let buffer := buffer.addLine line
  if buffer.isIncomplete then (true, { terminal, history, buffer })
  else obey { terminal, history } buffer.text.toList

/-- Asks for a line. -/
def ask (s : Shell) : Shell := { s with terminal := s.terminal.print s.prompt }

/-- The end of input. -/
def leave (s : Shell) : Shell := { s with terminal := s.terminal.print [Text.newline] }

/-- Takes lines until they end or one of them ends the shell. -/
def runLines (s : Shell) : List Text → Shell
  | [] => s.ask.leave
  | line :: rest =>
    match s.ask.accept line with
    | (true, s) => runLines s rest
    | (false, s) => s

end Shell

end Lisp.Command
