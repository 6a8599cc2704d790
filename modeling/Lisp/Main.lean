import Lisp.Command.Run
import Std.Time.DateTime

/-!
The command on a real terminal. Computations are pure: one that wants a file not looked for yet ends
early, the file is read, and the computation starts over from where it was.
-/
namespace Lisp.Main

abbrev Known := List (Text × Except FileError Text)

def host (clock : Int64) (known : Known) : Host :=
  ⟨fun path => (known.lookup path).getD (.error .unread), clock⟩

def string (t : Text) : String := String.fromUTF8! (ByteArray.mk t.toArray)

def fileError : IO.Error → FileError
  | .noFileOrDirectory .. => .missing
  | .invalidArgument .. => .invalidPath
  | _ => .isDirectory

def fetch (path : Text) : IO (Except FileError Text) := do
  if !Text.isUtf8 path then return .error .missing
  try
    let bytes ← IO.FS.readBinFile (string path)
    return .ok bytes.data.toList
  catch e => return .error (fileError e)

def store (path content : Text) : IO Unit := do
  if Text.isUtf8 path then
    try IO.FS.writeBinFile (string path) (ByteArray.mk content.toArray)
    catch _ => pure ()

def emit (screen : Command.Screen) : IO Unit := do
  let output ← IO.getStdout
  output.write (ByteArray.mk screen.output.toList.toArray)
  output.flush
  (← IO.getStderr).write (ByteArray.mk screen.errors.toList.toArray)

/-- Performs a task that needs no input. -/
partial def perform (clock : Int64) (plan : Command.Plan) (known : Known) : IO UInt32 := do
  let (succeeded, terminal) := (plan.terminal (host clock known)).perform plan.task
  match terminal.wanted with
  | some path => perform clock plan ((path, ← fetch path) :: known)
  | none =>
    emit terminal.screen
    return (Command.exitCode succeeded).toUInt32

/-- Gives a line to the shell, looking for files until it needs no more. -/
partial def accept (clock : Int64) (shell : Command.Shell) (line : Text) (known : Known) :
    IO (Bool × Command.Shell × Known) := do
  let ready := { shell with terminal.world.host := host clock known, terminal.wanted := none }
  let (goesOn, next) := ready.accept line
  match next.terminal.wanted with
  | some path => accept clock shell line ((path, ← fetch path) :: known)
  | none => return (goesOn, next, known)

/-- The bytes up to the next line break or the end of input, last first. -/
partial def readLine (input : IO.FS.Stream) (recent : Text) : IO Text := do
  match (← input.read 1).data.toList with
  | [] => return recent
  | b :: _ => if b = Text.newline then return b :: recent else readLine input (b :: recent)

/-- The lines at hand, or those of the next line of input if there are none. -/
def moreLines (input : IO.FS.Stream) : List Text → IO (List Text)
  | [] => return (Command.linesOf (← readLine input []).reverse).map (·.text)
  | lines => return lines

/-- Runs the shell until the input or the shell ends. -/
partial def interact (clock : Int64) (input : IO.FS.Stream) (shell : Command.Shell) (known : Known)
    (lines : List Text) : IO Command.Shell := do
  emit shell.ask.terminal.screen
  let shell := { shell with terminal.screen := {} }
  match ← moreLines input lines with
  | [] =>
    emit { output := .ofList [Text.newline] }
    return shell
  | line :: rest =>
    let (goesOn, shell, known) ← accept clock shell line known
    emit shell.terminal.screen
    let shell := { shell with terminal.screen := {} }
    if goesOn then interact clock input shell known rest else return shell

def run (argv : List Text) : IO UInt32 := do
  let clock : Int64 := .ofInt (← Std.Time.Timestamp.now).toMillisecondsSinceUnixEpoch.val
  let home := Text.of ((← IO.getEnv "HOME").getD "")
  match Command.plan home argv with
  | .error e =>
    emit { errors := .ofList e.report }
    return 2
  | .ok plan =>
    match plan.task with
    | .interact path =>
      let history := match ← fetch path with
        | .ok content => Command.History.ofFile content
        | .error _ => .empty
      let shell := { terminal := plan.terminal (host clock []), history }
      let shell ← interact clock (← IO.getStdin) shell [] []
      store path shell.history.toFile
      return 0
    | _ => perform clock plan []

end Lisp.Main

def main (argv : List String) : IO UInt32 := Lisp.Main.run (argv.map Lisp.Text.of)
