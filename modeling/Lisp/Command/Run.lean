import Lisp.Command.Flags
import Lisp.Command.Shell
import Lisp.FileTree

/-!
The command: it evaluates an expression, runs a file, or opens a shell.
-/
namespace Lisp.Command

/-- What the arguments ask for. -/
inductive Task
  | evaluate (source : Text)
  | load (path : Text)
  | interact (history : Text)
  deriving DecidableEq

structure Plan where
  task : Task
  args : List Text
  debug : Bool
  deriving DecidableEq

def historyFile : Text := Text.of ".openlisp_history"

def inDirectory (directory name : Text) : Text :=
  if directory = [] then name else directory ++ [47] ++ name

/-- An expression comes before a file; an empty one counts as none. The history is kept in the
`home` directory unless a flag says otherwise. -/
def plan (home : Text) (argv : List Text) : Except FlagError Plan := do
  let (options, operands) ← parseFlags {} argv
  let task : Task :=
    if options.expression ≠ [] then .evaluate options.expression
    else
      match operands with
      | path :: _ => .load path
      | [] =>
        .interact (if options.history = [] then inDirectory home historyFile else options.history)
  return ⟨task, operands.tail, options.debug⟩

def Plan.terminal (p : Plan) (host : Host) : Terminal :=
  { world := Session.start p.args true { log.isEnabled := p.debug, host } }

/-- The terminal after a task that needs no input, and whether it succeeded. -/
def Terminal.perform (t : Terminal) : Task → Bool × Terminal
  | .evaluate source => t.rep source
  | .load path => t.run (Session.load path) fun _ _ => []
  | .interact _ => (true, t)

structure Outcome where
  code : Nat
  screen : Screen
  files : FileTree

def exitCode (succeeded : Bool) : Nat := if succeeded then 0 else 1

/-- Runs the command on its arguments, its input and the files there are, at home among them. -/
def run (argv : List Text) (input : Text) (files : FileTree) (clock : Int64) : Outcome :=
  match plan [] argv with
  | .error e => ⟨2, { errors := .ofList e.report }, files⟩
  | .ok plan =>
    let terminal := plan.terminal (files.host clock)
    match plan.task with
    | .interact path =>
      let history := match files.read path with
        | .ok content => History.ofFile content
        | .error _ => .empty
      let shell := Shell.runLines { terminal, history } ((linesOf input).map (·.text))
      ⟨0, shell.terminal.screen, files.write path shell.history.toFile⟩
    | task =>
      let (succeeded, terminal) := terminal.perform task
      ⟨exitCode succeeded, terminal.screen, files⟩

end Lisp.Command
