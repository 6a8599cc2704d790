import Lisp.Evaluator.Eval

/-!
A session: an outermost frame with the natives, the arguments of the program and the prelude, and
ways to run source in it. The prelude is the part of the language that is written in the language
itself.
-/
namespace Lisp.Prelude

def negation : String := "(def! not (fn* (a) (if a false true)))"

/-- The text of a file becomes one `do` form; the line break ends a comment on its last line. -/
def loadFile : String :=
  "(def! load-file (fn* (f) (eval (read-string (str \"(do \" (slurp f) \"\nnil)\")))))"

def hostLanguage : String := "(def! *host-language* \"go\")"

def conditions : String :=
  "(defmacro! cond (fn* (& xs) (if (> (count xs) 0) (list 'if (first xs) (if (> (count xs) 1) (nth xs 1) (throw \"odd number of forms to cond\")) (cons 'cond (rest (rest xs)))))))"

def disjunction : String :=
  "(defmacro! or (fn* (& xs) (if (empty? xs) nil (if (= 1 (count xs)) (first xs) (let* (tmp (gensym \"or__\")) `(let* (~tmp ~(first xs)) (if ~tmp ~tmp (or ~@(rest xs)))))))))"

def conjunction : String :=
  "(defmacro! and (fn* (& xs) (if (empty? xs) true (if (= 1 (count xs)) (first xs) (let* (tmp (gensym \"and__\")) `(let* (~tmp ~(first xs)) (if ~tmp (and ~@(rest xs)) ~tmp)))))))"

def sources : List String :=
  [negation, loadFile, hostLanguage, conditions, disjunction, conjunction]

end Lisp.Prelude

namespace Lisp.Session

/-- How many turns an evaluation may take, and how deep evaluations may nest. -/
def steps : Nat := 1000000000000000

def depth : Nat := 100000000

def eval [Library] : Evaluation := Evaluator.eval steps depth

def apply [Library] : Application := Evaluator.apply eval steps

/-- Expands a form for as long as its head names a macro. -/
def expand [Library] (frame : FrameId) (form : Value) : Run Value :=
  Evaluator.expandAll eval frame steps form

/-- The first form of a source text. -/
def read (source : Text) : Run Value :=
  match Datum.read source with
  | .ok d => Run.build d
  | .error e => throw (.ofParse e)

/-- Evaluates at the outermost frame and notes a failure in the log. -/
def evaluate [Library] (form : Value) : Run Value := fun w =>
  match eval form World.root w with
  | .ok v w => .ok v w
  | .error e w =>
    (do
      Run.note fun h => do
        return Log.line "evaluation failed"
          [("form", ← h.print .readable form), ("err", ← e.describe h)]
      throw e : Run Value) w

/-- Evaluates forms one after the other and gives the last value, `last` if there are none. -/
def evaluateAll [Library] (last : Value) : List Datum → Run Value
  | [] => pure last
  | d :: rest => do
    let form ← Run.build d
    let v ← evaluate form
    evaluateAll v rest

/-- Runs all forms of a source text. Forms before an error in the text are run. -/
def runSource [Library] (source : Text) : Run Value := do
  let (forms, error) := Datum.readAll source
  let v ← evaluateAll .nil forms
  match error with
  | none => pure v
  | some e => throw (.ofParse e)

/-- Runs a source text and gives the readable text of its last value. -/
def rep [Library] (source : Text) : Run Text := do
  let v ← runSource source
  Run.print .readable v

/-- Runs the file at a path. Failures tell the path, unless the host has yet to look for a file. -/
def load [Library] (path : Text) : Run Value := fun w =>
  match w.host.read path with
  | .error .unread => .error (.unread path) w
  | .error e => .error (.loading path (.host (e.message path))) w
  | .ok source =>
    match runSource source w with
    | .ok v w => .ok v w
    | .error (.unread wanted) w => .error (.unread wanted) w
    | .error e w => .error (.loading path e) w

def install : List Native → Run Unit
  | [] => pure ()
  | n :: rest => do
    let v ← Run.onHeap (·.makeNative n)
    Run.define World.root n.name v
    install rest

def makeStrings : List Text → Run (List Value)
  | [] => pure []
  | s :: rest => do
    let v ← Run.onHeap (·.makeString s)
    let vs ← makeStrings rest
    pure (v :: vs)

def runSources [Library] : List String → Run Unit
  | [] => pure ()
  | source :: rest => do
    let _ ← runSource (Text.of source)
    runSources rest

/-- Sets up the outermost frame. -/
def setUp [Library] (args : List Text) (withPrelude : Bool) : Run Unit := do
  let _ ← Run.newFrame none {}
  install Native.all
  let argv ← Run.makeList (← makeStrings args)
  Run.define World.root (Text.of "*ARGV*") argv
  if withPrelude then runSources Prelude.sources

/-- A new session in an otherwise unused world. -/
def start [Library] (args : List Text) (withPrelude : Bool) (w : World) : World :=
  match setUp args withPrelude w with
  | .ok _ w => w
  | .error _ w => w

end Lisp.Session
