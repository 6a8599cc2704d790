import Lisp.Failure
import Lisp.Heap.Equality
import Lisp.Scopes
import Lisp.Text.Quoted

/-!
The state of a running interpreter, and computations on it. A computation that fails keeps the state
it had reached.
-/
namespace Lisp

inductive FileError
  | missing
  | notDirectory
  | isDirectory
  | invalidPath
  | nameTooLong
  | unread
  deriving DecidableEq

/-- The host's words for a file that cannot be read. -/
def FileError.message (path : Text) : FileError → Text
  | .missing => Text.of "open " ++ path ++ Text.of ": no such file or directory"
  | .notDirectory => Text.of "open " ++ path ++ Text.of ": not a directory"
  | .isDirectory => Text.of "read " ++ path ++ Text.of ": is a directory"
  | .invalidPath => Text.of "open " ++ path ++ Text.of ": invalid argument"
  | .nameTooLong => Text.of "open " ++ path ++ Text.of ": file name too long"
  | .unread => Text.of "open " ++ path ++ Text.of ": not read"

/-- What the host provides: the files there are, and the time in milliseconds. -/
structure Host where
  read : Text → Except FileError Text := fun _ => .error .missing
  clock : Int64 := 0

/-- Where output goes. With a limit, a line that does not fit is not written at all. -/
structure Console where
  written : Rope := .empty
  room : Option Nat := none

namespace Console

def print? (c : Console) (line : Rope) : Option Console :=
  match c.room with
  | none => some { c with written := c.written.join line }
  | some room =>
    if line.size ≤ room then some ⟨c.written.join line, some (room - line.size)⟩ else none

end Console

structure Log where
  isEnabled : Bool := false
  lines : Rope := .empty

/-! A line of the log holds named values; a value is quoted when it is empty or could be misread. -/

namespace Log

def mustQuote : Text.Glyph → Bool
  | .stray _ => true
  | .char code _ =>
    if code < 0x80 then code < 0x21 || code == 0x22 || code == 0x3D
    else code == 0xFFFD || Text.isSpace code || !Text.isPrintable code

def value (t : Text) : Text :=
  if t = [] ∨ (Text.glyphs t).any mustQuote then Text.quoted t else t

def line (message : String) (values : List (String × Text)) : Text :=
  let fields := ("level", Text.of "DEBUG") :: ("msg", Text.of message) :: values
  Text.line (Text.join (Text.of " ") (fields.map fun (name, t) => Text.of name ++ [61] ++ value t))

def add (log : Log) (line : Text) : Log := { log with lines := log.lines.append line }

end Log

structure World where
  heap : Heap := {}
  scopes : Scopes := {}
  /-- How many symbols have been generated. The host counts with 64 bits; a count from 2^63 on would
  start again from below zero there. -/
  generated : Nat := 0
  console : Console := {}
  log : Log := {}
  host : Host := {}

abbrev Run := EStateM Failure World

namespace World

/-- The outermost frame of a session. -/
def root : FrameId := 0

end World

namespace Run

@[inline] def fault {α : Type} (f : Fault) : Run α := throw (.fault f)

@[inline] def malformed {α : Type} (form : Special) (why : Malformation) : Run α :=
  fault (.malformed form why)

/-- Goes on with what a partial operation gives. -/
@[inline] def check {α : Type} (found : Except Crash α) : Run α :=
  match found with
  | .ok a => pure a
  | .error c => throw (.crash c)

@[simp] theorem check_ok {α : Type} (a : α) : check (.ok a) = pure a := rfl

@[simp] theorem check_ok_bind {α β : Type} (a : α) (f : α → Run β) : check (.ok a) >>= f = f a :=
  rfl

/-- Reads the heap. -/
@[inline] def look {α : Type} (f : Heap → α) : Run α := fun w => .ok (f w.heap) w

theorem look_bind {α β : Type} (f : Heap → α) (g : α → Run β) (w : World) :
    (look f >>= g) w = g (f w.heap) w := rfl

theorem get_bind {β : Type} (g : World → Run β) (w : World) : (get >>= g) w = g w w := rfl

/-- Reads the scopes. -/
@[inline] def inScopes {α : Type} (f : Scopes → α) : Run α := fun w => .ok (f w.scopes) w

/-- Changes the heap, making a value. -/
@[inline] def onHeap {α : Type} (f : Heap → α × Heap) : Run α := fun w =>
  let { heap, scopes, generated, console, log, host } := w
  let (a, heap) := f heap
  .ok a { heap, scopes, generated, console, log, host }

/-- Changes the scopes. -/
@[inline] def onScopes {α : Type} (f : Scopes → α × Scopes) : Run α := fun w =>
  let { heap, scopes, generated, console, log, host } := w
  let (a, scopes) := f scopes
  .ok a { heap, scopes, generated, console, log, host }

@[inline] def make (c : Content) : Run Value := onHeap (·.make c)

@[inline] def makeList (items : List Value) : Run Value := onHeap (·.makeList items)

@[inline] def makeVector (items : List Value) : Run Value := onHeap (·.makeVector items)

def build (d : Datum) : Run Value := onHeap (·.build d)

/-- A new map of keys and values in turn. -/
def makeMap (alternating : List Value) : Run Value := do
  let entries ← look (·.entriesOf alternating)
  make (.map entries)

@[inline] def newFrame (outer : Option FrameId) (bindings : Bindings) : Run FrameId :=
  onScopes (·.push outer bindings)

@[inline] def define (f : FrameId) (name : Text) (v : Value) : Run Unit :=
  onScopes fun s => ((), s.define f name v)

/-- Looks a name up from a frame. -/
@[inline] def lookup (f : FrameId) (name : Text) : Run Value := do
  match ← inScopes (·.find? f name) with
  | some v => pure v
  | none => fault (.unbound name)

/-- Binds a name anew where it is bound. -/
def assign (f : FrameId) (name : Text) (v : Value) : Run Unit := do
  match ← inScopes (·.resolve? f name) with
  | some g => define g name v
  | none => fault (.unbound name)

/-- Each parameter with the argument at its index, which is `i` for the first. -/
def pairsFrom (args : List Value) : (i : Nat) → (params : List Text) →
    Except Crash (List (Text × Value))
  | _, [] => .ok []
  | i, name :: rest => do
    let v ← fetch args i
    let more ← pairsFrom args (i + 1) rest
    return (name, v) :: more

theorem pairsFrom_eq {args : List Value} {i : Nat} {params : List Text}
    (h : i + params.length ≤ args.length) :
    pairsFrom args i params = .ok (params.zip (args.drop i)) := by
  induction params generalizing i with
  | nil => rfl
  | cons name rest ih =>
    rw [List.length_cons] at h
    have hi : i < args.length := by omega
    rw [pairsFrom, fetch_ofNat (List.getElem?_eq_getElem hi), ih (by omega),
      List.drop_eq_getElem_cons hi]
    rfl

/-- A new frame in which parameters are bound to arguments; surplus ones make a list for the tail.
-/
def bind (outer : Option FrameId) (params : List Text) (tail : Option Text) (args : List Value) :
    Run FrameId := do
  match tail with
  | none =>
    if args.length ≠ params.length then fault (.parameters params.length args.length)
    else
      let pairs ← check (pairsFrom args 0 params)
      newFrame outer (.ofPairs pairs)
  | some name =>
    if args.length < params.length then fault (.parametersAtLeast params.length args.length)
    else
      let pairs ← check (pairsFrom args 0 params)
      let surplus ← makeList (← check (behind args params.length))
      newFrame outer ((Bindings.ofPairs pairs).put name surplus)

theorem bind_none (outer : Option FrameId) (params : List Text) (args : List Value) :
    bind outer params none args =
      if args.length ≠ params.length then fault (.parameters params.length args.length)
      else newFrame outer (.ofPairs (params.zip args)) := by
  unfold bind
  dsimp only
  split
  · rfl
  · rename_i h
    rw [pairsFrom_eq (by omega), check_ok_bind, List.drop_zero]

theorem bind_some (outer : Option FrameId) (params : List Text) (name : Text) (args : List Value) :
    bind outer params (some name) args =
      if args.length < params.length then fault (.parametersAtLeast params.length args.length)
      else
        makeList (args.drop params.length) >>= fun surplus =>
          newFrame outer ((Bindings.ofPairs (params.zip args)).put name surplus) := by
  unfold bind
  dsimp only
  split
  · rfl
  · rename_i h
    rw [pairsFrom_eq (by omega), behind_ofNat (by omega), check_ok_bind, check_ok_bind,
      List.drop_zero]

def bindClosure (c : Closure) (args : List Value) : Run FrameId :=
  bind (some c.scope) c.params c.tail args

/-- The text of a value. -/
def print (style : Style) (v : Value) : Run Text := do check (← look (·.print style v))

theorem print_eq (style : Style) (v : Value) : print style v = look (·.render style v) := by
  simp only [print, Heap.print_eq]
  rfl

/-- Adds a line to the log if it is kept; the line may look at the heap. -/
def note (line : Heap → Except Crash Text) : Run Unit := fun w =>
  if w.log.isEnabled then
    match line w.heap with
    | .ok line => .ok () { w with log := w.log.add line }
    | .error c => .error (.crash c) w
  else .ok () w

end Run

end Lisp
