import Lisp.World

/-!
What a native answers. Looking at the arguments and acting on the state are kept apart: an operation
first settles its answer from the heap as it is, and the few ways to act on the state are listed
here.
-/
namespace Lisp

inductive Reply
  | give (v : Value)
  | make (c : Content)
  | makeString (s : Text)
  | makeList (items : Sequence Value)
  | makeVector (items : Sequence Value) (metadata : Option Value)
  | makeAtom (v : Value)
  /-- A copy of `v` with metadata. -/
  | annotate (v metadata : Value)
  | build (d : Datum)
  /-- Adds to the cell of the list `whole` and gives the list. -/
  | append (whole : Value) (cell : CellId) (vs : List Value)
  | reset (atom : AtomId) (v : Value)
  /-- A symbol of the stem and the next number. -/
  | generate (stem : Text)
  | print (line : Rope)
  | raise (v : Value)
  | raiseText (s : Text)
  | unreadable (e : ParseError)
  | want (path : Text)
  | crash (c : Crash)

namespace Reply

def ofBool (b : Bool) : Reply := .give (.bool b)

def perform : Reply → Run Value
  | .give v => pure v
  | .make c => Run.make c
  | .makeString s => Run.onHeap (·.makeString s)
  | .makeList items => Run.onHeap (·.makeSequence .list items none)
  | .makeVector items metadata => Run.onHeap (·.makeSequence .vector items metadata)
  | .makeAtom v => Run.onHeap (·.makeAtom v)
  | .annotate v metadata => Run.onHeap (·.withMetadata v metadata)
  | .build d => Run.build d
  | .append whole cell vs => Run.onHeap fun h => (whole, h.append cell vs)
  | .reset atom v => Run.onHeap fun h => (v, h.reset atom v)
  | .generate stem => fun w =>
    let number := w.generated + 1
    .ok (.symbol (stem ++ Text.ofNat number)) { w with generated := number }
  | .print line => fun w =>
    match w.console.print? (line.append [Text.newline]) with
    | some console => .ok .nil { w with console }
    | none => .error (.host (Text.of "output closed")) w
  | .raise v => throw (.thrown v)
  | .raiseText s => do
    let v ← Run.onHeap (·.makeString s)
    throw (.thrown v)
  | .unreadable e => throw (.ofParse e)
  | .want path => throw (.unread path)
  | .crash c => throw (.crash c)

end Reply

/-- A reply, or the fault of a call that is not as the operation wants it. -/
abbrev Answer := Except Fault Reply

namespace Answer

def perform : Answer → Run Value
  | .ok reply => reply.perform
  | .error f => Run.fault f

/-- Goes on with what a partial operation gives. -/
def check {α : Type} (found : Except Crash α) (answer : α → Answer) : Answer :=
  match found with
  | .ok a => answer a
  | .error c => .ok (.crash c)

@[simp] theorem check_ok {α : Type} (a : α) (answer : α → Answer) :
    check (.ok a) answer = answer a := rfl

/-- For natives of one argument. -/
def unary (name : Text) (args : List Value) (answer : Value → Answer) : Answer :=
  if args.length ≠ 1 then .error (.arguments name 1 args.length) else check (fetch args 0) answer

/-- For natives of two arguments. -/
def binary (name : Text) (args : List Value) (answer : Value → Value → Answer) : Answer :=
  if args.length ≠ 2 then .error (.arguments name 2 args.length)
  else check (fetch args 0) fun x => check (fetch args 1) (answer x)

/-- For natives of at least one argument. -/
def variadic (name : Text) (args : List Value) (answer : Value → List Value → Answer) : Answer :=
  if args.length < 1 then .error (.argumentsAtLeast name 1 args.length)
  else check (fetch args 0) fun x => check (behind args 1) (answer x)

section Arguments

variable (name : Text) (args : List Value)

theorem unary_eq (answer : Value → Answer) :
    unary name args answer =
      match args with
      | [x] => answer x
      | _ => .error (.arguments name 1 args.length) := by
  rcases args with _ | ⟨x, _ | ⟨y, more⟩⟩ <;> simp [unary]

theorem binary_eq (answer : Value → Value → Answer) :
    binary name args answer =
      match args with
      | [x, y] => answer x y
      | _ => .error (.arguments name 2 args.length) := by
  rcases args with _ | ⟨x, _ | ⟨y, _ | ⟨z, more⟩⟩⟩ <;> simp [binary]

theorem variadic_eq (answer : Value → List Value → Answer) :
    variadic name args answer =
      match args with
      | x :: more => answer x more
      | [] => .error (.argumentsAtLeast name 1 0) := by
  cases args <;> simp [variadic]

end Arguments

/-- The fault of an argument that is not of the kind wanted. -/
def refuse {α : Type} (name : Text) (h : Heap) (wanted : String) (got : Value) : Except Fault α :=
  .error (.operand name (Text.of wanted) (h.kind got))

end Answer

end Lisp
