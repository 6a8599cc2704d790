import Lisp.Evaluator.Application
import Lisp.Evaluator.Forms

/-!
Turns and the loop over them.
-/
namespace Lisp.Evaluator

/-- The special form that a list with this head is. -/
def specialOf? (h : Heap) (head : Value) : Option Special := (h.symbol? head).bind Special.ofName?

/-- A call once the value of its head is known: a macro runs on the forms and its expansion is gone
on with; a closure is gone on with in its own frame. -/
def callValue [Library] (eval : Evaluation) (apply : Application) (steps : Nat) (frame : FrameId)
    (head : Value) (forms : List Value) (f : Value) : Run Turn := do
  match ← Run.look (·.callee f) with
  | .closure c =>
    if c.isMacro then
      let expansion ← expand eval c forms
      return .next expansion frame
    else
      let args ← evalAll eval frame forms
      let inner ← Run.bindClosure c args
      return .next c.body inner
  | .native n =>
    let args ← evalAll eval frame forms
    return .done (← invoke eval apply steps n args)
  | .nothing got =>
    let shown ← Run.print .readable head
    Run.fault (.notFunction got shown)

def call [Library] (eval : Evaluation) (apply : Application) (steps : Nat) (frame : FrameId)
    (head : Value) (forms : List Value) : Run Turn := do
  let f ← eval head frame
  callValue eval apply steps frame head forms f

/-- One turn. -/
def turn [Library] (eval : Evaluation) (apply : Application) (steps : Nat) (form : Value)
    (frame : FrameId) : Run Turn := do
  match ← Run.look (·.content form) with
  | .symbol name => return .done (← Run.lookup frame name)
  | .vector cell =>
    let items ← Run.look (·.items cell)
    return .done (← Run.makeVector (← evalAll eval frame items))
  | .map entries => return .done (← Run.makeMap (← evalEntries eval frame entries.toList))
  | .list cell =>
    let list ← Run.look (·.items cell)
    if list.length = 0 then return .done form
    else
      let head ← Run.check (fetch list 0)
      let forms ← Run.check (behind list 1)
      match ← Run.look (specialOf? · head) with
      | some name => special eval steps frame name forms
      | none => call eval apply steps frame head forms
  | _ => return .done form

theorem turn_eq [Library] (eval : Evaluation) (apply : Application) (steps : Nat) (form : Value)
    (frame : FrameId) :
    turn eval apply steps form frame = (do
      match ← Run.look (·.content form) with
      | .symbol name => return .done (← Run.lookup frame name)
      | .vector cell =>
        let items ← Run.look (·.items cell)
        return .done (← Run.makeVector (← evalAll eval frame items))
      | .map entries => return .done (← Run.makeMap (← evalEntries eval frame entries.toList))
      | .list cell =>
        match ← Run.look (·.items cell) with
        | [] => return .done form
        | head :: forms =>
          match ← Run.look (specialOf? · head) with
          | some name => special eval steps frame name forms
          | none => call eval apply steps frame head forms
      | _ => return .done form) := by
  funext w
  rw [turn, Run.look_bind, Run.look_bind]
  cases w.heap.content form with
  | list cell =>
    change (Run.look (·.items cell) >>= _) w = (Run.look (·.items cell) >>= _) w
    rw [Run.look_bind, Run.look_bind]
    cases w.heap.items cell <;> simp
  | _ => rfl

/-- Turn after turn until there is a value. -/
def loop (turn : Value → FrameId → Run Turn) : (steps : Nat) → Evaluation
  | 0, _, _ => throw .exhausted
  | steps + 1, form, frame => do
    match ← turn form frame with
    | .done v => pure v
    | .next form frame => loop turn steps form frame

/-- Evaluation within a depth of nested evaluations and a number of turns for each. -/
def eval [Library] (steps : Nat) : (depth : Nat) → Evaluation
  | 0, _, _ => throw .exhausted
  | depth + 1, form, frame =>
    let inner := eval steps depth
    loop (turn inner (apply inner steps) steps) steps form frame

end Lisp.Evaluator
