import Lisp.Operation.Answer

/-!
Evaluation of forms. One turn looks at a form and ends with a value, or with a form in tail position
and the frame to go on in; turns follow one another in a loop, so that tail calls do not nest. What
a turn evaluates on the way, it evaluates one level deeper. Depth and steps are both bounded: an
evaluation that needs more than it was given ends as exhausted.
-/
namespace Lisp

/-- What a turn ends with. -/
inductive Turn
  | done (v : Value)
  | next (form : Value) (frame : FrameId)
  deriving DecidableEq

/-- A way to evaluate a form in a frame. -/
abbrev Evaluation := Value → FrameId → Run Value

/-- A way to call a function value. -/
abbrev Application := Value → List Value → Run Value

/-- What there is to call in a value. -/
inductive Callee
  | native (n : Native)
  | closure (c : Closure)
  | nothing (got : Kind)
  deriving DecidableEq

namespace Heap

@[inline] def callee (h : Heap) (v : Value) : Callee :=
  match h.content v with
  | .native id => .native (h.native id)
  | .closure id => .closure (h.closure id)
  | content => .nothing content.kind

end Heap

namespace Run

/-- Takes what the heap gives, or fails with its fault. -/
@[inline] def require {α : Type} (f : Heap → Except Fault α) : Run α := do
  match ← look f with
  | .ok a => pure a
  | .error e => fault e

/-- Takes what the heap gives, or fails as it does. -/
@[inline] def settle {α : Type} (f : Heap → Except Failure α) : Run α := do
  match ← look f with
  | .ok a => pure a
  | .error e => throw e

end Run

/-- The natives that only look at their arguments and act on the state once, as an interpreter is
built with them. -/
class Library where
  call : Operation → List Value → Run Value

instance Library.standard : Library := ⟨Operation.call⟩

@[simp] theorem Library.call_standard (op : Operation) (args : List Value) :
    Library.call op args = op.call args := rfl

namespace Evaluator

theorem bind_ok {α β : Type} {m : Run α} {f : α → Run β} {w w' : World} {a : α}
    (h : m w = .ok a w') : (m >>= f) w = f a w' := by
  change EStateM.bind m f w = f a w'
  rw [EStateM.bind, h]

theorem bind_error {α β : Type} {m : Run α} {f : α → Run β} {w w' : World} {e : Failure}
    (h : m w = .error e w') : (m >>= f) w = .error e w' := by
  change EStateM.bind m f w = .error e w'
  rw [EStateM.bind, h]

/-- Evaluates forms from left to right. -/
def evalAll (eval : Evaluation) (frame : FrameId) : List Value → Run (List Value)
  | [] => pure []
  | form :: rest => do
    let v ← eval form frame
    let vs ← evalAll eval frame rest
    pure (v :: vs)

/-- Evaluates the keys and values of a map in turn. -/
def evalEntries (eval : Evaluation) (frame : FrameId) : List (Value × Value) → Run (List Value)
  | [] => pure []
  | (key, value) :: rest => do
    let k ← eval key frame
    let v ← eval value frame
    let more ← evalEntries eval frame rest
    pure (k :: v :: more)

/-- One form for several: they are wrapped in a `do`. -/
def bodyOf (forms : List Value) : Run Value :=
  if forms.length = 0 then pure .nil
  else if forms.length = 1 then Run.check (fetch forms 0)
  else Run.makeList (.symbol Special.sequence.name :: forms)

theorem bodyOf_eq (forms : List Value) :
    bodyOf forms =
      match forms with
      | [] => pure .nil
      | [form] => pure form
      | forms => Run.makeList (.symbol Special.sequence.name :: forms) := by
  rcases forms with _ | ⟨form, _ | ⟨other, rest⟩⟩ <;> simp [bodyOf]

/-- Runs a macro on argument forms. -/
def expand (eval : Evaluation) (c : Closure) (forms : List Value) : Run Value := do
  let frame ← Run.bindClosure c forms
  let expansion ← eval c.body frame
  Run.note fun h => do
    return Log.line "macro expanded" [("expansion", ← h.print .readable expansion)]
  pure expansion

theorem expand_eq (eval : Evaluation) (c : Closure) (forms : List Value) :
    expand eval c forms = (do
      let frame ← Run.bindClosure c forms
      let expansion ← eval c.body frame
      Run.note fun h =>
        .ok (Log.line "macro expanded" [("expansion", h.render .readable expansion)])
      pure expansion) := by
  simp only [expand, Heap.print_eq]
  rfl

/-- The macro that a symbol names. -/
def macroNamed? (w : World) (frame : FrameId) (head : Value) : Option Closure := do
  let name ← w.heap.symbol? head
  let v ← w.scopes.find? frame name
  match w.heap.callee v with
  | .closure c => if c.isMacro then some c else none
  | _ => none

/-- The macro that the head of a list names. -/
def macroFor (frame : FrameId) (form : Value) : Run (Option Closure) := do
  match ← Run.look (·.content form) with
  | .list cell =>
    let items ← Run.look (·.sequence cell)
    match ← Run.check (items.nth 0) with
    | some head => return macroNamed? (← get) frame head
    | none => pure none
  | _ => pure none

/-- Expands a form for as long as its head names a macro. -/
def expandAll (eval : Evaluation) (frame : FrameId) : (steps : Nat) → Value → Run Value
  | 0, _ => throw .exhausted
  | steps + 1, form => do
    match ← macroFor frame form with
    | none => pure form
    | some c =>
      let items ← Run.look (·.elements? form)
      let forms ← Run.check (behind (items.getD []) 1)
      let form ← expand eval c forms
      expandAll eval frame steps form

/-- The macro at the head of a list and the forms behind it. -/
def macroCall? (w : World) (frame : FrameId) (form : Value) : Option (Closure × List Value) :=
  match w.heap.content form with
  | .list cell =>
    match w.heap.items cell with
    | head :: rest => do
      let name ← w.heap.symbol? head
      let v ← w.scopes.find? frame name
      match w.heap.callee v with
      | .closure c => if c.isMacro then some (c, rest) else none
      | _ => none
    | [] => none
  | _ => none

theorem macroCall?_of_items {w : World} {form head : Value} {cell : CellId} {rest : List Value}
    (hform : w.heap.content form = .list cell) (hitems : w.heap.items cell = head :: rest)
    (frame : FrameId) :
    macroCall? w frame form = (macroNamed? w frame head).map (·, rest) := by
  simp only [macroCall?, hform, hitems, macroNamed?]
  cases w.heap.symbol? head with
  | none => rfl
  | some name =>
    cases hv : w.scopes.find? frame name with
    | none => simp [hv]
    | some v =>
      cases hcallee : w.heap.callee v with
      | closure c => cases hmacro : c.isMacro <;> simp [hv, hcallee, hmacro]
      | _ => simp [hv, hcallee]

theorem macroFor_eq (frame : FrameId) (form : Value) (w : World) :
    macroFor frame form w = .ok ((macroCall? w frame form).map (·.1)) w := by
  unfold macroFor
  rw [Run.look_bind]
  cases hform : w.heap.content form with
  | list cell =>
    have hfirst : (w.heap.sequence cell).nth 0 = .ok (w.heap.items cell)[0]? := by
      simp [Sequence.nth_eq, Sequence.get?_eq, Heap.items]
    simp only [Run.look_bind, hfirst, Run.check_ok_bind]
    cases hitems : w.heap.items cell with
    | nil =>
      simp only [macroCall?, hform, hitems]
      rfl
    | cons head rest =>
      rw [macroCall?_of_items hform hitems, Option.map_map]
      simp only [List.getElem?_cons_zero, Run.get_bind, Function.comp_def, Option.map_id_fun']
      rfl
  | _ =>
    simp only [macroCall?, hform]
    rfl

theorem behind_macroCall? {w : World} {frame : FrameId} {form : Value} {c : Closure}
    {forms : List Value} (hcall : macroCall? w frame form = some (c, forms)) :
    behind ((w.heap.elements? form).getD []) 1 = .ok forms := by
  cases hform : w.heap.content form with
  | list cell =>
    cases hitems : w.heap.items cell with
    | nil => simp [macroCall?, hform, hitems] at hcall
    | cons head rest =>
      rw [macroCall?_of_items hform hitems] at hcall
      obtain ⟨c', -, heq⟩ := Option.map_eq_some_iff.mp hcall
      have helements : w.heap.elements? form = some (head :: rest) := by
        rw [← hitems]
        simp [Heap.elements?, Heap.sequence?, hform, Heap.items]
      cases heq
      rw [helements]
      exact behind_one ..
  | _ => simp [macroCall?, hform] at hcall

theorem expandAll_succ (eval : Evaluation) (frame : FrameId) (steps : Nat) (form : Value) :
    expandAll eval frame (steps + 1) form = (do
      match macroCall? (← get) frame form with
      | none => pure form
      | some (c, forms) =>
        let form ← expand eval c forms
        expandAll eval frame steps form) := by
  funext w
  rw [Run.get_bind, expandAll, bind_ok (macroFor_eq frame form w)]
  cases hcall : macroCall? w frame form with
  | none => rfl
  | some call =>
    simp only [Option.map_some, Run.look_bind, behind_macroCall? hcall, Run.check_ok_bind]

end Evaluator

end Lisp
