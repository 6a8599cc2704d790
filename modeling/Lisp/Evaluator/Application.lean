import Lisp.Evaluator.Basic

/-!
Calling functions. Natives may call back: into functions through `apply`, `map` and `swap!`, and
into evaluation at the outermost frame through `eval`.
-/
namespace Lisp.Evaluator

/-- Calls a function on each element, from left to right. -/
def mapItems (apply : Application) (f : Value) : List Value → Run (List Value)
  | [] => pure []
  | item :: rest => do
    let v ← apply f [item]
    let vs ← mapItems apply f rest
    pure (v :: vs)

/-- Replaces what an atom holds by what a function makes of it. When the function itself left
another value in the atom, it is called again on that one. -/
def swap (apply : Application) (atom : AtomId) (f : Value) (extra : List Value) :
    (steps : Nat) → Run Value
  | 0 => throw .exhausted
  | steps + 1 => do
    let old ← Run.look (·.deref atom)
    let new ← apply f (old :: extra)
    let now ← Run.look (·.deref atom)
    if now = old then Run.onHeap fun h => (new, h.reset atom new)
    else swap apply atom f extra steps

section Natives

variable (eval : Evaluation) (apply : Application) (steps : Nat) (name : Text) (args : List Value)

/-- Calls a function on arguments of which the last is a sequence of further ones. -/
def callApply : Run Value := do
  if args.length < 2 then Run.fault (.argumentsAtLeast name 2 args.length)
  else
    let last ← Run.check (fetch args (args.length - 1))
    let items ← Run.require (Collection.elements name · last)
    let leading ← Run.check (part args 1 (args.length - 1))
    let f ← Run.check (fetch args 0)
    apply f (leading ++ items)

def callMap : Run Value := do
  if args.length ≠ 2 then Run.fault (.arguments name 2 args.length)
  else
    let coll ← Run.check (fetch args 1)
    let items ← Run.require (Collection.elements name · coll)
    let f ← Run.check (fetch args 0)
    Run.makeList (← mapItems apply f items)

def callSwap : Run Value := do
  if args.length < 2 then Run.fault (.argumentsAtLeast name 2 args.length)
  else
    let target ← Run.check (fetch args 0)
    match ← Run.look (·.content target) with
    | .atom atom =>
      let f ← Run.check (fetch args 1)
      let extra ← Run.check (behind args 2)
      swap apply atom f extra steps
    | content => Run.fault (.operand name (Text.of "an atom") content.kind)

def callEval : Run Value := do
  if args.length ≠ 1 then Run.fault (.arguments name 1 args.length)
  else
    let form ← Run.check (fetch args 0)
    eval form World.root

end Natives

/-- Calls a native. -/
def invoke [Library] (eval : Evaluation) (apply : Application) (steps : Nat) (n : Native)
    (args : List Value) : Run Value :=
  match n with
  | .operation op => Library.call op args
  | .apply => callApply apply n.name args
  | .map => callMap apply n.name args
  | .swap => callSwap apply steps n.name args
  | .eval => callEval eval n.name args
  | .inert _ => pure .nil

theorem invoke_eq [Library] (eval : Evaluation) (apply : Application) (steps : Nat) (n : Native)
    (args : List Value) :
    invoke eval apply steps n args =
      match n with
      | .operation op => Library.call op args
      | .apply =>
        match args with
        | f :: x :: more => do
          let leading := (x :: more).dropLast
          let last := (x :: more).getLastD .nil
          let items ← Run.require (Collection.elements n.name · last)
          apply f (leading ++ items)
        | _ => Run.fault (.argumentsAtLeast n.name 2 args.length)
      | .map =>
        match args with
        | [f, coll] => do
          let items ← Run.require (Collection.elements n.name · coll)
          Run.makeList (← mapItems apply f items)
        | _ => Run.fault (.arguments n.name 2 args.length)
      | .swap =>
        match args with
        | target :: f :: extra => do
          match ← Run.look (·.content target) with
          | .atom atom => swap apply atom f extra steps
          | content => Run.fault (.operand n.name (Text.of "an atom") content.kind)
        | _ => Run.fault (.argumentsAtLeast n.name 2 args.length)
      | .eval =>
        match args with
        | [form] => eval form World.root
        | _ => Run.fault (.arguments n.name 1 args.length)
      | .inert _ => pure .nil := by
  cases n with
  | apply =>
    rcases args with _ | ⟨f, _ | ⟨x, more⟩⟩
    · rfl
    · rfl
    · obtain ⟨leading, last, hmore⟩ : ∃ leading last, x :: more = leading ++ [last] :=
        ⟨_, _, (List.dropLast_concat_getLast (List.cons_ne_nil x more)).symm⟩
      have hlast : fetch (f :: (leading ++ [last])) ((f :: (leading ++ [last])).length - 1) =
          .ok last := fetch_last (f :: leading) last
      have hlength : ¬ (f :: x :: more).length < 2 := by simp
      simp only [invoke, callApply, if_neg hlength]
      simp only [hmore, hlast, part_inner, fetch_zero, Run.check_ok_bind, List.dropLast_concat,
        List.getLastD_concat]
  | map => rcases args with _ | ⟨f, _ | ⟨coll, _ | ⟨x, more⟩⟩⟩ <;> simp [invoke, callMap]
  | swap =>
    rcases args with _ | ⟨target, _ | ⟨f, extra⟩⟩
    · rfl
    · rfl
    · have hlength : ¬ (target :: f :: extra).length < 2 := by simp
      simp only [invoke, callSwap, if_neg hlength, fetch_zero, fetch_one, behind_two,
        Run.check_ok_bind]
  | eval => rcases args with _ | ⟨form, _ | ⟨x, more⟩⟩ <;> simp [invoke, callEval]
  | _ => rfl

/-- Calls a function value, with `apply` for the calls that a native makes. -/
def applyOnce [Library] (eval : Evaluation) (apply : Application) (steps : Nat) (f : Value)
    (args : List Value) : Run Value := do
  match ← Run.look (·.callee f) with
  | .native n => invoke eval apply steps n args
  | .closure c =>
    let frame ← Run.bindClosure c args
    eval c.body frame
  | .nothing got =>
    let shown ← Run.print .readable f
    Run.fault (.notFunction got shown)

/-- Calls a function value on arguments; `steps` bounds how far natives call natives. -/
def apply [Library] (eval : Evaluation) : (steps : Nat) → Application
  | 0, _, _ => throw .exhausted
  | steps + 1, f, args => applyOnce eval (apply eval steps) steps f args

end Lisp.Evaluator
