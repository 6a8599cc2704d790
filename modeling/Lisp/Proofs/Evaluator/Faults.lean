import Mathlib.Logic.Relation
import Lisp.Proofs.Evaluator.Program

/-!
Faults end an evaluation. An evaluation runs other evaluations and calls on its way; when one of
them, at whatever depth, fails with anything but a raised value, the evaluation ends there with that
failure and in the world in which it arose.
-/
namespace Lisp.Evaluator

/-- What a program starts from a world: a task is started where it is run, in the first part of a
sequence, in the second part once the first has given a value, and in an attempt. -/
inductive Starts {T : Type} (run : T → Run Value) :
    {α : Type} → ((T → Run Value) → Run α) → World → T → World → Prop
  | task (t : T) (w : World) : Starts run (fun run => run t) w t w
  | first {α β : Type} {m : (T → Run Value) → Run α} {f : (T → Run Value) → α → Run β}
    {w v : World} {t : T} :
    Starts run m w t v → Starts run (fun run => m run >>= f run) w t v
  | later {α β : Type} {m : (T → Run Value) → Run α} {f : (T → Run Value) → α → Run β}
    {w u v : World} {a : α} {t : T} :
    m run w = .ok a u → Starts run (fun run => f run a) u t v →
    Starts run (fun run => m run >>= f run) w t v
  | attempt {m : (T → Run Value) → Run Value} {frame : FrameId} {name : Text} {handler : Value}
    {w v : World} {t : T} :
    Starts run m w t v → Starts run (fun run => catching (m run) frame name handler) w t v

section Starts

variable {T α : Type} {run : T → Run Value} {P : (T → Run Value) → Run α} {w : World}

/-- Only a raised value is caught. -/
theorem catching_error {attempt : Run Value} {frame : FrameId} {name : Text} {handler : Value}
    {w w' : World} {e : Failure} (h : attempt w = .error e w') (he : ∀ x, e ≠ .thrown x) :
    catching attempt frame name handler w = .error e w' := by
  unfold catching
  rw [h]
  cases e with
  | thrown x => exact absurd rfl (he x)
  | _ => rfl

/-- What a program does is settled by the tasks that it starts. -/
theorem Program.eq_of_starts (h : Program P) {other : T → Run Value}
    (hsame : ∀ t v, Starts run P w t v → other t v = run t v) : P other w = P run w := by
  induction h generalizing w with
  | own m => rfl
  | operation op args => rfl
  | task t => exact hsame t w (.task t w)
  | @bind α β m f hm hf ihm ihf =>
    have hfirst : m other w = m run w := ihm fun t v ht => hsame t v (.first ht)
    cases hresult : m run w with
    | ok a w' =>
      have hrest : f other a w' = f run a w' := ihf a fun t v ht => hsame t v (.later hresult ht)
      calc (m other >>= f other) w = f other a w' := bind_ok (hfirst.trans hresult)
        _ = f run a w' := hrest
        _ = (m run >>= f run) w := (bind_ok hresult).symm
    | error e w' => exact (bind_error (hfirst.trans hresult)).trans (bind_error hresult).symm
  | attempt frame name handler hm ihm =>
    have hattempt := ihm fun t v ht => hsame t v (.attempt ht)
    simp only [catching, hattempt]

/-- A task that fails with anything but a raised value ends the program that started it. -/
theorem Starts.error {t : T} {v v' : World} {e : Failure} (h : Starts run P w t v)
    (ht : run t v = .error e v') (he : ∀ x, e ≠ .thrown x) : P run w = .error e v' := by
  induction h with
  | task t w => exact ht
  | first hm ih => exact bind_error (ih ht)
  | later hresult hf ih => exact (bind_ok hresult).trans (ih ht)
  | attempt hm ih => exact catching_error (ih ht) he

end Starts

/-- The evaluation of a form, or a call made by a native, with the bounds it is given. -/
inductive Task
  | evaluate (depth : Nat) (form : Value) (frame : FrameId)
  | call (depth steps : Nat) (f : Value) (args : List Value)

namespace Task

def run (limit : Nat) : Task → Run Value
  | .evaluate depth form frame => eval limit depth form frame
  | .call depth steps f args => apply (eval limit depth) steps f args

/-- One task, with the tasks that it starts left to `run`. -/
def body (limit : Nat) (t : Task) (run : Task → Run Value) : Run Value :=
  match t with
  | .evaluate 0 _ _ => throw .exhausted
  | .evaluate (depth + 1) form frame =>
    let eval form frame := run (.evaluate depth form frame)
    loop (turn eval (fun f args => run (.call depth limit f args)) limit) limit form frame
  | .call _ 0 _ _ => throw .exhausted
  | .call depth (steps + 1) f args =>
    let eval form frame := run (.evaluate depth form frame)
    applyOnce eval (fun f args => run (.call depth steps f args)) steps f args

theorem run_eq_body (limit : Nat) (t : Task) : t.run limit = t.body limit (Task.run limit) := by
  match t with
  | .evaluate 0 _ _ => rfl
  | .evaluate (depth + 1) form frame => rfl
  | .call _ 0 _ _ => rfl
  | .call depth (steps + 1) f args => rfl

theorem program_body (limit : Nat) (t : Task) : Program (t.body limit) := by
  match t with
  | .evaluate 0 _ _ => exact .own (throw _)
  | .evaluate (depth + 1) form frame =>
    exact program_loop (fun form frame => .task _) (fun f args => .task _) limit limit form frame
  | .call _ 0 _ _ => exact .own (throw _)
  | .call depth (steps + 1) f args =>
    exact program_applyOnce (fun form frame => .task _) (fun f args => .task _) steps f args

/-- One task in its world starts another in its own. -/
def Starts (limit : Nat) (outer inner : Task × World) : Prop :=
  Evaluator.Starts (Task.run limit) (outer.1.body limit) outer.2 inner.1 inner.2

end Task

/-- A failure that is no raised value passes through all that is around it, attempts included: the
evaluation ends as the task does that ended in it. -/
theorem failure_ends_evaluation (limit depth : Nat) (form : Value) (frame : FrameId) (w : World) :
    (∀ (t : Task) (v : World) (run : Task → Run Value),
      (∀ sub, Task.Starts limit (t, v) sub → run sub.1 sub.2 = sub.1.run limit sub.2) →
      t.body limit run v = t.run limit v) ∧
    ∀ (sub : Task) (v v' : World) (e : Failure),
      Relation.TransGen (Task.Starts limit) (.evaluate depth form frame, w) (sub, v) →
      sub.run limit v = .error e v' → (∀ x, e ≠ .thrown x) →
      eval limit depth form frame w = .error e v' := by
  constructor
  · intro t v run hsame
    rw [t.run_eq_body limit]
    exact (t.program_body limit).eq_of_starts fun sub u hsub => hsame (sub, u) hsub
  · intro sub v v' e hsub hfail he
    -- Outwards from the task that failed: whatever started it ends like it.
    have hpass : ∀ outer : Task × World, Relation.TransGen (Task.Starts limit) outer (sub, v) →
        outer.1.run limit outer.2 = .error e v' := by
      intro outer houter
      induction houter using Relation.TransGen.head_induction_on with
      | single hstart =>
        rw [Task.run_eq_body]
        exact hstart.error hfail he
      | head hstart hrest ih =>
        rw [Task.run_eq_body]
        exact hstart.error ih he
    exact hpass (.evaluate depth form frame, w) hsub

/-- `(try* (map nil [nil]) (catch* e nil))`, with `map` bound in the outermost frame. -/
def guarded : World where
  heap := {
    objects := #[⟨.native 0, none⟩, ⟨.list 0, none⟩, ⟨.list 1, none⟩, ⟨.vector 2, none⟩,
      ⟨.list 3, none⟩]
    cells := #[.ofList [.symbol Special.tryStar.name, .object 2, .object 4],
      .ofList [.symbol Native.map.name, .nil, .object 3], .ofList [.nil],
      .ofList [.symbol Special.catchStar.name, .symbol (Text.of "e"), .nil]]
    natives := #[.map] }
  scopes := ⟨#[{ bindings := .ofPairs [(Native.map.name, .object 0)] }]⟩

/-- The world once the vector has been evaluated. -/
def guardedArguments : World := { guarded with heap := (guarded.heap.makeVector [.nil]).2 }

/-- Nil is not a function: the call that `map` makes faults, and the handler around it is not run.
-/
theorem failure_ends_evaluation_guarded :
    (Task.evaluate 4 (.object 1) World.root).body 9 (Task.run 9) guarded =
      eval 9 4 (.object 1) World.root guarded ∧
    (Task.call 2 9 .nil [.nil]).run 9 guardedArguments =
      .error (.fault (.notFunction .nil (Text.of "nil"))) guardedArguments ∧
    eval 9 4 (.object 1) World.root guarded =
      .error (.fault (.notFunction .nil (Text.of "nil"))) guardedArguments := by
  have hbody : Task.Starts 9 (.evaluate 4 (.object 1) World.root, guarded)
      (.evaluate 3 (.object 2) World.root, guarded) := by
    refine .first (.later (a := Content.list 0) rfl ?_)
    refine .later (a := [.symbol Special.tryStar.name, .object 2, .object 4]) rfl ?_
    refine .later (a := Value.symbol Special.tryStar.name) rfl ?_
    refine .later (a := [Value.object 2, .object 4]) rfl ?_
    refine .later (a := some Special.tryStar) rfl ?_
    refine .later (a := Value.object 4) rfl ?_
    refine .later (a := (Text.of "e", Value.nil)) rfl ?_
    refine .later (a := Value.object 2) rfl ?_
    exact .attempt (.task _ _)
  have hcall : Task.Starts 9 (.evaluate 3 (.object 2) World.root, guarded)
      (.call 2 9 .nil [.nil], guardedArguments) := by
    refine .first (.later (a := Content.list 1) rfl ?_)
    refine .later (a := [.symbol Native.map.name, .nil, .object 3]) rfl ?_
    refine .later (a := Value.symbol Native.map.name) rfl ?_
    refine .later (a := [Value.nil, .object 3]) rfl ?_
    refine .later (a := none) rfl ?_
    refine .later (a := .object 0) rfl ?_
    refine .later (a := Callee.native .map) rfl ?_
    refine .later (a := [.nil, .object 5]) (u := guardedArguments) rfl ?_
    refine .first (.later (a := Value.object 5) rfl ?_)
    refine .later (a := [Value.nil]) rfl ?_
    refine .later (a := Value.nil) rfl ?_
    exact .first (.first (.task _ _))
  have hfault : (Task.call 2 9 .nil [.nil]).run 9 guardedArguments =
      .error (.fault (.notFunction .nil (Text.of "nil"))) guardedArguments := rfl
  obtain ⟨hsettled, hends⟩ := failure_ends_evaluation 9 4 (.object 1) World.root guarded
  refine ⟨hsettled (.evaluate 4 (.object 1) World.root) guarded _ fun _ _ => rfl, hfault, ?_⟩
  exact hends _ _ _ _ (.tail (.single hbody) hcall) hfault fun _ => by simp

end Lisp.Evaluator
