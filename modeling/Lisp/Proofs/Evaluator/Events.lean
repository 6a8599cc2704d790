import Lisp.Proofs.Evaluator.Meaning
import Lisp.Proofs.Evaluator.Program

/-!
The operations that a computation calls. A record lists the calls one after the other, each in its
world, and what is done between two of them generates no symbol. All evaluations and calls have
records. Along a record the number of symbols generated so far never falls.
-/
namespace Lisp

/-- Goes on after a computation, whichever way it ends. -/
def Run.either {α β : Type} (m : Run α) (f : α → Run β) (g : Failure → Run β) : Run β := fun w =>
  match m w with
  | .ok a u => f a u
  | .error e u => g e u

/-- The call of an operation. -/
structure Event where
  op : Operation
  args : List Value
  world : World

/-- The world that the call leaves behind. -/
def Event.after (event : Event) : World := event.world.after (event.op.call event.args)

inductive Record : {α : Type} → Run α → World → List Event → Prop
  | quiet {α : Type} (m : Run α) [m.Quiet] (w : World) : Record m w []
  | call (op : Operation) (args : List Value) (w : World) :
    Record (op.call args) w [⟨op, args, w⟩]
  | ok {α β : Type} {m : Run α} {f : α → Run β} {g : Failure → Run β} {w u : World} {a : α}
    {events later : List Event} :
    Record m w events → m w = .ok a u → Record (f a) u later →
    Record (m.either f g) w (events ++ later)
  | error {α β : Type} {m : Run α} {f : α → Run β} {g : Failure → Run β} {w u : World}
    {e : Failure} {events later : List Event} :
    Record m w events → m w = .error e u → Record (g e) u later →
    Record (m.either f g) w (events ++ later)

namespace World

variable {α β : Type} {m : Run α} {f : α → Run β} {g : Failure → Run β} {w u : World}

theorem after_either_ok {a : α} (h : m w = .ok a u) : w.after (m.either f g) = u.after (f a) := by
  simp only [after, Run.either, h]

theorem after_either_error {e : Failure} (h : m w = .error e u) :
    w.after (m.either f g) = u.after (g e) := by
  simp only [after, Run.either, h]

end World

section Counting

variable {w : World}

/-- Only one reply generates a symbol. -/
theorem Reply.quiet_perform {reply : Reply} (hreply : ∀ stem, reply ≠ .generate stem) :
    reply.perform.Quiet := by
  cases reply with
  | generate stem => exact absurd rfl (hreply stem)
  | print line =>
    constructor
    intro w
    simp only [World.after, Reply.perform]
    cases w.console.print? (line.append [Text.newline]) <;> rfl
  | _ => exact ⟨fun _ => rfl⟩

theorem Operation.generated_le_after_call (op : Operation) (args : List Value) :
    w.generated ≤ (w.after (op.call args)).generated := by
  have hcall : w.after (op.call args) = w.after (op.answer w.host w.heap args).perform := rfl
  rw [hcall]
  cases op.answer w.host w.heap args with
  | error f => exact Nat.le_refl _
  | ok reply =>
    by_cases hreply : ∃ stem, reply = .generate stem
    · obtain ⟨stem, rfl⟩ := hreply
      exact Nat.le_succ _
    · have hquiet := Reply.quiet_perform fun stem hstem => hreply ⟨stem, hstem⟩
      exact Nat.le_of_eq (hquiet.generated_after w).symm

/-- From one number of generated symbols to another, the calls never go back. -/
def Ascends (low : Nat) : List Event → Nat → Prop
  | [], high => low ≤ high
  | event :: rest, high =>
    low ≤ event.world.generated ∧ Ascends event.after.generated rest high

variable {low middle high : Nat} {events later : List Event}

theorem Ascends.of_le (h : Ascends middle events high) (hle : low ≤ middle) :
    Ascends low events high := by
  cases events with
  | nil => exact Nat.le_trans hle h
  | cons event rest => exact ⟨Nat.le_trans hle h.1, h.2⟩

theorem Ascends.append (h : Ascends low events middle) (hlater : Ascends middle later high) :
    Ascends low (events ++ later) high := by
  induction events generalizing low with
  | nil => exact hlater.of_le h
  | cons event rest ih => exact ⟨h.1, ih h.2⟩

theorem Ascends.le_of_mem (h : Ascends low events high) {event : Event} (hevent : event ∈ events) :
    low ≤ event.world.generated := by
  induction events generalizing low with
  | nil => cases hevent
  | cons first rest ih =>
    rcases List.mem_cons.mp hevent with rfl | hevent
    · exact h.1
    · have hfirst : first.world.generated ≤ first.after.generated :=
        first.op.generated_le_after_call first.args
      exact Nat.le_trans h.1 (Nat.le_trans hfirst (ih h.2 hevent))

theorem Ascends.pairwise (h : Ascends low events high) :
    events.Pairwise fun event next => event.after.generated ≤ next.world.generated := by
  induction events generalizing low with
  | nil => exact .nil
  | cons event rest ih => exact .cons (fun next hnext => h.2.le_of_mem hnext) (ih h.2)

end Counting

theorem bind_eq_either {α β : Type} (m : Run α) (f : α → Run β) :
    m >>= f = m.either f throw := by
  funext w
  simp only [run_bind, Ending.andThen, Run.either]
  cases m w <;> rfl

namespace Record

variable {α β : Type} {m : Run α} {f : α → Run β} {w u : World} {events later : List Event}

theorem bind {a : α} (hm : Record m w events) (hresult : m w = .ok a u)
    (hf : Record (f a) u later) : Record (m >>= f) w (events ++ later) := by
  rw [bind_eq_either]
  exact .ok hm hresult hf

theorem bind_quiet (hm : Record m w events) [∀ a, (f a).Quiet] : Record (m >>= f) w events := by
  rw [bind_eq_either, ← List.append_nil events]
  cases hresult : m w with
  | ok a u => exact .ok hm hresult (.quiet (f a) u)
  | error e u => exact .error hm hresult (.quiet (throw e) u)

theorem ascends (h : Record m w events) : Ascends w.generated events (w.after m).generated := by
  induction h with
  | quiet m w => exact Nat.le_of_eq (Run.Quiet.generated_after w).symm
  | call op args w => exact ⟨Nat.le_refl _, Nat.le_refl _⟩
  | ok hm hresult hf ihm ihf =>
    rw [World.after_ok hresult] at ihm
    rw [World.after_either_ok hresult]
    exact ihm.append ihf
  | error hm hresult hg ihm ihg =>
    rw [World.after_error hresult] at ihm
    rw [World.after_either_error hresult]
    exact ihm.append ihg

end Record

/-- There is a record from every world. -/
def Recorded {α : Type} (m : Run α) : Prop := ∀ w, ∃ events, Record m w events

section Recorded

variable {α β : Type} {m : Run α} {f : α → Run β} {g : Failure → Run β}

theorem recorded_quiet (m : Run α) [m.Quiet] : Recorded m := fun w => ⟨[], .quiet m w⟩

theorem recorded_either (hm : Recorded m) (hf : ∀ a, Recorded (f a)) (hg : ∀ e, Recorded (g e)) :
    Recorded (m.either f g) := by
  intro w
  obtain ⟨events, hevents⟩ := hm w
  cases hresult : m w with
  | ok a u =>
    obtain ⟨later, hlater⟩ := hf a u
    exact ⟨events ++ later, .ok hevents hresult hlater⟩
  | error e u =>
    obtain ⟨later, hlater⟩ := hg e u
    exact ⟨events ++ later, .error hevents hresult hlater⟩

theorem recorded_bind (hm : Recorded m) (hf : ∀ a, Recorded (f a)) : Recorded (m >>= f) := by
  rw [bind_eq_either]
  exact recorded_either hm hf fun e => recorded_quiet _

theorem recorded_map (g : α → β) (hm : Recorded m) : Recorded (g <$> m) := by
  rw [map_eq_pure_bind]
  exact recorded_bind hm fun a => recorded_quiet _

end Recorded

namespace Evaluator

/-- What is gone on with when an attempt fails. -/
def afterFailure (frame : FrameId) (name : Text) (handler : Value) : Failure → Run Turn
  | .thrown v => do
    let inner ← Run.newFrame (some frame) (.ofPairs [(name, v)])
    return .next handler inner
  | e => throw e

theorem catching_eq_either (m : Run Value) (frame : FrameId) (name : Text) (handler : Value) :
    catching m frame name handler =
      m.either (fun v => pure (.done v)) (afterFailure frame name handler) := by
  funext w
  unfold catching Run.either
  cases m w with
  | ok v u => rfl
  | error e u => cases e <;> rfl

theorem recorded_catching {m : Run Value} (hm : Recorded m) (frame : FrameId) (name : Text)
    (handler : Value) : Recorded (catching m frame name handler) := by
  rw [catching_eq_either]
  refine recorded_either hm (fun v => recorded_quiet _) fun e => ?_
  cases e with
  | thrown v =>
    simp only [afterFailure]
    exact recorded_quiet _
  | _ => exact recorded_quiet (throw _)

/-- A program whose tasks have records has records. -/
theorem ProgramIf.recorded {T α : Type} {P : (T → Run Value) → Run α} (hP : ProgramIf True P)
    {run : T → Run Value} (hrun : ∀ t, Recorded (run t)) : Recorded (P run) := by
  induction hP with
  | own m =>
    have hquiet : m.Quiet := QuietIf.isQuiet trivial
    exact recorded_quiet m
  | operation op args => exact fun w => ⟨_, .call op args w⟩
  | task t => exact hrun t
  | bind hm hf ihm ihf => exact recorded_bind ihm ihf
  | attempt frame name handler hm ihm => exact recorded_catching ihm frame name handler

/-- What has its evaluations run one by one has records if these have. -/
theorem recorded_evaluating {α : Type} {P : Evaluation → Run α}
    (hP : ProgramIf True fun run : Value × FrameId → Run Value =>
      P fun form frame => run (form, frame))
    {eval : Evaluation} (heval : ∀ form frame, Recorded (eval form frame)) : Recorded (P eval) := by
  have htasks : ∀ task : Value × FrameId, Recorded (eval task.1 task.2) :=
    fun task => heval task.1 task.2
  exact hP.recorded htasks

theorem recorded_eval (limit depth : Nat) (form : Value) (frame : FrameId) :
    Recorded (eval limit depth form frame) := by
  induction depth generalizing form frame with
  | zero => exact recorded_quiet (throw _)
  | succ depth ih =>
    refine recorded_evaluating
      (P := fun eval => loop (turn eval (apply eval limit) limit) limit form frame) ?_ ih
    exact program_loop (fun _ _ => .task _) (program_apply (fun _ _ => .task _) limit) limit limit
      form frame

theorem recorded_apply (limit depth steps : Nat) (f : Value) (args : List Value) :
    Recorded (apply (eval limit depth) steps f args) :=
  recorded_evaluating (P := fun eval => apply eval steps f args)
    (program_apply (fun _ _ => .task _) steps f args) (recorded_eval limit depth)

theorem recorded_expandAll (limit depth steps : Nat) (frame : FrameId) (form : Value) :
    Recorded (expandAll (eval limit depth) frame steps form) :=
  recorded_evaluating (P := fun eval => expandAll eval frame steps form)
    (program_expandAll (fun _ _ => .task _) frame steps form) (recorded_eval limit depth)

end Evaluator

end Lisp
