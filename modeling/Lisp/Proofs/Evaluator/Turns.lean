import Lisp.Proofs.Evaluator.Faults
import Lisp.Proofs.Evaluator.Meaning

/-!
Turns of an evaluation, from some bounds on. Bounds on turns, depth and steps are large enough for a
derivation when evaluation ends as derived within them and within all larger ones. What one turn
does with a constant, a name, a vector, a map or a malformed form does not depend on them.
-/
namespace Lisp.Meaning

open Evaluator

/-- What bounds an evaluation: the turns and the depth it was given, and how far natives may call
natives and a function that goes on by itself may still go. -/
structure Bounds where
  limit : Nat
  depth : Nat
  calls : Nat
  steps : Nat

namespace Bounds

def AtLeast (n : Nat) (b : Bounds) : Prop :=
  n ≤ b.limit ∧ n ≤ b.depth ∧ n ≤ b.calls ∧ n ≤ b.steps

/-- Evaluation of what is not in tail position. -/
abbrev eval (b : Bounds) : Evaluation := Evaluator.eval b.limit b.depth

abbrev apply (b : Bounds) : Application := Evaluator.apply b.eval b.calls

/-- One turn of an evaluation. -/
abbrev turn (b : Bounds) : Value → FrameId → Run Turn :=
  Evaluator.turn b.eval (Evaluator.apply b.eval b.limit) b.limit

end Bounds

/-- From some bounds on. -/
def Eventually (p : Bounds → Prop) : Prop := ∃ n, ∀ b : Bounds, b.AtLeast n → p b

namespace Eventually

variable {p q : Bounds → Prop}

theorem of_forall (hp : ∀ b, p b) : Eventually p := ⟨0, fun b _ => hp b⟩

theorem imp (hp : Eventually p) (hpq : ∀ b, p b → q b) : Eventually q := by
  obtain ⟨n, hn⟩ := hp
  exact ⟨n, fun b hb => hpq b (hn b hb)⟩

theorem and (hp : Eventually p) (hq : Eventually q) : Eventually fun b => p b ∧ q b := by
  obtain ⟨m, hm⟩ := hp
  obtain ⟨n, hn⟩ := hq
  refine ⟨max m n, fun b hb => ⟨hm b ?_, hn b ?_⟩⟩
  · simp only [Bounds.AtLeast] at hb ⊢
    omega
  · simp only [Bounds.AtLeast] at hb ⊢
    omega

/-- One step more. -/
theorem step (hp : Eventually p) (hpq : ∀ b, p b → q { b with steps := b.steps + 1 }) :
    Eventually q := by
  obtain ⟨n, hn⟩ := hp
  refine ⟨n + 1, fun b hb => ?_⟩
  obtain ⟨limit, depth, calls, steps⟩ := b
  obtain ⟨hlimit, hdepth, hcalls, hsteps⟩ := hb
  obtain ⟨steps, rfl⟩ := Nat.exists_eq_add_of_le' (Nat.le_trans (Nat.le_add_left 1 n) hsteps)
  refine hpq ⟨limit, depth, calls, steps⟩ (hn _ ?_)
  simp only [Bounds.AtLeast] at hlimit hdepth hcalls hsteps ⊢
  omega

/-- There is a step to take. -/
theorem of_step (hq : ∀ b : Bounds, q { b with steps := b.steps + 1 }) : Eventually q :=
  step (of_forall fun _ => trivial) fun b (_ : True) => hq b

/-- A native calls natives once more. -/
theorem call (hp : Eventually p)
    (hpq : ∀ b : Bounds, p { b with steps := b.calls } → q { b with calls := b.calls + 1 }) :
    Eventually q := by
  obtain ⟨n, hn⟩ := hp
  refine ⟨n + 1, fun b hb => ?_⟩
  obtain ⟨limit, depth, calls, steps⟩ := b
  obtain ⟨hlimit, hdepth, hcalls, hsteps⟩ := hb
  obtain ⟨calls, rfl⟩ := Nat.exists_eq_add_of_le' (Nat.le_trans (Nat.le_add_left 1 n) hcalls)
  refine hpq ⟨limit, depth, calls, steps⟩ (hn _ ?_)
  simp only [Bounds.AtLeast] at hlimit hdepth hcalls hsteps ⊢
  omega

/-- There is a call to make. -/
theorem of_call (hq : ∀ b : Bounds, q { b with calls := b.calls + 1 }) : Eventually q :=
  call (of_forall fun _ => trivial) fun b (_ : True) => hq b

/-- Inside a turn all bounds are those that the evaluation was given. -/
theorem given (hp : Eventually p) :
    Eventually fun b => p { b with calls := b.limit, steps := b.limit } := by
  obtain ⟨n, hn⟩ := hp
  exact ⟨n, fun b ⟨hlimit, hdepth, _, _⟩ => hn _ ⟨hlimit, hdepth, hlimit, hlimit⟩⟩

/-- One level deeper an evaluation starts with all its turns. -/
theorem deeper (hp : Eventually p)
    (hpq : ∀ b : Bounds, p { b with steps := b.limit } → q { b with depth := b.depth + 1 }) :
    Eventually q := by
  obtain ⟨n, hn⟩ := hp
  refine ⟨n + 1, fun b hb => ?_⟩
  obtain ⟨limit, depth, calls, steps⟩ := b
  obtain ⟨hlimit, hdepth, hcalls, hsteps⟩ := hb
  obtain ⟨depth, rfl⟩ := Nat.exists_eq_add_of_le' (Nat.le_trans (Nat.le_add_left 1 n) hdepth)
  refine hpq ⟨limit, depth, calls, steps⟩ (hn _ ?_)
  simp only [Bounds.AtLeast] at hlimit hdepth hcalls hsteps ⊢
  omega

end Eventually

/-- The loop over turns ends so. -/
def Loops (w : World) (form : Value) (frame : FrameId) (r : Ending Value) : Prop :=
  Eventually fun b => loop b.turn b.steps form frame w = r

section Turns

variable {w u : World} {form form' : Value} {frame frame' : FrameId} {r : Ending Value}

theorem Loops.eval (h : Loops w form frame r) : Eventually fun b => b.eval form frame w = r :=
  h.deeper fun _ hloop => hloop

/-- A turn that ends with a value, or fails, ends the loop. -/
theorem loops_of_done
    (h : Eventually fun b => b.turn form frame w = r.andThen fun v => pure (.done v)) :
    Loops w form frame r := by
  refine h.step fun b hturn => ?_
  simp only [loop, run_bind, hturn, Ending.andThen_assoc]
  cases r <;> rfl

/-- A turn that ends with a form in tail position goes on with it. -/
theorem loops_of_next (h : Eventually fun b => b.turn form frame w = .ok (.next form' frame') u)
    (hnext : Loops u form' frame' r) : Loops w form frame r := by
  refine (h.and hnext).step fun b hb => ?_
  obtain ⟨hturn, hloop⟩ := hb
  simp only [loop, run_bind, hturn, Ending.andThen_ok]
  exact hloop

theorem turn_special {eval : Evaluation} {apply : Application} {steps : Nat} {special : Special}
    {forms : List Value} (h : IsSpecial w.heap form special forms) :
    Evaluator.turn eval apply steps form frame w =
      Evaluator.special eval steps frame special forms w := by
  obtain ⟨cell, head, hcontent, hitems, hname⟩ := h
  simp only [turn_eq, run_bind, run_look, Ending.andThen_ok, hcontent, hitems, specialOf?,
    hname]

theorem turn_call {eval : Evaluation} {apply : Application} {steps : Nat} {head : Value}
    {forms : List Value} (h : IsCall w.heap form head forms) :
    Evaluator.turn eval apply steps form frame w =
      Evaluator.call eval apply steps frame head forms w := by
  obtain ⟨cell, hcontent, hitems, hname⟩ := h
  simp only [turn_eq, run_bind, run_look, Ending.andThen_ok, hcontent, hitems, specialOf?,
    hname]

theorem turn_constant {eval : Evaluation} {apply : Application} {steps : Nat}
    (h : IsConstant w.heap form) :
    Evaluator.turn eval apply steps form frame w = .ok (.done form) w := by
  unfold IsConstant at h
  cases hcontent : w.heap.content form with
  | list cell =>
    rw [hcontent] at h
    dsimp only at h
    simp [turn_eq, hcontent, h]
  | symbol name => simp [hcontent] at h
  | vector cell => simp [hcontent] at h
  | map entries => simp [hcontent] at h
  | _ => simp [turn_eq, hcontent]

end Turns

section Rules

variable {w u x y : World} {form : Value} {frame : FrameId} {forms : List Value} {r : Ending Value}

theorem loops_constant (hform : IsConstant w.heap form) : Loops w form frame (.ok form w) :=
  loops_of_done (.of_forall fun _ => turn_constant hform)

theorem loops_symbol {name : Text} (hcontent : w.heap.content form = .symbol name) :
    Loops w form frame (Run.lookup frame name w) := by
  refine loops_of_done (.of_forall fun b => ?_)
  simp [turn_eq, hcontent]

theorem loops_vector {cell : CellId} {r : Ending (List Value)}
    (hcontent : w.heap.content form = .vector cell)
    (hall : Eventually fun b => evalAll b.eval frame (w.heap.items cell) w = r) :
    Loops w form frame (r.andThen Run.makeVector) := by
  refine loops_of_done (hall.imp fun b hall => ?_)
  simp [turn_eq, hcontent, hall, Ending.andThen_assoc]

theorem evalEntries_eq (eval : Evaluation) (frame : FrameId) (entries : List (Value × Value)) :
    evalEntries eval frame entries =
      evalAll eval frame (entries.flatMap fun entry => [entry.1, entry.2]) := by
  induction entries with
  | nil => rfl
  | cons entry rest ih =>
    simp only [evalEntries, List.flatMap_cons, List.cons_append, List.nil_append, evalAll, ih,
      bind_assoc, pure_bind]

theorem loops_map {entries : Entries} {r : Ending (List Value)}
    (hcontent : w.heap.content form = .map entries)
    (hall : Eventually fun b => evalAll b.eval frame
      (entries.toList.flatMap fun entry => [entry.1, entry.2]) w = r) :
    Loops w form frame (r.andThen Run.makeMap) := by
  refine loops_of_done (hall.imp fun b hall => ?_)
  simp [turn_eq, hcontent, evalEntries_eq, hall, Ending.andThen_assoc]

section Malformed

variable {e : Failure}

theorem letStar_malformed {eval : Evaluation} (h : shapeFailure? w.heap .letStar forms = some e) :
    letStar eval frame forms w = .error e w := by
  match forms with
  | [] =>
    cases h
    rfl
  | bindings :: body =>
    simp only [shapeFailure?] at h
    simp only [letStar_eq, run_bind, run_look, Ending.andThen_ok]
    cases helements : w.heap.elements? bindings with
    | none =>
      rw [helements] at h
      cases h
      rfl
    | some found =>
      rw [helements] at h
      dsimp only at h ⊢
      split at h
      · rename_i hodd
        cases h
        rw [if_pos hodd]
        rfl
      · cases h

theorem conditional_malformed {eval : Evaluation}
    (h : shapeFailure? w.heap .conditional forms = some e) :
    conditional eval frame forms w = .error e w := by
  match forms with
  | [_, _] => cases h
  | [_, _, _] => cases h
  | [] =>
    cases h
    rfl
  | [_] =>
    cases h
    rfl
  | _ :: _ :: _ :: _ :: _ =>
    cases h
    rw [conditional_eq]
    rfl

theorem tryStar_malformed {eval : Evaluation} (h : shapeFailure? w.heap .tryStar forms = some e) :
    tryStar eval frame forms w = .error e w := by
  match forms with
  | [_] => cases h
  | [body, clause] =>
    simp only [shapeFailure?] at h
    simp only [tryStar_eq, run_bind]
    cases hclause : catchClause w.heap clause with
    | ok parts =>
      rw [hclause] at h
      cases h
    | error e =>
      rw [hclause] at h
      cases h
      simp only [run_settle, hclause, Ending.andThen_error]
  | [] =>
    cases h
    rfl
  | _ :: _ :: _ :: _ =>
    cases h
    rw [tryStar_eq]
    rfl

/-- The three forms that bind a name have parts of the same shape. -/
theorem definition_malformed (eval : Evaluation) (frame : FrameId) {special : Special}
    (hspecial : special = .define ∨ special = .defineMacro ∨ special = .assign)
    (h : shapeFailure? w.heap special forms = some e) :
    definition eval frame special forms w = .error e w := by
  match forms with
  | [target, value] =>
    have h : nameFailure? w.heap special target = some e := by
      rcases hspecial with rfl | rfl | rfl <;> exact h
    unfold nameFailure? at h
    simp only [definition_eq, run_bind, run_look, Ending.andThen_ok]
    cases hcontent : w.heap.content target with
    | symbol name =>
      rw [hcontent] at h
      cases h
    | _ =>
      rw [hcontent] at h
      cases h
      rfl
  | [] => rcases hspecial with rfl | rfl | rfl <;> cases h <;> rfl
  | [_] => rcases hspecial with rfl | rfl | rfl <;> cases h <;> rfl
  | _ :: _ :: _ :: _ =>
    rw [definition_eq]
    rcases hspecial with rfl | rfl | rfl <;> cases h <;> rfl

theorem function_malformed (h : shapeFailure? w.heap .function forms = some e) :
    function frame forms w = .error e w := by
  match forms with
  | [] =>
    cases h
    rfl
  | params :: body =>
    simp only [shapeFailure?] at h
    simp only [function_eq, run_bind, run_look, Ending.andThen_ok]
    cases helements : w.heap.elements? params with
    | none =>
      rw [helements] at h
      cases h
      rfl
    | some found =>
      rw [helements] at h
      dsimp only at h
      simp only [run_bind, run_settle]
      cases hparameters : parameters w.heap found with
      | ok names =>
        rw [hparameters] at h
        cases h
      | error e =>
        rw [hparameters] at h
        cases h
        rfl

theorem single_malformed {special : Special} {go : Value → Run Value}
    (hspecial : special = .quote ∨ special = .quasiquote ∨ special = .macroexpand)
    (h : shapeFailure? w.heap special forms = some e) :
    single special forms go w = .error e w := by
  match forms with
  | [_] => rcases hspecial with rfl | rfl | rfl <;> cases h
  | [] => rcases hspecial with rfl | rfl | rfl <;> cases h <;> rfl
  | _ :: _ :: _ =>
    rw [single_eq]
    rcases hspecial with rfl | rfl | rfl <;> cases h <;> rfl

/-- A special form whose parts are wrong fails before anything is evaluated. -/
theorem special_malformed {eval : Evaluation} {steps : Nat} {special : Special}
    (h : shapeFailure? w.heap special forms = some e) :
    Evaluator.special eval steps frame special forms w = .error e w := by
  cases special with
  | letStar => exact letStar_malformed h
  | sequence => cases h
  | conditional => exact conditional_malformed h
  | tryStar => exact tryStar_malformed h
  | define =>
    have hfails := definition_malformed eval frame (.inl rfl) h
    simp [Evaluator.special, Evaluator.define, hfails]
  | defineMacro =>
    have hfails := definition_malformed eval frame (.inr (.inl rfl)) h
    simp [Evaluator.special, Evaluator.defineMacro, hfails]
  | assign =>
    have hfails := definition_malformed eval frame (.inr (.inr rfl)) h
    simp [Evaluator.special, Evaluator.assign, hfails]
  | function => simp [Evaluator.special, function_malformed h]
  | quote => simp [Evaluator.special, single_malformed (.inl rfl) h]
  | quasiquote => simp [Evaluator.special, single_malformed (.inr (.inl rfl)) h]
  | macroexpand => simp [Evaluator.special, single_malformed (.inr (.inr rfl)) h]
  | unquote =>
    cases h
    rfl
  | splice =>
    cases h
    rfl
  | catchStar =>
    cases h
    rfl

theorem loops_malformed {special : Special} (hform : IsSpecial w.heap form special forms)
    (hfault : shapeFailure? w.heap special forms = some e) :
    Loops w form frame (.error e w) :=
  loops_of_done (.of_forall fun _ => (turn_special hform).trans (special_malformed hfault))

theorem bindAll_malformed {eval : Evaluation} {target value : Value}
    (htarget : ∀ name, w.heap.content target ≠ .symbol name) :
    bindAll eval frame (target :: value :: forms) w =
      .error (.fault (.malformed .letStar (.bindingName (w.heap.kind target)))) w := by
  simp only [bindAll, run_bind, run_look, Ending.andThen_ok]
  rfl

end Malformed

end Rules

end Lisp.Meaning
