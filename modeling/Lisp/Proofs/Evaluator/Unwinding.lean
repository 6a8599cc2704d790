import Lisp.Proofs.Evaluator.Fitting

/-!
Evaluations taken back to what they go on with. Where a turn ends with a form in tail position, a
form ends as that one does and in no other way; so does a call of a function as its body, a call of
a native as the native on the values of the forms, and a sequence as its forms one after the other.
-/
namespace Lisp.Meaning

open Evaluator Ending

variable {w u x y : World} {form form' head last f v : Value} {frame frame' inner : FrameId}
  {forms args earlier : List Value} {c : Closure} {r : Ending Value}

theorem Loops.exists_eval (h : Loops w form frame r) :
    ∃ n, Evaluator.eval n n form frame w = r := by
  obtain ⟨n, hn⟩ := h.eval
  exact ⟨n, hn ⟨n, n, n, n⟩ ⟨Nat.le_refl n, Nat.le_refl n, Nat.le_refl n, Nat.le_refl n⟩⟩

theorem Evaluates.exists_eval (h : Evaluates w form frame r) :
    ∃ n, Evaluator.eval n n form frame w = r :=
  h.loops.exists_eval

theorem evaluates_iff_loops : Evaluates w form frame r ↔ Loops w form frame r ∧ r.Settled := by
  refine ⟨fun h => ⟨h.loops, h.settled⟩, fun ⟨hloops, hr⟩ => ?_⟩
  obtain ⟨n, hn⟩ := hloops.exists_eval
  exact faithful_eval n n hn hr

/-- The meaning of a form is what evaluation reaches within some depth and steps. -/
theorem evaluates_iff_exists_eval (hr : r.Settled) :
    Evaluates w form frame r ↔ ∃ limit depth, Evaluator.eval limit depth form frame w = r := by
  refine ⟨fun h => ?_, fun ⟨limit, depth, heval⟩ => faithful_eval limit depth heval hr⟩
  obtain ⟨n, hn⟩ := h.exists_eval
  exact ⟨n, n, hn⟩

/-- What is left of an evaluation after a turn. -/
def afterTurn (n : Nat) : Turn → Run Value
  | .done v => pure v
  | .next form frame => Evaluator.eval n (n + 1) form frame

/-- An evaluation is a turn and what is left after it. -/
theorem Evaluates.exists_turn {p : Bounds → Prop} (h : Evaluates w form frame r)
    (hp : Eventually p) :
    ∃ n, p ⟨n, n, n, n⟩ ∧
      andThen (Bounds.turn ⟨n, n, n, n⟩ form frame w) (afterTurn n) = r := by
  obtain ⟨n, hn⟩ := hp.and h.loops
  have hle : n ≤ n + 1 := Nat.le_succ n
  refine ⟨n, (hn ⟨n, n, n, n⟩ ⟨Nat.le_refl n, Nat.le_refl n, Nat.le_refl n, Nat.le_refl n⟩).1, ?_⟩
  have hloop := (hn ⟨n, n, n, n + 1⟩ ⟨Nat.le_refl n, Nat.le_refl n, Nat.le_refl n, hle⟩).2
  rw [← hloop, loop, run_bind]
  rfl

/-- A form ends as what it goes on with. -/
theorem evaluates_iff_of_next
    (h : Eventually fun b => b.turn form frame w = .ok (.next form' frame') u) :
    Evaluates w form frame r ↔ Evaluates u form' frame' r := by
  refine ⟨fun hform => ?_, fun hnext => ?_⟩
  · obtain ⟨n, hturn, hr⟩ := hform.exists_turn h
    rw [hturn] at hr
    exact faithful_eval n (n + 1) hr hform.settled
  · exact evaluates_iff_loops.mpr ⟨loops_of_next h hnext.loops, hnext.settled⟩

/-- A call of a function ends as its body does in the frame of the call. -/
theorem evaluates_callClosure_iff (hform : IsCall w.heap form head forms)
    (hhead : Evaluates w head frame (.ok f u)) (hf : u.heap.callee f = .closure c)
    (hc : c.isMacro = false) (hargs : EvaluatesAll u forms frame (.ok args x))
    (hbind : Run.bindClosure c args x = .ok inner y) :
    Evaluates w form frame r ↔ Evaluates y c.body inner r := by
  have hturn := turns_callClosure hform hhead.loops hf hc hargs.runs
  simp only [andThen_ok, run_bind, hbind, run_pure] at hturn
  exact evaluates_iff_of_next hturn

/-- A macro call ends as what it stands for does where the call stands. -/
theorem evaluates_callMacro_iff {expansion : Value} (hform : IsCall w.heap form head forms)
    (hhead : Evaluates w head frame (.ok f u)) (hf : u.heap.callee f = .closure c)
    (hc : c.isMacro = true) (hexpands : ExpandsOnce u c forms (.ok expansion x)) :
    Evaluates w form frame r ↔ Evaluates x expansion frame r :=
  evaluates_iff_of_next (turns_callMacro hform hhead.loops hf hc hexpands.runs)

/-- A call of a native ends as the native does on the values of the forms. -/
theorem evaluates_callNative_iff {n : Native} (hform : IsCall w.heap form head forms)
    (hhead : Evaluates w head frame (.ok f u)) (hf : u.heap.callee f = .native n)
    (hargs : EvaluatesAll u forms frame (.ok args x)) :
    Evaluates w form frame r ↔ Invokes x n args r := by
  refine ⟨fun h => ?_, fun h => .callNative hform hhead hf hargs h⟩
  obtain ⟨m, ⟨hhead, hargs⟩, hr⟩ := h.exists_turn (hhead.loops.eval.and hargs.runs)
  rw [show Bounds.turn ⟨m, m, m, m⟩ form frame w = _ from turn_call hform] at hr
  simp only [call, callValue, run_bind, run_look, andThen_ok, hhead, hf, hargs, andThen_assoc] at hr
  have hinvoke : invoke (eval m m) (apply (eval m m) m) m n args x = r := by
    rw [← hr]
    cases invoke (eval m m) (apply (eval m m) m) m n args x <;> rfl
  have hfaithful := faithful_eval m m
  exact invokes_of_invoke hfaithful (faithful_apply hfaithful m) hinvoke h.settled

/-- A call of `eval` ends as what it is called on does at the outermost frame. -/
theorem evaluates_callEval_iff (hform : IsCall w.heap form head forms)
    (hhead : Evaluates w head frame (.ok f u)) (hf : u.heap.callee f = .native .eval)
    (hargs : EvaluatesAll u forms frame (.ok [v] x)) :
    Evaluates w form frame r ↔ Evaluates x v World.root r := by
  rw [evaluates_callNative_iff hform hhead hf hargs]
  refine ⟨fun h => ?_, .eval⟩
  cases h with
  | eval h => exact h
  | evalArguments hcount => exact absurd rfl hcount

/-- A sequence ends as its last form does after the others. -/
theorem evaluates_sequence_iff
    (hform : IsSpecial w.heap form .sequence (earlier ++ [last])) :
    Evaluates w form frame r ↔
      (∃ vs u, EvaluatesAll w earlier frame (.ok vs u) ∧ Evaluates u last frame r) ∨
      ∃ e u, EvaluatesAll w earlier frame (.error e u) ∧ r = .error e u := by
  constructor
  · intro h
    obtain ⟨n, -, hr⟩ := h.exists_turn (.of_forall fun _ => trivial)
    rw [show Bounds.turn ⟨n, n, n, n⟩ form frame w = _ from turn_special hform] at hr
    simp only [Evaluator.special, sequence_eq, List.getLast?_concat, List.dropLast_concat,
      run_bind, andThen_assoc] at hr
    cases hearlier : evalAll (Bounds.eval ⟨n, n, n, n⟩) frame earlier w with
    | ok vs u =>
      rw [hearlier] at hr
      exact .inl ⟨vs, u, evaluatesAll_of_evalAll (faithful_eval n n) hearlier settled_ok,
        faithful_eval n (n + 1) hr h.settled⟩
    | error e u =>
      rw [hearlier, andThen_error] at hr
      subst hr
      exact .inr ⟨e, u, evaluatesAll_of_evalAll (faithful_eval n n) hearlier h.settled.error, rfl⟩
  · rintro (⟨vs, u, hearlier, hlast⟩ | ⟨e, u, hearlier, rfl⟩)
    · exact .sequence hform hearlier hlast
    · exact .sequenceFails hform hearlier

/-- A quasiquoted template ends as its filling does. -/
theorem evaluates_quasiquote_iff {template : Value}
    (hform : IsSpecial w.heap form .quasiquote [template]) :
    Evaluates w form frame r ↔ Fills w template frame r := by
  refine ⟨fun h => ?_, .quasiquote hform⟩
  obtain ⟨n, -, hr⟩ := h.exists_turn (.of_forall fun _ => trivial)
  rw [show Bounds.turn ⟨n, n, n, n⟩ form frame w = _ from turn_special hform] at hr
  simp only [Evaluator.special, single_eq, run_map] at hr
  have hfill : fill (eval n n) frame n template w = r := by
    rw [← hr]
    cases fill (eval n n) frame n template w <;> rfl
  exact faithful_fill (faithful_eval n n) n hfill h.settled

/-- A sequence that ends in nil gives nil once all forms have been evaluated. -/
theorem evaluates_sequence_nil_iff (hform : IsSpecial w.heap form .sequence (earlier ++ [.nil])) :
    Evaluates w form frame r ↔
      ∃ all, EvaluatesAll w earlier frame all ∧ r = all.andThen fun _ => pure .nil := by
  have hnil : ∀ u, Evaluates u .nil frame (.ok .nil u) := fun u => .constant trivial
  rw [evaluates_sequence_iff hform]
  constructor
  · rintro (⟨vs, u, hearlier, hlast⟩ | ⟨e, u, hearlier, rfl⟩)
    · exact ⟨_, hearlier, hlast.unique (hnil u)⟩
    · exact ⟨_, hearlier, rfl⟩
  · rintro ⟨all, hearlier, rfl⟩
    cases all with
    | ok vs u => exact .inl ⟨vs, u, hearlier, hnil u⟩
    | error e u => exact .inr ⟨e, u, hearlier, rfl⟩

end Lisp.Meaning
