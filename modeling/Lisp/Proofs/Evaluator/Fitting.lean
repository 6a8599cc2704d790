import Lisp.Proofs.Evaluator.Limits

/-!
Evaluations that fit within a depth. An evaluation fits when nothing that it does depends on the
evaluations that many levels inside it. What a form has evaluated on its way has to fit within one
level less, but a form in tail position only within the same depth: nothing is taken off for the
form around it.
-/
namespace Lisp

namespace Meaning

theorem Eventually.eq {α : Type} {m : Bounds → α} {r r' : α} (h : Eventually fun b => m b = r)
    (h' : Eventually fun b => m b = r') : r = r' := by
  obtain ⟨n, hn⟩ := h.and h'
  have hboth := hn ⟨n, n, n, n⟩ ⟨Nat.le_refl n, Nat.le_refl n, Nat.le_refl n, Nat.le_refl n⟩
  exact hboth.1.symm.trans hboth.2

variable {w : World} {frame : FrameId}

/-- A form ends in one way only. -/
theorem Evaluates.unique {form : Value} {r r' : Ending Value} (h : Evaluates w form frame r)
    (h' : Evaluates w form frame r') : r = r' :=
  h.loops.eval.eq h'.loops.eval

theorem EvaluatesAll.unique {forms : List Value} {r r' : Ending (List Value)}
    (h : EvaluatesAll w forms frame r) (h' : EvaluatesAll w forms frame r') : r = r' :=
  h.runs.eq h'.runs

end Meaning

namespace Evaluator

open Meaning

theorem isBounded_evalOver (depth : Nat) (form : Value) (frame : FrameId) :
    IsBounded fun limit beyond => evalOver beyond limit depth form frame := by
  refine ⟨fun limit => ?_, fun beyond hle => cuts_evalOver beyond hle depth form frame⟩
  induction depth generalizing form frame with
  | zero => exact .task (form, frame)
  | succ depth ih => exact program_loop ih (program_apply ih limit) limit limit form frame

/-- What has its evaluations run one by one. -/
theorem isBounded_evaluating {α : Type} {P : Evaluation → Run α}
    (hP : ∀ {eval : (Value × FrameId → Run Value) → Evaluation},
      (∀ form frame, Program fun run => eval run form frame) → Program fun run => P (eval run))
    (hparts : Program fun run : Part → Run Value => P fun form frame => run (.evaluate form frame))
    (depth : Nat) : IsBounded fun limit beyond => P (evalOver beyond limit depth) := by
  have heval := isBounded_evalOver depth
  exact ⟨fun limit => hP fun form frame => (heval form frame).program limit,
    fun beyond hle => cuts_evaluating (fun form frame => (heval form frame).cuts beyond hle) hparts⟩

/-- What fits ends as its meaning says. -/
theorem ends_iff_of_fits {α : Type} {P : Evaluation → Run α} {meaning : Ending α → Prop}
    {depth : Nat} {w : World}
    (hfits : Fits (fun limit beyond => P (evalOver beyond limit depth)) w)
    (hfound : ∀ limit (r : Ending α), P (eval limit depth) w = r → r.Settled → meaning r)
    (hreached : ∀ r, meaning r → r.Settled ∧ Eventually fun b => P b.eval w = r) (r : Ending α) :
    Ends (fun limit beyond => P (evalOver beyond limit depth)) w r ↔ meaning r := by
  constructor
  · rintro ⟨hsettled, limit, hends⟩
    refine hfound limit r ?_ hsettled
    rw [← evalOver_exhausted]
    exact hends _
  · intro hr
    obtain ⟨hsettled, n, hn⟩ := hreached r hr
    have hdeep : P (eval n (depth + n)) w = r :=
      hn ⟨n, depth + n, n, n⟩
        ⟨Nat.le_refl n, Nat.le_add_left n depth, Nat.le_refl n, Nat.le_refl n⟩
    rw [← evalOver_exhausted, ← evalOver_evalOver] at hdeep
    exact ⟨hsettled, n, fun beyond => (hfits n _ _).trans hdeep⟩

/-- The evaluation does not depend on what would nest as deep inside it. -/
def FitsIn (depth : Nat) (w : World) (form : Value) (frame : FrameId) : Prop :=
  Fits (fun limit beyond => evalOver beyond limit depth form frame) w

section FitsIn

variable {depth : Nat} {w : World} {form : Value} {frame : FrameId}

theorem not_fitsIn_zero : ¬ FitsIn 0 w form frame := fun hfits =>
  not_asks (hfits 0) w fun _ _ => rfl

theorem FitsIn.add (hfits : FitsIn depth w form frame) (more : Nat) :
    FitsIn (depth + more) w form frame := by
  intro limit beyond beyond'
  simp only [← evalOver_evalOver]
  exact hfits limit _ _

/-- A greater depth makes no difference to what fits. -/
theorem FitsIn.eval_eq (hfits : FitsIn depth w form frame) (limit more : Nat) :
    eval limit (depth + more) form frame w = eval limit depth form frame w := by
  simp only [← evalOver_exhausted, ← evalOver_evalOver]
  exact hfits limit _ _

theorem FitsIn.ends_iff (hfits : FitsIn depth w form frame) (r : Ending Value) :
    Ends (fun limit beyond => evalOver beyond limit depth form frame) w r ↔
      Evaluates w form frame r :=
  ends_iff_of_fits (P := fun eval => eval form frame) hfits
    (fun limit _ heval hr => faithful_eval limit depth heval hr)
    (fun _ heval => ⟨heval.settled, heval.loops.eval⟩) r

/-- The first turn of an evaluation. -/
def turnOver (depth : Nat) (form : Value) (frame : FrameId) (limit : Nat) (beyond : Evaluation) :
    Run Turn :=
  turn (evalOver beyond limit depth) (apply (evalOver beyond limit depth) limit) limit form frame

theorem isBounded_turnOver (depth : Nat) (form : Value) (frame : FrameId) :
    IsBounded (turnOver depth form frame) := by
  have heval := isBounded_evalOver depth
  refine ⟨fun limit => ?_, fun beyond hle => ?_⟩
  · exact program_turn (fun form frame => (heval form frame).program limit)
      (program_apply (fun form frame => (heval form frame).program limit) limit) limit form frame
  · exact cuts_turn (fun form frame => (heval form frame).cuts beyond hle)
      (cuts_apply (fun form frame => (heval form frame).cuts beyond hle) hle) hle form frame

/-- The loop over turns, with the turns that are left set apart from the bound on each. -/
def loopOver (depth : Nat) (form : Value) (frame : FrameId) (limit steps : Nat)
    (beyond : Evaluation) : Run Value :=
  loop (fun form frame => turnOver depth form frame limit beyond) steps form frame

theorem program_loopOver (depth : Nat) (form : Value) (frame : FrameId) (limit steps : Nat) :
    Program fun run : Value × FrameId → Run Value =>
      loopOver depth form frame limit steps fun form frame => run (form, frame) :=
  have heval form frame := (isBounded_evalOver depth form frame).program limit
  program_loop heval (program_apply heval limit) limit steps form frame

theorem cuts_loopOver (depth : Nat) (form : Value) (frame : FrameId)
    {limit limit' steps steps' : Nat} (hlimit : limit ≤ limit') (hsteps : steps ≤ steps')
    (beyond : Evaluation) :
    Cuts (loopOver depth form frame limit steps beyond)
      (loopOver depth form frame limit' steps' beyond) :=
  cuts_loop (fun form frame => (isBounded_turnOver depth form frame).cuts beyond hlimit) hsteps form
    frame

theorem evalOver_next {limit : Nat} {beyond : Evaluation} {form' : Value} {frame' : FrameId}
    {u : World} (h : turnOver depth form frame (limit + 1) beyond w = .ok (.next form' frame') u) :
    evalOver beyond (limit + 1) (depth + 1) form frame w =
      loopOver depth form' frame' (limit + 1) limit beyond u :=
  bind_ok h

theorem evalOver_done {limit : Nat} {beyond : Evaluation} {v : Value} {u : World}
    (h : turnOver depth form frame (limit + 1) beyond w = .ok (.done v) u) :
    evalOver beyond (limit + 1) (depth + 1) form frame w = .ok v u :=
  bind_ok h

theorem evalOver_error {limit : Nat} {beyond : Evaluation} {e : Failure} {u : World}
    (h : turnOver depth form frame (limit + 1) beyond w = .error e u) :
    evalOver beyond (limit + 1) (depth + 1) form frame w = .error e u :=
  bind_error h

/-- An evaluation fits when its first turn does one level deeper, and what it goes on with does at
its own level. -/
theorem fitsIn_succ_iff :
    FitsIn (depth + 1) w form frame ↔ Fits (turnOver depth form frame) w ∧
      ∀ form' frame' u, Ends (turnOver depth form frame) w (.ok (.next form' frame') u) →
        FitsIn (depth + 1) u form' frame' := by
  have hturn := isBounded_turnOver depth form frame
  constructor
  · intro hfits
    refine ⟨fun limit => ?_, fun form' frame' u hends limit => ?_⟩
    · refine eq_of_cuts (hturn.program limit)
        (fun beyond => hturn.cuts beyond (Nat.le_succ limit)) ?_
      rcases eq_or_asks (hturn.program (limit + 1)) w with hsame | ⟨u, hasks⟩
      · exact hsame
      · exact absurd (fun e he => bind_error (hasks e he)) (not_asks (hfits (limit + 1)) u)
    · obtain ⟨n, hn⟩ := hends.from hturn
      -- Within enough steps the first turn is over and as many are left as are wanted.
      have hmore : ∀ beyond, evalOver beyond (max n limit + 1) (depth + 1) form frame w =
          loopOver depth form' frame' (max n limit + 1) (max n limit) beyond u := fun beyond =>
        evalOver_next (hn _ (Nat.le_succ_of_le (Nat.le_max_left n limit)) beyond)
      refine eq_of_cuts (program_loopOver depth form' frame' limit limit)
        (cuts_loopOver depth form' frame' (Nat.le_succ_of_le (Nat.le_max_right n limit))
          (Nat.le_max_right n limit)) ?_
      intro beyond beyond'
      rw [← hmore, ← hmore]
      exact hfits _ beyond beyond'
  · rintro ⟨hfits, hnext⟩ limit
    cases limit with
    | zero => exact fun _ _ => rfl
    | succ steps =>
      intro beyond beyond'
      have hother := hfits (steps + 1) beyond' beyond
      cases hresult : turnOver depth form frame (steps + 1) beyond w with
      | error e u =>
        exact (evalOver_error hresult).trans (evalOver_error (hother.trans hresult)).symm
      | ok t u =>
        cases t with
        | done v => exact (evalOver_done hresult).trans (evalOver_done (hother.trans hresult)).symm
        | next form' frame' =>
          have hends : Ends (turnOver depth form frame) w (.ok (.next form' frame') u) :=
            ⟨Ending.settled_ok, steps + 1, fun other => (hfits _ other beyond).trans hresult⟩
          calc evalOver beyond (steps + 1) (depth + 1) form frame w
            _ = loopOver depth form' frame' (steps + 1) steps beyond u := evalOver_next hresult
            _ = loopOver depth form' frame' (steps + 1) steps beyond' u :=
              eq_of_cuts (program_loopOver depth form' frame' (steps + 1) steps)
                (cuts_loopOver depth form' frame' (Nat.le_refl _) (Nat.le_succ steps))
                (hnext form' frame' u hends (steps + 1)) beyond beyond'
            _ = evalOver beyond' (steps + 1) (depth + 1) form frame w :=
              (evalOver_next (hother.trans hresult)).symm

/-- The same for a turn that is known to go on like another computation. -/
theorem fitsIn_succ_of_turn {P : Nat → Evaluation → Run Turn} {u : World}
    (hturn : ∀ limit beyond, turnOver depth form frame limit beyond w = P limit beyond u) :
    FitsIn (depth + 1) w form frame ↔ Fits P u ∧
      ∀ form' frame' x, Ends P u (.ok (.next form' frame') x) →
        FitsIn (depth + 1) x form' frame' := by
  rw [fitsIn_succ_iff]
  simp only [Fits, Ends, hturn]

/-- A turn that evaluates nothing, and does not go on, fits. -/
theorem fitsIn_succ_of_own {m : Run Turn}
    (hturn : ∀ limit beyond, turnOver depth form frame limit beyond w = m w)
    (hlast : ∀ form' frame' u, m w ≠ .ok (.next form' frame') u) :
    FitsIn (depth + 1) w form frame := by
  refine (fitsIn_succ_of_turn (P := fun _ _ => m) hturn).mpr ⟨fits_own m w, ?_⟩
  rintro form' frame' u ⟨_, limit, hends⟩
  exact absurd (hends (failing .exhausted)) (hlast form' frame' u)

theorem fitsIn_symbol {name : Text} (hform : w.heap.content form = .symbol name) :
    FitsIn (depth + 1) w form frame := by
  refine fitsIn_succ_of_own (m := Turn.done <$> Run.lookup frame name) (fun limit beyond => ?_) ?_
  · simp [turnOver, turn, hform]
  · intro form' frame' u h
    rw [run_map] at h
    cases hfound : Run.lookup frame name w with
    | ok v x =>
      rw [hfound] at h
      cases h
    | error e x =>
      rw [hfound] at h
      cases h

theorem fitsIn_constant (hform : IsConstant w.heap form) : FitsIn (depth + 1) w form frame := by
  refine fitsIn_succ_of_own (m := pure (.done form)) (fun limit beyond => ?_) ?_
  · exact turn_constant hform
  · intro form' frame' u h
    cases h

end FitsIn

section Parts

variable {depth : Nat} {w : World} {frame : FrameId}

/-- Forms evaluated from left to right, each as deep as that. -/
def FitsAll (depth : Nat) (w : World) (forms : List Value) (frame : FrameId) : Prop :=
  Fits (fun limit beyond => evalAll (evalOver beyond limit depth) frame forms) w

theorem isBounded_evalAll (depth : Nat) (forms : List Value) (frame : FrameId) :
    IsBounded fun limit beyond => evalAll (evalOver beyond limit depth) frame forms :=
  isBounded_evaluating (P := fun eval => evalAll eval frame forms)
    (fun heval => program_evalAll heval frame forms)
    (program_evalAll (fun _ _ => .task _) frame forms) depth

theorem FitsAll.ends_iff {forms : List Value} (hfits : FitsAll depth w forms frame)
    (r : Ending (List Value)) :
    Ends (fun limit beyond => evalAll (evalOver beyond limit depth) frame forms) w r ↔
      EvaluatesAll w forms frame r :=
  ends_iff_of_fits (P := fun eval => evalAll eval frame forms) hfits
    (fun limit _ => evaluatesAll_of_evalAll (faithful_eval limit depth))
    (fun _ hall => ⟨hall.settled, hall.runs⟩) r

theorem fitsAll_cons {form : Value} {rest : List Value} :
    FitsAll depth w (form :: rest) frame ↔ FitsIn depth w form frame ∧
      ∀ v u, Evaluates w form frame (.ok v u) → FitsAll depth u rest frame := by
  have hrest := isBounded_evalAll depth rest frame
  unfold FitsAll
  simp only [evalAll]
  rw [fits_bind (isBounded_evalOver depth form frame) fun v => hrest.bind fun vs => isBounded_own _]
  refine and_congr_right fun hform => forall₂_congr fun v u => ?_
  rw [FitsIn.ends_iff hform, fits_bind_own hrest]

/-- Names bound to the values of forms, each evaluated as deep as that. -/
def FitsBinds (depth : Nat) (w : World) (pairs : List Value) (frame : FrameId) : Prop :=
  Fits (fun limit beyond => bindAll (evalOver beyond limit depth) frame pairs) w

theorem isBounded_bindAll (depth : Nat) (pairs : List Value) (frame : FrameId) :
    IsBounded fun limit beyond => bindAll (evalOver beyond limit depth) frame pairs :=
  isBounded_evaluating (P := fun eval => bindAll eval frame pairs)
    (fun heval => program_bindAll heval frame pairs)
    (program_bindAll (fun _ _ => .task _) frame pairs) depth

theorem FitsBinds.ends_iff {pairs : List Value} (heven : pairs.length % 2 = 0)
    (hfits : FitsBinds depth w pairs frame) (r : Ending Unit) :
    Ends (fun limit beyond => bindAll (evalOver beyond limit depth) frame pairs) w r ↔
      Binds w pairs frame r :=
  ends_iff_of_fits (P := fun eval => bindAll eval frame pairs) hfits
    (fun limit _ => binds_of_bindAll (faithful_eval limit depth) heven)
    (fun _ hbinds => ⟨hbinds.settled, hbinds.runs⟩) r

theorem fitsBinds_cons {target form : Value} {rest : List Value} :
    FitsBinds depth w (target :: form :: rest) frame ↔
      ∀ name, w.heap.content target = .symbol name → FitsIn depth w form frame ∧
        ∀ v u x, Evaluates w form frame (.ok v u) → Run.define frame name v u = .ok () x →
          FitsBinds depth x rest frame := by
  have hrest := isBounded_bindAll depth rest frame
  by_cases hname : ∃ name, w.heap.content target = .symbol name
  · obtain ⟨name, hname⟩ := hname
    have hbind : ∀ limit beyond,
        bindAll (evalOver beyond limit depth) frame (target :: form :: rest) w =
          (evalOver beyond limit depth form frame >>= fun v => Run.define frame name v >>= fun _ =>
            bindAll (evalOver beyond limit depth) frame rest) w := by
      intro limit beyond
      simp only [bindAll, run_bind, run_look, Ending.andThen_ok, hname]
    have hparts := fits_bind (w := w) (isBounded_evalOver depth form frame)
      fun v => (isBounded_own (Run.define frame name v)).bind fun _ => hrest
    simp only [fits_own_bind fun _ => hrest] at hparts
    rw [FitsBinds, fits_congr hbind, hparts, hname]
    simp only [Content.symbol.injEq, forall_eq']
    refine and_congr_right fun hform => ?_
    simp only [FitsIn.ends_iff hform]
    exact ⟨fun h v u x heval => h v u heval () x, fun h v u heval _ x => h v u x heval⟩
  · have htarget : ∀ name, w.heap.content target ≠ .symbol name := not_exists.mp hname
    refine ⟨fun _ name hsymbol => absurd hsymbol (htarget name), fun _ limit beyond beyond' => ?_⟩
    exact (bindAll_malformed htarget).trans (bindAll_malformed htarget).symm

end Parts

section Forms

variable {depth : Nat} {w : World} {form : Value} {frame : FrameId}

/-- The forms before the last one count one level more, the last one does not. -/
theorem fitsIn_sequence {earlier : List Value} {last : Value}
    (hform : IsSpecial w.heap form .sequence (earlier ++ [last])) :
    FitsIn (depth + 1) w form frame ↔ FitsAll depth w earlier frame ∧
      ∀ vs u, EvaluatesAll w earlier frame (.ok vs u) → FitsIn (depth + 1) u last frame := by
  have hearlier := isBounded_evalAll depth earlier frame
  rw [fitsIn_succ_of_turn (P := fun limit beyond =>
    evalAll (evalOver beyond limit depth) frame earlier >>= fun _ => pure (.next last frame)),
    fits_bind_own hearlier]
  · refine and_congr_right fun hfits => ?_
    simp only [ends_bind_own hearlier hfits, FitsAll.ends_iff hfits]
    constructor
    · exact fun h vs u hall => h last frame u ⟨vs, u, hall, rfl⟩
    · rintro h form' frame' u ⟨vs, x, hall, hnext⟩
      cases hnext
      exact h vs u hall
  · intro limit beyond
    refine (turn_special hform).trans ?_
    simp [Evaluator.special, sequence_eq]

theorem fitsIn_conditional {condition yes : Value} {no : Option Value}
    (hform : IsSpecial w.heap form .conditional (condition :: yes :: no.toList)) :
    FitsIn (depth + 1) w form frame ↔ FitsIn depth w condition frame ∧
      ∀ v u, Evaluates w condition frame (.ok v u) →
        ∀ branch ∈ if u.heap.isTruthy v then some yes else no,
          FitsIn (depth + 1) u branch frame := by
  have hcondition := isBounded_evalOver depth condition frame
  rw [fitsIn_succ_of_turn (P := fun limit beyond =>
    evalOver beyond limit depth condition frame >>= fun v => do
      if ← Run.look (·.isTruthy v) then return .next yes frame
      else return (no.map fun no => Turn.next no frame).getD (.done .nil)),
    fits_bind_own hcondition]
  · refine and_congr_right fun hfits => ?_
    simp only [ends_bind_own hcondition hfits, FitsIn.ends_iff hfits, run_bind, run_look,
      Ending.andThen_ok]
    constructor
    · intro h v u heval branch hbranch
      refine h branch frame u ⟨v, u, heval, ?_⟩
      cases htruthy : u.heap.isTruthy v with
      | true =>
        rw [htruthy] at hbranch
        cases hbranch
        rfl
      | false =>
        rw [htruthy] at hbranch
        cases hbranch
        rfl
    · rintro h form' frame' x ⟨v, u, heval, hnext⟩
      have hbranch := h v u heval
      cases htruthy : u.heap.isTruthy v with
      | true =>
        rw [htruthy] at hnext hbranch
        cases hnext
        exact hbranch _ rfl
      | false =>
        rw [htruthy] at hnext hbranch
        cases no with
        | none => cases hnext
        | some other =>
          cases hnext
          exact hbranch _ rfl
  · intro limit beyond
    refine (turn_special hform).trans ?_
    rw [Evaluator.special, conditional_of_branches]

theorem fitsIn_letStar {target : Value} {pairs forms : List Value} {inner : FrameId} {u : World}
    (hform : IsSpecial w.heap form .letStar (target :: forms))
    (hpairs : w.heap.elements? target = some pairs) (heven : pairs.length % 2 = 0)
    (hframe : Run.newFrame (some frame) {} w = .ok inner u) :
    FitsIn (depth + 1) w form frame ↔ FitsBinds depth u pairs inner ∧
      ∀ x y body, Binds u pairs inner (.ok () x) → bodyOf forms x = .ok body y →
        FitsIn (depth + 1) y body inner := by
  have hbinds := isBounded_bindAll depth pairs inner
  rw [fitsIn_succ_of_turn (u := u) (P := fun limit beyond =>
    bindAll (evalOver beyond limit depth) inner pairs >>= fun _ => do
      return Turn.next (← bodyOf forms) inner), fits_bind_own hbinds]
  · refine and_congr_right fun hfits => ?_
    simp only [ends_bind_own hbinds hfits, FitsBinds.ends_iff heven hfits, run_bind]
    constructor
    · intro h x y body hbinds hbody
      exact h body inner y ⟨(), x, hbinds, by rw [hbody]; rfl⟩
    · rintro h form' frame' z ⟨_, x, hbinds, hnext⟩
      obtain ⟨body, y, hbody⟩ := bodyOf_ok forms x
      rw [hbody] at hnext
      cases hnext
      exact h x _ _ hbinds hbody
  · intro limit beyond
    refine (turn_special hform).trans ?_
    rw [Evaluator.special, run_letStar _ hpairs heven hframe, run_bind]

/-- The body of a `try*` counts one level more, the handler does not. -/
theorem fitsIn_tryStar {body clause handler : Value} {name : Text}
    (hform : IsSpecial w.heap form .tryStar [body, clause])
    (hclause : catchClause w.heap clause = .ok (name, handler)) :
    FitsIn (depth + 1) w form frame ↔ FitsIn depth w body frame ∧
      ∀ v u inner x, Evaluates w body frame (.error (.thrown v) u) →
        Run.newFrame (some frame) (.ofPairs [(name, v)]) u = .ok inner x →
        FitsIn (depth + 1) x handler inner := by
  have hbody := isBounded_evalOver depth body frame
  rw [fitsIn_succ_of_turn (P := fun limit beyond =>
    catching (evalOver beyond limit depth body frame) frame name handler),
    fits_catching hbody frame name handler]
  · refine and_congr_right fun hfits => ?_
    simp only [ends_catching hfits, FitsIn.ends_iff hfits]
    constructor
    · exact fun h v u inner x hthrown hframe => h handler inner x ⟨v, u, hthrown, hframe, rfl⟩
    · rintro h _ frame' x ⟨v, u, hthrown, hframe, rfl⟩
      exact h v u frame' x hthrown hframe
  · intro limit beyond
    exact (turn_special hform).trans (run_tryStar _ frame body hclause)

end Forms

section Calls

variable {depth : Nat} {w u : World} {form head f : Value} {forms : List Value} {frame : FrameId}
  {c : Closure}

theorem isBounded_expand (depth : Nat) (c : Closure) (forms : List Value) :
    IsBounded fun limit beyond => expand (evalOver beyond limit depth) c forms :=
  isBounded_evaluating (P := fun eval => expand eval c forms)
    (fun heval => program_expand heval c forms) (program_expand (fun _ _ => .task _) c forms) depth

theorem isBounded_invoke (depth : Nat) (n : Native) (args : List Value) :
    IsBounded fun limit beyond => invoke (evalOver beyond limit depth)
      (apply (evalOver beyond limit depth) limit) limit n args := by
  have heval := isBounded_evalOver depth
  refine ⟨fun limit => ?_, fun beyond hle => ?_⟩
  · exact program_invoke (fun form frame => (heval form frame).program limit)
      (program_apply (fun form frame => (heval form frame).program limit) limit) limit n args
  · exact cuts_invoke (fun form frame => (heval form frame).cuts beyond hle)
      (cuts_apply (fun form frame => (heval form frame).cuts beyond hle) hle) hle n args

theorem isBounded_callValue (depth : Nat) (frame : FrameId) (head : Value) (forms : List Value)
    (f : Value) :
    IsBounded fun limit beyond => callValue (evalOver beyond limit depth)
      (apply (evalOver beyond limit depth) limit) limit frame head forms f := by
  refine (isBounded_own _).bind fun callee => ?_
  cases callee with
  | closure c =>
    by_cases hmacro : c.isMacro
    · simp only [if_pos hmacro]
      exact (isBounded_expand depth c forms).bind fun _ => isBounded_own _
    · simp only [if_neg hmacro]
      exact (isBounded_evalAll depth forms frame).bind fun _ => isBounded_own _
  | native n =>
    exact (isBounded_evalAll depth forms frame).bind fun args =>
      (isBounded_invoke depth n args).bind fun _ => isBounded_own _
  | nothing got => exact isBounded_own _

/-- A call fits when its head does one level deeper, and what is done with the value of the head. -/
theorem fitsIn_call (hform : IsCall w.heap form head forms)
    (hhead : Evaluates w head frame (.ok f u)) :
    FitsIn (depth + 1) w form frame ↔ FitsIn depth w head frame ∧
      Fits (fun limit beyond => callValue (evalOver beyond limit depth)
        (apply (evalOver beyond limit depth) limit) limit frame head forms f) u ∧
      ∀ form' frame' x, Ends (fun limit beyond => callValue (evalOver beyond limit depth)
          (apply (evalOver beyond limit depth) limit) limit frame head forms f) u
          (.ok (.next form' frame') x) → FitsIn (depth + 1) x form' frame' := by
  have hvalue := isBounded_callValue depth frame head forms
  have hbounded := isBounded_evalOver depth head frame
  rw [fitsIn_succ_of_turn (u := w) (P := fun limit beyond =>
    evalOver beyond limit depth head frame >>= fun f => callValue (evalOver beyond limit depth)
      (apply (evalOver beyond limit depth) limit) limit frame head forms f),
    fits_bind hbounded hvalue, and_assoc]
  · refine and_congr_right fun hfits => ?_
    have hends : ∀ f' u', Ends (fun limit beyond => evalOver beyond limit depth head frame) w
        (.ok f' u') ↔ f' = f ∧ u' = u := by
      intro f' u'
      rw [FitsIn.ends_iff hfits]
      refine ⟨fun hother => ?_, fun h => h.1 ▸ h.2 ▸ hhead⟩
      cases hother.unique hhead
      exact ⟨rfl, rfl⟩
    simp only [ends_bind hbounded hvalue hfits, hends]
    constructor
    · exact fun h => ⟨h.1 f u ⟨rfl, rfl⟩, fun form' frame' x hnext =>
        h.2 form' frame' x ⟨f, u, ⟨rfl, rfl⟩, hnext⟩⟩
    · rintro ⟨hfirst, hnext⟩
      refine ⟨fun f' u' hsame => ?_, fun form' frame' x => ?_⟩
      · rw [hsame.1, hsame.2]
        exact hfirst
      · rintro ⟨f', u', ⟨rfl, rfl⟩, hlast⟩
        exact hnext form' frame' x hlast
  · exact fun limit beyond => turn_call hform

/-- The arguments of a call count one level more, the body of the function does not. -/
theorem fitsIn_callClosure (hform : IsCall w.heap form head forms)
    (hhead : Evaluates w head frame (.ok f u)) (hf : u.heap.callee f = .closure c)
    (hc : c.isMacro = false) :
    FitsIn (depth + 1) w form frame ↔ FitsIn depth w head frame ∧ FitsAll depth u forms frame ∧
      ∀ args x inner y, EvaluatesAll u forms frame (.ok args x) →
        Run.bindClosure c args x = .ok inner y → FitsIn (depth + 1) y c.body inner := by
  have hargs := isBounded_evalAll depth forms frame
  have hvalue : ∀ limit beyond, callValue (evalOver beyond limit depth)
      (apply (evalOver beyond limit depth) limit) limit frame head forms f u =
      (evalAll (evalOver beyond limit depth) frame forms >>= fun args => do
        let inner ← Run.bindClosure c args
        return Turn.next c.body inner) u := by
    intro limit beyond
    simp [callValue, hf, hc]
  rw [fitsIn_call hform hhead, fits_congr hvalue, fits_bind_own hargs]
  refine and_congr_right fun _ => and_congr_right fun hfits => ?_
  simp only [ends_congr hvalue, ends_bind_own hargs hfits, FitsAll.ends_iff hfits, run_bind]
  constructor
  · intro h args x inner y hall hbind
    exact h c.body inner y ⟨args, x, hall, by rw [hbind]; rfl⟩
  · rintro h form' frame' y ⟨args, x, hall, hnext⟩
    cases hbind : Run.bindClosure c args x with
    | error e z =>
      rw [hbind] at hnext
      cases hnext
    | ok inner z =>
      rw [hbind] at hnext
      cases hnext
      exact h args x _ _ hall hbind

/-- The run of a macro counts one level more, what the call stands for does not. -/
theorem fitsIn_callMacro (hform : IsCall w.heap form head forms)
    (hhead : Evaluates w head frame (.ok f u)) (hf : u.heap.callee f = .closure c)
    (hc : c.isMacro = true) :
    FitsIn (depth + 1) w form frame ↔ FitsIn depth w head frame ∧
      (∀ inner y, Run.bindClosure c forms u = .ok inner y → FitsIn depth y c.body inner) ∧
      ∀ expansion x, ExpandsOnce u c forms (.ok expansion x) →
        FitsIn (depth + 1) x expansion frame := by
  have hexpand := isBounded_expand depth c forms
  have hvalue : ∀ limit beyond, callValue (evalOver beyond limit depth)
      (apply (evalOver beyond limit depth) limit) limit frame head forms f u =
      (expand (evalOver beyond limit depth) c forms >>= fun expansion =>
        pure (Turn.next expansion frame)) u := by
    intro limit beyond
    simp [callValue, hf, hc]
  have hbody : Fits (fun limit beyond => expand (evalOver beyond limit depth) c forms) u ↔
      ∀ inner y, Run.bindClosure c forms u = .ok inner y → FitsIn depth y c.body inner := by
    have hrun := isBounded_evalOver depth c.body
    simp only [expand_eq]
    rw [fits_own_bind fun inner => (hrun inner).bind fun _ => isBounded_own _]
    simp only [fits_bind_own (hrun _), FitsIn]
  rw [fitsIn_call hform hhead, fits_congr hvalue, fits_bind_own hexpand, ← hbody]
  refine and_congr_right fun _ => and_congr_right fun hfits => ?_
  have hmeaning := ends_iff_of_fits (P := fun eval => expand eval c forms) hfits
    (fun limit _ => expandsOnce_of_expand (faithful_eval limit depth))
    fun _ hexpands => ⟨hexpands.settled, hexpands.runs⟩
  simp only [ends_congr hvalue, ends_bind_own hexpand hfits, hmeaning]
  constructor
  · exact fun h expansion x hexpands => h expansion frame x ⟨expansion, x, hexpands, rfl⟩
  · rintro h form' frame' y ⟨expansion, x, hexpands, hnext⟩
    cases hnext
    exact h _ _ hexpands

/-- An operation evaluates nothing more than its arguments. -/
theorem fitsIn_callOperation {op : Operation} (hform : IsCall w.heap form head forms)
    (hhead : Evaluates w head frame (.ok f u)) (hf : u.heap.callee f = .native (.operation op)) :
    FitsIn (depth + 1) w form frame ↔ FitsIn depth w head frame ∧ FitsAll depth u forms frame := by
  have hargs := isBounded_evalAll depth forms frame
  have hvalue : ∀ limit beyond, callValue (evalOver beyond limit depth)
      (apply (evalOver beyond limit depth) limit) limit frame head forms f u =
      (evalAll (evalOver beyond limit depth) frame forms >>= fun args =>
        Turn.done <$> op.call args) u := by
    intro limit beyond
    simp [callValue, hf, invoke]
  rw [fitsIn_call hform hhead, fits_congr hvalue, fits_bind_own hargs]
  refine and_congr_right fun _ => and_iff_left_of_imp fun hfits => ?_
  simp only [ends_congr hvalue, ends_bind_own hargs hfits, run_map]
  rintro form' frame' y ⟨args, x, _, hnext⟩
  cases hcall : op.call args x with
  | ok v z =>
    rw [hcall] at hnext
    cases hnext
  | error e z =>
    rw [hcall] at hnext
    cases hnext

end Calls

end Evaluator

end Lisp
