import Lisp.Proofs.Evaluator.TailCalls

/-!
Evaluation over evaluations that are left open. What would nest deeper than a given depth is handed
to another way of evaluating; with one that is exhausted at once this is evaluation within that
depth. Whatever the depth, an evaluation asks for what is beyond it, and then ends in any failure
that it finds there, or it does not, and then all that is beyond makes no difference. More steps
never change how an evaluation ends, unless it was cut short.
-/
namespace Lisp.Evaluator

/-- From every world the first computation goes the way of the second, or is cut short. -/
def Cuts {α : Type} (m m' : Run α) : Prop := ∀ w, m w = m' w ∨ ∃ u, m w = .error .exhausted u

theorem cuts_exhausted {α : Type} {m : Run α} : Cuts (throw .exhausted) m :=
  fun w => .inr ⟨w, rfl⟩

theorem Cuts.eq {α : Type} {m m' : Run α} (hm : Cuts m m') {w : World} {r : Ending α}
    (h : m w = r) (hr : r.Settled) : m' w = r := by
  rcases hm w with hsame | ⟨u, hfail⟩
  · exact hsame.symm.trans h
  · exact absurd (h.symm.trans hfail) (hr u)

section Cuts

variable {α β : Type} {m m' : Run α} {f f' : α → Run β}

theorem Cuts.refl (m : Run α) : Cuts m m := fun _ => .inl rfl

theorem Cuts.bind (hm : Cuts m m') (hf : ∀ a, Cuts (f a) (f' a)) : Cuts (m >>= f) (m' >>= f') := by
  intro w
  rcases hm w with hsame | ⟨u, hfail⟩
  · cases hresult : m' w with
    | ok a u =>
      have hleft : (m >>= f) w = f a u := bind_ok (hsame.trans hresult)
      have hright : (m' >>= f') w = f' a u := bind_ok hresult
      rw [hleft, hright]
      exact hf a u
    | error e u =>
      exact .inl ((bind_error (hsame.trans hresult)).trans (bind_error hresult).symm)
  · exact .inr ⟨u, bind_error hfail⟩

theorem Cuts.map (g : α → β) (hm : Cuts m m') : Cuts (g <$> m) (g <$> m') := by
  simp only [map_eq_pure_bind]
  exact hm.bind fun a => .refl _

theorem Cuts.look {γ : Type} {look : Heap → γ} {f f' : γ → Run β} (hf : ∀ a, Cuts (f a) (f' a)) :
    Cuts (Run.look look >>= f) (Run.look look >>= f') :=
  (Cuts.refl _).bind hf

/-- No program catches that its steps are used up. -/
theorem Cuts.catching {m m' : Run Value} (hm : Cuts m m') (frame : FrameId) (name : Text)
    (handler : Value) :
    Cuts (catching m frame name handler) (catching m' frame name handler) := by
  intro w
  rcases hm w with hsame | ⟨u, hfail⟩
  · left
    simp only [Evaluator.catching, hsame]
  · exact .inr ⟨u, catching_error hfail fun _ => nofun⟩

/-- A program is cut short only when its tasks are. -/
theorem Program.cuts {T : Type} {P : (T → Run Value) → Run α} (hP : Program P)
    {run run' : T → Run Value} (hrun : ∀ t, Cuts (run t) (run' t)) : Cuts (P run) (P run') := by
  induction hP with
  | own m => exact .refl m
  | operation op args => exact .refl _
  | task t => exact hrun t
  | bind hm hf ihm ihf => exact ihm.bind ihf
  | attempt frame name handler hm ihm => exact ihm.catching frame name handler

end Cuts

/-- An evaluation or a call that a function of the evaluator makes. -/
inductive Part
  | evaluate (form : Value) (frame : FrameId)
  | call (f : Value) (args : List Value)

def Part.run (eval : Evaluation) (apply : Application) : Part → Run Value
  | .evaluate form frame => eval form frame
  | .call f args => apply f args

section Functions

variable {eval eval' : Evaluation} {apply apply' : Application} {steps steps' : Nat}

/-- A function that is a program of evaluations and calls is cut short only when these are. -/
theorem cuts_program {α : Type} {P : Evaluation → Application → Run α}
    (hP : Program fun run : Part → Run Value =>
      P (fun form frame => run (.evaluate form frame)) fun f args => run (.call f args))
    (heval : ∀ form frame, Cuts (eval form frame) (eval' form frame))
    (happly : ∀ f args, Cuts (apply f args) (apply' f args)) :
    Cuts (P eval apply) (P eval' apply') := by
  have hrun : ∀ part : Part, Cuts (part.run eval apply) (part.run eval' apply') := fun part => by
    cases part with
    | evaluate form frame => exact heval form frame
    | call f args => exact happly f args
  exact hP.cuts hrun

section Evaluating

variable (heval : ∀ form frame, Cuts (eval form frame) (eval' form frame))
include heval

theorem cuts_evaluating {α : Type} {P : Evaluation → Run α}
    (hP : Program fun run : Part → Run Value => P fun form frame => run (.evaluate form frame)) :
    Cuts (P eval) (P eval') :=
  cuts_program (P := fun eval _ => P eval) hP heval fun (_ _ : _) => (.refl (pure .nil))

theorem cuts_expandAll (frame : FrameId) (hle : steps ≤ steps') (form : Value) :
    Cuts (expandAll eval frame steps form) (expandAll eval' frame steps' form) := by
  induction steps generalizing steps' form with
  | zero => exact cuts_exhausted
  | succ steps ih =>
    obtain ⟨steps', rfl⟩ := Nat.exists_eq_add_of_le' (Nat.le_trans (Nat.le_add_left 1 steps) hle)
    simp only [expandAll_succ]
    refine Cuts.bind (.refl _) fun w => ?_
    cases macroCall? w frame form with
    | none => exact .refl _
    | some found =>
      refine Cuts.bind ?_ fun form => ih (by omega) form
      exact cuts_evaluating heval (P := fun eval => expand eval found.1 found.2)
        (program_expand (fun _ _ => .task _) found.1 found.2)

theorem cuts_fillItems {fill fill' : Value → Run Value}
    (hfill : ∀ item, Cuts (fill item) (fill' item)) (frame : FrameId) (items : List Value) :
    Cuts (fillItems eval fill frame items) (fillItems eval' fill' frame items) := by
  have hprogram : Program fun run : Value × FrameId ⊕ Value → Run Value =>
      fillItems (fun form frame => run (.inl (form, frame))) (fun item => run (.inr item)) frame
        items :=
    program_fillItems (fun _ _ => .task _) (fun _ => .task _) frame items
  have htasks : ∀ t : Value × FrameId ⊕ Value,
      Cuts (t.elim (fun p => eval p.1 p.2) fill) (t.elim (fun p => eval' p.1 p.2) fill') := by
    rintro (⟨form, frame⟩ | item)
    · exact heval form frame
    · exact hfill item
  exact hprogram.cuts htasks

omit heval in
theorem cuts_fillEntries {fill fill' : Value → Run Value}
    (hfill : ∀ item, Cuts (fill item) (fill' item)) (entries : List (Value × Value)) :
    Cuts (fillEntries fill entries) (fillEntries fill' entries) :=
  Program.cuts (program_fillEntries (fun _ => .task _) entries) hfill

theorem cuts_fill (frame : FrameId) (hle : steps ≤ steps') (template : Value) :
    Cuts (fill eval frame steps template) (fill eval' frame steps' template) := by
  induction steps generalizing steps' template with
  | zero => exact cuts_exhausted
  | succ steps ih =>
    obtain ⟨steps', rfl⟩ := Nat.exists_eq_add_of_le' (Nat.le_trans (Nat.le_add_left 1 steps) hle)
    have hfill : ∀ item, Cuts (fill eval frame steps item) (fill eval' frame steps' item) :=
      ih (by omega)
    simp only [fill_succ]
    refine Cuts.look fun hole => ?_
    cases hole with
    | some forms =>
      rcases forms with _ | ⟨form, _ | ⟨_, _⟩⟩
      · exact .refl _
      · exact heval form frame
      · exact .refl _
    | none =>
      refine Cuts.look fun content => ?_
      cases content with
      | list cell =>
        exact Cuts.look fun items =>
          (cuts_fillItems heval hfill frame items).bind fun _ => .refl _
      | vector cell =>
        exact Cuts.look fun items =>
          (cuts_fillItems heval hfill frame items).bind fun _ => .refl _
      | map entries => exact (cuts_fillEntries hfill entries.toList).bind fun _ => .refl _
      | _ => exact .refl _

/-- Only templates and repeated expansion use the steps. -/
theorem cuts_special (hle : steps ≤ steps') (frame : FrameId) (special : Special)
    (forms : List Value) :
    Cuts (Evaluator.special eval steps frame special forms)
      (Evaluator.special eval' steps' frame special forms) := by
  have hspecial := cuts_evaluating heval
    (P := fun eval => Evaluator.special eval steps frame special forms) (program_special (fun _ _ => .task _) steps frame special forms)
  have hsingle : ∀ {go go' : Value → Run Value}, (∀ form, Cuts (go form) (go' form)) →
      Cuts (Turn.done <$> single special forms go) (Turn.done <$> single special forms go') :=
    fun hgo => Cuts.map _
      (Program.cuts (program_single (fun form => .task form) special forms) hgo)
  cases special with
  | quasiquote => exact hsingle (cuts_fill heval frame hle)
  | macroexpand => exact hsingle (cuts_expandAll heval frame hle)
  | _ => exact hspecial

section Applying

variable (happly : ∀ f args, Cuts (apply f args) (apply' f args))
include happly

omit heval in
theorem cuts_swap (hle : steps ≤ steps') (atom : AtomId) (f : Value) (extra : List Value) :
    Cuts (swap apply atom f extra steps) (swap apply' atom f extra steps') := by
  induction steps generalizing steps' with
  | zero => exact cuts_exhausted
  | succ steps ih =>
    obtain ⟨steps', rfl⟩ := Nat.exists_eq_add_of_le' (Nat.le_trans (Nat.le_add_left 1 steps) hle)
    simp only [swap]
    refine Cuts.look fun old => (happly f (old :: extra)).bind fun new => Cuts.look fun now => ?_
    split
    · exact .refl _
    · exact ih (by omega)

theorem cuts_invoke (hle : steps ≤ steps') (n : Native) (args : List Value) :
    Cuts (invoke eval apply steps n args) (invoke eval' apply' steps' n args) := by
  have hinvoke := cuts_program (P := fun eval apply => invoke eval apply steps n args)
    (program_invoke (fun _ _ => .task _) (fun _ _ => .task _) steps n args) heval happly
  cases n with
  | swap =>
    simp only [invoke_eq]
    rcases args with _ | ⟨target, _ | ⟨f, extra⟩⟩
    · exact .refl _
    · exact .refl _
    · refine Cuts.look fun content => ?_
      cases content with
      | atom atom => exact cuts_swap happly hle atom f extra
      | _ => exact .refl _
  | _ => exact hinvoke

theorem cuts_applyOnce (hle : steps ≤ steps') (f : Value) (args : List Value) :
    Cuts (applyOnce eval apply steps f args) (applyOnce eval' apply' steps' f args) := by
  refine Cuts.look fun callee => ?_
  cases callee with
  | native n => exact cuts_invoke heval happly hle n args
  | closure c => exact Cuts.bind (.refl _) fun frame => heval c.body frame
  | nothing got => exact .refl _

theorem cuts_call (hle : steps ≤ steps') (frame : FrameId) (head : Value) (forms : List Value) :
    Cuts (call eval apply steps frame head forms) (call eval' apply' steps' frame head forms) := by
  have hall := cuts_evaluating heval (P := fun eval => evalAll eval frame forms)
    (program_evalAll (fun _ _ => .task _) frame forms)
  refine (heval head frame).bind fun f => Cuts.look fun callee => ?_
  cases callee with
  | closure c =>
    have hexpand := cuts_evaluating heval (P := fun eval => expand eval c forms)
      (program_expand (fun _ _ => .task _) c forms)
    dsimp only
    split
    · exact hexpand.bind fun expansion => .refl _
    · exact hall.bind fun args => .refl _
  | native n =>
    refine hall.bind fun args => ?_
    exact (cuts_invoke heval happly hle n args).bind fun v => .refl _
  | nothing got => exact .refl _

theorem cuts_turn (hle : steps ≤ steps') (form : Value) (frame : FrameId) :
    Cuts (turn eval apply steps form frame) (turn eval' apply' steps' form frame) := by
  simp only [turn_eq]
  refine Cuts.look fun content => ?_
  cases content with
  | vector cell =>
    refine Cuts.look fun items => Cuts.bind ?_ fun vs => .refl _
    exact cuts_evaluating heval (P := fun eval => evalAll eval frame items)
      (program_evalAll (fun _ _ => .task _) frame items)
  | map entries =>
    refine Cuts.bind ?_ fun vs => .refl _
    exact cuts_evaluating heval (P := fun eval => evalEntries eval frame entries.toList)
      (program_evalEntries (fun _ _ => .task _) frame entries.toList)
  | list cell =>
    refine Cuts.look fun items => ?_
    cases items with
    | nil => exact .refl _
    | cons head forms =>
      refine Cuts.look fun name => ?_
      cases name with
      | some name => exact cuts_special heval hle frame name forms
      | none => exact cuts_call heval happly hle frame head forms
  | _ => exact .refl _

end Applying

theorem cuts_apply (hle : steps ≤ steps') (f : Value) (args : List Value) :
    Cuts (Evaluator.apply eval steps f args) (Evaluator.apply eval' steps' f args) := by
  induction steps generalizing steps' f args with
  | zero => exact cuts_exhausted
  | succ steps ih =>
    obtain ⟨steps', rfl⟩ := Nat.exists_eq_add_of_le' (Nat.le_trans (Nat.le_add_left 1 steps) hle)
    have hless : steps ≤ steps' := by omega
    exact cuts_applyOnce heval (ih hless) hless f args

end Evaluating

theorem cuts_loop {turn turn' : Value → FrameId → Run Turn}
    (hturn : ∀ form frame, Cuts (turn form frame) (turn' form frame)) (hle : steps ≤ steps')
    (form : Value) (frame : FrameId) :
    Cuts (loop turn steps form frame) (loop turn' steps' form frame) := by
  induction steps generalizing steps' form frame with
  | zero => exact cuts_exhausted
  | succ steps ih =>
    obtain ⟨steps', rfl⟩ := Nat.exists_eq_add_of_le' (Nat.le_trans (Nat.le_add_left 1 steps) hle)
    refine (hturn form frame).bind fun result => ?_
    cases result with
    | done v => exact .refl _
    | next form frame => exact ih (by omega) form frame

end Functions

/-- Evaluation within a depth, where what would nest deeper is handed to `beyond`. -/
def evalOver (beyond : Evaluation) (limit : Nat) : (depth : Nat) → Evaluation
  | 0 => beyond
  | depth + 1 => fun form frame =>
    let inner := evalOver beyond limit depth
    loop (turn inner (apply inner limit) limit) limit form frame

/-- The evaluation that fails at once. -/
def failing (e : Failure) : Evaluation := fun _ _ => throw e

theorem evalOver_exhausted (limit depth : Nat) :
    evalOver (failing .exhausted) limit depth = eval limit depth := by
  induction depth with
  | zero => rfl
  | succ depth ih =>
    funext form frame
    rw [evalOver, eval, ih]

/-- Depths add up. -/
theorem evalOver_evalOver (beyond : Evaluation) (limit depth more : Nat) :
    evalOver (evalOver beyond limit more) limit depth = evalOver beyond limit (depth + more) := by
  induction depth with
  | zero => rw [Nat.zero_add, evalOver]
  | succ depth ih => rw [Nat.succ_add, evalOver, evalOver, ih]

theorem cuts_evalOver (beyond : Evaluation) {limit limit' : Nat} (hle : limit ≤ limit')
    (depth : Nat) (form : Value) (frame : FrameId) :
    Cuts (evalOver beyond limit depth form frame) (evalOver beyond limit' depth form frame) := by
  induction depth generalizing form frame with
  | zero => exact .refl _
  | succ depth ih =>
    exact cuts_loop (cuts_turn ih (cuts_apply ih hle) hle) hle form frame

section Asking

variable {T α : Type} {P : (T → Run Value) → Run α}

/-- Either the tasks of a program make no difference, or it ends in any failure that they all end
in, and at one and the same point. -/
theorem Program.eq_or_asks (hP : Program P) (w : World) :
    (∀ run run', P run w = P run' w) ∨
      ∃ u, ∀ e, (∀ x, e ≠ .thrown x) → P (fun _ => throw e) w = .error e u := by
  induction hP generalizing w with
  | own m => exact .inl fun _ _ => rfl
  | operation op args => exact .inl fun _ _ => rfl
  | task t => exact .inr ⟨w, fun _ _ => rfl⟩
  | @bind α β m f hm hf ihm ihf =>
    rcases ihm w with hsame | ⟨u, hasks⟩
    · cases hresult : m (fun _ => throw .exhausted) w with
      | ok a u =>
        have hrest : ∀ run, (m run >>= f run) w = f run a u := fun run =>
          bind_ok ((hsame run _).trans hresult)
        simp only [hrest]
        exact ihf a u
      | error e u =>
        have hfails : ∀ run, (m run >>= f run) w = .error e u := fun run =>
          bind_error ((hsame run _).trans hresult)
        exact .inl fun run run' => (hfails run).trans (hfails run').symm
    · exact .inr ⟨u, fun e he => bind_error (hasks e he)⟩
  | attempt frame name handler hm ihm =>
    rcases ihm w with hsame | ⟨u, hasks⟩
    · refine .inl fun run run' => ?_
      simp only [catching, hsame run run']
    · exact .inr ⟨u, fun e he => catching_error (hasks e he) he⟩

end Asking

/-- A computation over an open evaluation, with a bound on its steps: it has evaluations run for it,
and more steps at most let it go further. -/
structure IsBounded {α : Type} (P : Nat → Evaluation → Run α) : Prop where
  program : ∀ limit, Program fun run : Value × FrameId → Run Value =>
    P limit fun form frame => run (form, frame)
  cuts : ∀ {limit limit'} beyond, limit ≤ limit' → Cuts (P limit beyond) (P limit' beyond)

/-- What the computation does in a world is the same whatever is beyond. -/
def Fits {α : Type} (P : Nat → Evaluation → Run α) (w : World) : Prop :=
  ∀ limit beyond beyond', P limit beyond w = P limit beyond' w

/-- With some number of steps the computation ends so, whatever is beyond. -/
def Ends {α : Type} (P : Nat → Evaluation → Run α) (w : World) (r : Ending α) : Prop :=
  r.Settled ∧ ∃ limit, ∀ beyond, P limit beyond w = r

section Bounded

variable {α β : Type} {w : World}

theorem eq_or_asks {P : Evaluation → Run α}
    (hP : Program fun run : Value × FrameId → Run Value => P fun form frame => run (form, frame))
    (w : World) :
    (∀ beyond beyond', P beyond w = P beyond' w) ∨
      ∃ u, ∀ e, (∀ x, e ≠ .thrown x) → P (failing e) w = .error e u := by
  rcases hP.eq_or_asks w with hsame | hasks
  · exact .inl fun beyond beyond' => hsame (fun p => beyond p.1 p.2) fun p => beyond' p.1 p.2
  · exact .inr hasks

/-- A computation that asks for what is beyond shows it: two failures there make it end in two
ways. -/
theorem not_asks {P : Evaluation → Run α}
    (hsame : ∀ beyond beyond', P beyond w = P beyond' w) (u : World) :
    ¬ ∀ e, (∀ x, e ≠ .thrown x) → P (failing e) w = .error e u := by
  intro hasks
  have hpaths := (hasks (.unread []) fun x => by simp).symm.trans
    ((hsame _ _).trans (hasks (.unread [0]) fun x => by simp))
  simp at hpaths

/-- What is cut short asks for no more than the whole. -/
theorem eq_of_cuts {P P' : Evaluation → Run α}
    (hP : Program fun run : Value × FrameId → Run Value => P fun form frame => run (form, frame))
    (hcuts : ∀ beyond, Cuts (P beyond) (P' beyond))
    (hsame : ∀ beyond beyond', P' beyond w = P' beyond' w) (beyond beyond' : Evaluation) :
    P beyond w = P beyond' w := by
  rcases eq_or_asks hP w with hsame' | ⟨u, hasks⟩
  · exact hsame' beyond beyond'
  · have hfails : ∀ path : Text, P' (failing (.unread path)) w = .error (.unread path) u :=
      fun path => (hcuts _).eq (hasks _ fun x => by simp) (Ending.settled_error (by simp))
    have hpaths := (hfails []).symm.trans ((hsame _ _).trans (hfails [0]))
    simp at hpaths

theorem isBounded_own (m : Run α) : IsBounded fun _ _ => m :=
  ⟨fun _ => .own m, fun _ _ => .refl m⟩

theorem fits_own (m : Run α) (w : World) : Fits (fun _ _ => m) w := fun _ _ _ => rfl

theorem ends_own {m : Run α} {r : Ending α} (hr : r.Settled) :
    Ends (fun _ _ => m) w r ↔ m w = r :=
  ⟨fun h => h.2.choose_spec (failing .exhausted), fun h => ⟨hr, 0, fun _ => h⟩⟩

variable {P : Nat → Evaluation → Run α} {F : α → Nat → Evaluation → Run β}

theorem fits_congr {Q : Nat → Evaluation → Run α}
    (h : ∀ limit beyond, P limit beyond w = Q limit beyond w) : Fits P w ↔ Fits Q w := by
  simp only [Fits, h]

theorem ends_congr {Q : Nat → Evaluation → Run α}
    (h : ∀ limit beyond, P limit beyond w = Q limit beyond w) {r : Ending α} :
    Ends P w r ↔ Ends Q w r := by
  simp only [Ends, h]

theorem IsBounded.bind (hP : IsBounded P) (hF : ∀ a, IsBounded (F a)) :
    IsBounded fun limit beyond => P limit beyond >>= fun a => F a limit beyond :=
  ⟨fun limit => .bind (hP.program limit) fun a => (hF a).program limit,
    fun beyond hle => (hP.cuts beyond hle).bind fun a => (hF a).cuts beyond hle⟩

/-- From some number of steps on. -/
theorem Ends.from (hP : IsBounded P) {r : Ending α} (hr : Ends P w r) :
    ∃ n, ∀ limit, n ≤ limit → ∀ beyond, P limit beyond w = r := by
  obtain ⟨hsettled, n, hn⟩ := hr
  exact ⟨n, fun limit hle beyond => (hP.cuts beyond hle).eq (hn beyond) hsettled⟩

/-- A sequence fits when its first part does, and its second part wherever the first leads. -/
theorem fits_bind (hP : IsBounded P) (hF : ∀ a, IsBounded (F a)) :
    Fits (fun limit beyond => P limit beyond >>= fun a => F a limit beyond) w ↔
      Fits P w ∧ ∀ a u, Ends P w (.ok a u) → Fits (F a) u := by
  constructor
  · intro hfits
    refine ⟨fun limit => ?_, fun a u hends limit => ?_⟩
    · rcases eq_or_asks (hP.program limit) w with hsame | ⟨u, hasks⟩
      · exact hsame
      · exact absurd (fun e he => bind_error (hasks e he)) (not_asks (hfits limit) u)
    · obtain ⟨n, hn⟩ := hends.from hP
      have hle := Nat.le_max_right n limit
      refine eq_of_cuts ((hF a).program limit) (fun beyond => (hF a).cuts beyond hle) ?_
      intro beyond beyond'
      have hrest : ∀ beyond, (P (max n limit) beyond >>= fun a => F a (max n limit) beyond) w =
          F a (max n limit) beyond u :=
        fun beyond => bind_ok (hn _ (Nat.le_max_left n limit) beyond)
      rw [← hrest beyond, ← hrest beyond']
      exact hfits _ beyond beyond'
  · rintro ⟨hfits, hrest⟩ limit beyond beyond'
    cases hresult : P limit beyond w with
    | ok a u =>
      have hends : Ends P w (.ok a u) :=
        ⟨Ending.settled_ok, limit, fun other => (hfits limit other beyond).trans hresult⟩
      calc (P limit beyond >>= fun a => F a limit beyond) w = F a limit beyond u := bind_ok hresult
        _ = F a limit beyond' u := hrest a u hends limit beyond beyond'
        _ = (P limit beyond' >>= fun a => F a limit beyond') w :=
          (bind_ok (f := fun a => F a limit beyond')
            ((hfits limit beyond' beyond).trans hresult)).symm
    | error e u =>
      exact (bind_error hresult).trans
        (bind_error ((hfits limit beyond' beyond).trans hresult)).symm

theorem ends_bind (hP : IsBounded P) (hF : ∀ a, IsBounded (F a)) (hfits : Fits P w) {b : β}
    {x : World} :
    Ends (fun limit beyond => P limit beyond >>= fun a => F a limit beyond) w (.ok b x) ↔
      ∃ a u, Ends P w (.ok a u) ∧ Ends (F a) u (.ok b x) := by
  constructor
  · rintro ⟨_, limit, hlimit⟩
    cases hresult : P limit (failing .exhausted) w with
    | ok a u =>
      have hfirst : ∀ beyond, P limit beyond w = .ok a u := fun beyond =>
        (hfits limit beyond _).trans hresult
      refine ⟨a, u, ⟨Ending.settled_ok, limit, hfirst⟩, Ending.settled_ok, limit, fun beyond => ?_⟩
      exact (bind_ok (hfirst beyond)).symm.trans (hlimit beyond)
    | error e u => cases (bind_error hresult).symm.trans (hlimit _)
  · rintro ⟨a, u, hfirst, hrest⟩
    obtain ⟨m, hm⟩ := hfirst.from hP
    obtain ⟨n, hn⟩ := hrest.from (hF a)
    refine ⟨Ending.settled_ok, max m n, fun beyond => ?_⟩
    exact (bind_ok (hm _ (Nat.le_max_left m n) beyond)).trans (hn _ (Nat.le_max_right m n) beyond)

/-- A first part that asks for nothing. -/
theorem fits_own_bind {m : Run α} (hF : ∀ a, IsBounded (F a)) :
    Fits (fun limit beyond => m >>= fun a => F a limit beyond) w ↔
      ∀ a u, m w = .ok a u → Fits (F a) u := by
  rw [fits_bind (isBounded_own m) hF]
  simp only [fits_own, ends_own Ending.settled_ok, true_and]

/-- A second part that asks for nothing. -/
theorem fits_bind_own (hP : IsBounded P) {f : α → Run β} :
    Fits (fun limit beyond => P limit beyond >>= f) w ↔ Fits P w := by
  rw [fits_bind (F := fun a _ _ => f a) hP fun a => isBounded_own (f a)]
  simp only [fits_own, implies_true, and_true]

theorem ends_bind_own (hP : IsBounded P) (hfits : Fits P w) {f : α → Run β} {b : β} {x : World} :
    Ends (fun limit beyond => P limit beyond >>= f) w (.ok b x) ↔
      ∃ a u, Ends P w (.ok a u) ∧ f a u = .ok b x := by
  rw [ends_bind (F := fun a _ _ => f a) hP (fun a => isBounded_own (f a)) hfits]
  simp only [ends_own Ending.settled_ok]

/-- What is caught is gone on with in a frame of its own. -/
theorem catching_next_iff {m : Run Value} {frame frame' : FrameId} {name : Text}
    {handler form' : Value} {x : World} :
    catching m frame name handler w = .ok (.next form' frame') x ↔
      ∃ v u, m w = .error (.thrown v) u ∧
        Run.newFrame (some frame) (.ofPairs [(name, v)]) u = .ok frame' x ∧ form' = handler := by
  unfold catching
  constructor
  · intro h
    cases hresult : m w with
    | ok v u =>
      rw [hresult] at h
      cases h
    | error e u =>
      rw [hresult] at h
      cases e with
      | thrown v =>
        cases h
        exact ⟨v, u, rfl, rfl, rfl⟩
      | _ => cases h
  · rintro ⟨v, u, hresult, hframe, rfl⟩
    rw [hresult]
    exact bind_ok hframe

theorem fits_catching {P : Nat → Evaluation → Run Value} (hP : IsBounded P) (frame : FrameId)
    (name : Text) (handler : Value) :
    Fits (fun limit beyond => catching (P limit beyond) frame name handler) w ↔ Fits P w := by
  refine ⟨fun hfits limit => ?_, fun hfits limit beyond beyond' => ?_⟩
  · rcases eq_or_asks (hP.program limit) w with hsame | ⟨u, hasks⟩
    · exact hsame
    · exact absurd (fun e he => catching_error (hasks e he) he) (not_asks (hfits limit) u)
  · simp only [catching, hfits limit beyond beyond']

theorem ends_catching {P : Nat → Evaluation → Run Value} (hfits : Fits P w)
    {frame frame' : FrameId} {name : Text} {handler form' : Value} {x : World} :
    Ends (fun limit beyond => catching (P limit beyond) frame name handler) w
        (.ok (.next form' frame') x) ↔
      ∃ v u, Ends P w (.error (.thrown v) u) ∧
        Run.newFrame (some frame) (.ofPairs [(name, v)]) u = .ok frame' x ∧ form' = handler := by
  constructor
  · rintro ⟨_, limit, hends⟩
    obtain ⟨v, u, hthrown, hframe⟩ := catching_next_iff.mp (hends (failing .exhausted))
    exact ⟨v, u, ⟨Ending.settled_error (by simp), limit,
      fun beyond => (hfits limit beyond _).trans hthrown⟩, hframe⟩
  · rintro ⟨v, u, ⟨_, limit, hthrown⟩, hframe⟩
    exact ⟨Ending.settled_ok, limit, fun beyond =>
      catching_next_iff.mpr ⟨v, u, hthrown beyond, hframe⟩⟩

end Bounded

end Lisp.Evaluator
