import Lisp.Proofs.Evaluator.Faithfulness

/-!
The loop over tail calls computes the meaning of forms. A derivation never ends cut short, so the
endings that evaluation reaches within some depth and steps, other than being cut short, are just
the endings that have a derivation; and from some depth and steps on it reaches that one.
-/
namespace Lisp

open Ending

section Settles

variable {α β : Type}

/-- Never cut short. -/
def Run.Settles (m : Run α) : Prop := ∀ w, Settled (m w)

theorem Ending.Settled.andThen {r : Ending α} {f : α → Run β} (hr : r.Settled)
    (hf : ∀ a, Run.Settles (f a)) : Settled (r.andThen f) := by
  cases r with
  | ok a w => exact hf a w
  | error e w => exact settled_error fun he => hr w (by rw [he])

/-- A failure is settled or not, whatever would have been given. -/
theorem Ending.Settled.error {e : Failure} {w : World} (h : Settled (.error e w : Ending α)) :
    Settled (.error e w : Ending β) :=
  settled_error fun he => h w (by rw [he])

namespace Run

theorem settles_pure (a : α) : Settles (pure a : Run α) := fun _ => settled_ok

theorem settles_look (f : Heap → α) : Settles (look f) := fun _ => settled_ok

theorem settles_fault (f : Fault) : Settles (fault f : Run α) := fun _ =>
  settled_error Failure.noConfusion

theorem settles_onHeap (f : Heap → α × Heap) : Settles (onHeap f) := fun _ => settled_ok

theorem settles_onScopes (f : Scopes → α × Scopes) : Settles (onScopes f) := fun _ => settled_ok

theorem settles_bind {m : Run α} {f : α → Run β} (hm : Settles m) (hf : ∀ a, Settles (f a)) :
    Settles (m >>= f) := by
  intro w
  rw [run_bind]
  exact (hm w).andThen hf

theorem settles_makeMap (alternating : List Value) : Settles (makeMap alternating) :=
  settles_bind (settles_look _) fun _ => settles_onHeap _

theorem settles_lookup (frame : FrameId) (name : Text) : Settles (lookup frame name) := by
  refine settles_bind (fun _ => settled_ok) fun found => ?_
  cases found with
  | some v => exact settles_pure v
  | none => exact settles_fault _

theorem settles_assign (frame : FrameId) (name : Text) (v : Value) :
    Settles (assign frame name v) := by
  refine settles_bind (fun _ => settled_ok) fun found => ?_
  cases found with
  | some g => exact settles_onScopes _
  | none => exact settles_fault _

theorem settles_bindClosure (c : Closure) (args : List Value) : Settles (bindClosure c args) := by
  rw [bindClosure]
  cases c.tail with
  | none =>
    rw [bind_none]
    split
    · exact settles_fault _
    · exact settles_onScopes _
  | some name =>
    rw [bind_some]
    split
    · exact settles_fault _
    · exact settles_bind (settles_onHeap _) fun _ => settles_onScopes _

theorem settles_note (line : Heap → Except Crash Text) : Settles (note line) := by
  intro w
  unfold note
  split
  · split
    · exact settled_ok
    · exact settled_error Failure.noConfusion
  · exact settled_ok

end Run

theorem Failure.ofParse_ne_exhausted (e : ParseError) : Failure.ofParse e ≠ .exhausted := by
  unfold Failure.ofParse
  split <;> exact Failure.noConfusion

theorem Reply.settles_perform (reply : Reply) : reply.perform.Settles := by
  intro w
  cases reply with
  | raise v => exact settled_error Failure.noConfusion
  | raiseText s => exact settled_error Failure.noConfusion
  | unreadable e => exact settled_error (Failure.ofParse_ne_exhausted e)
  | want path => exact settled_error Failure.noConfusion
  | crash e => exact settled_error Failure.noConfusion
  | print line =>
    unfold Reply.perform
    dsimp only
    split
    · exact settled_ok
    · exact settled_error Failure.noConfusion
  | _ => exact settled_ok

theorem Operation.settles_call (op : Operation) (args : List Value) : (op.call args).Settles := by
  intro w
  unfold Operation.call
  cases op.answer w.host w.heap args with
  | ok reply => exact reply.settles_perform w
  | error f => exact Run.settles_fault f w

end Settles

namespace Meaning

open Evaluator Run

/-- Parts that are wrong make a malformed form. -/
theorem malformed_of_shapeFailure? {h : Heap} {special : Special} {forms : List Value}
    {e : Failure} (hshape : shapeFailure? h special forms = some e) :
    ∃ form why, e = .malformed form why := by
  unfold shapeFailure? nameFailure? at hshape
  repeat' split at hshape
  all_goals cases hshape
  all_goals
    first
    | exact ⟨_, _, rfl⟩
    | exact malformed_of_catchClause (by assumption)
    | exact malformed_of_parameters (by assumption)

theorem settles_bodyOf (forms : List Value) : Settles (bodyOf forms) := by
  intro w
  obtain ⟨body, u, hbody⟩ := bodyOf_ok forms w
  rw [hbody]
  exact settled_ok

theorem settles_bindMacro (frame : FrameId) (name : Text) (f : Value) :
    Settles (bindMacro frame name f) := by
  refine settles_bind (settles_look _) fun callee => ?_
  cases callee with
  | closure c =>
    refine settles_bind (settles_look _) fun metadata => ?_
    refine settles_bind (settles_onHeap _) fun v => ?_
    exact settles_bind (settles_onScopes _) fun _ => settles_pure v
  | native n => exact settles_bind (settles_look _) fun _ => settles_fault _
  | nothing got => exact settles_bind (settles_look _) fun _ => settles_fault _

theorem settles_noteExpansion (expansion : Value) : Settles (noteExpansion expansion) :=
  settles_bind (settles_note _) fun _ => settles_pure expansion

mutual

theorem Evaluates.settled {w : World} {form : Value} {frame : FrameId} {r : Ending Value}
    (h : Evaluates w form frame r) : r.Settled := by
  match h with
  | .constant _ => exact settled_ok
  | .symbol _ => exact settles_lookup _ _ _
  | .vector _ hitems => exact (EvaluatesAll.settled hitems).andThen fun _ => settles_onHeap _
  | .map _ hentries => exact (EvaluatesAll.settled hentries).andThen settles_makeMap
  | .malformed _ hshape =>
    obtain ⟨special, why, rfl⟩ := malformed_of_shapeFailure? hshape
    exact settles_fault _ _
  | .sequenceEmpty _ => exact settled_ok
  | .sequence _ _ hlast => exact Evaluates.settled hlast
  | .sequenceFails _ hearlier => exact (EvaluatesAll.settled hearlier).error
  | .conditionalThen _ _ _ hyes => exact Evaluates.settled hyes
  | .conditionalElse _ _ _ hno => exact Evaluates.settled hno
  | .conditionalNone _ _ _ => exact settled_ok
  | .conditionalFails _ hcondition => exact Evaluates.settled hcondition
  | .letStar _ _ _ _ _ _ hbody => exact Evaluates.settled hbody
  | .letStarFails _ _ _ _ hbinds => exact (Binds.settled hbinds).error
  | .attempt _ hbody => exact Evaluates.settled hbody
  | .attemptGives _ _ _ => exact settled_ok
  | .attemptCatches _ _ _ _ hhandler => exact Evaluates.settled hhandler
  | .attemptFails _ _ hbody _ => exact Evaluates.settled hbody
  | .define _ _ hvalue =>
    refine (Evaluates.settled hvalue).andThen fun v => ?_
    exact settles_bind (settles_onScopes _) fun _ => settles_pure v
  | .assign _ _ hvalue =>
    refine (Evaluates.settled hvalue).andThen fun v => ?_
    exact settles_bind (settles_assign _ _ v) fun _ => settles_pure v
  | .defineMacro _ _ hvalue => exact (Evaluates.settled hvalue).andThen (settles_bindMacro _ _)
  | .function _ _ _ => exact (settles_bodyOf _ _).andThen fun _ => settles_onHeap _
  | .quote _ => exact settled_ok
  | .quasiquote _ hfills => exact Fills.settled hfills
  | .macroexpand _ hexpands => exact Expands.settled hexpands
  | .callFails _ hhead => exact Evaluates.settled hhead
  | .callNothing _ _ _ => exact settles_fault _ _
  | .callMacro _ _ _ _ _ hrest => exact Evaluates.settled hrest
  | .callMacroFails _ _ _ _ hexpands => exact ExpandsOnce.settled hexpands
  | .callClosure _ _ _ _ _ _ hbody => exact Evaluates.settled hbody
  | .callClosureFails _ _ _ _ _ hbind => exact (hbind ▸ settles_bindClosure _ _ _).error
  | .callNative _ _ _ _ hinvokes => exact Invokes.settled hinvokes
  | .callArgumentsFail _ _ _ _ hargs => exact (EvaluatesAll.settled hargs).error

theorem EvaluatesAll.settled {w : World} {forms : List Value} {frame : FrameId}
    {r : Ending (List Value)} (h : EvaluatesAll w forms frame r) : r.Settled := by
  match h with
  | .nil => exact settled_ok
  | .cons _ hrest => exact (EvaluatesAll.settled hrest).andThen fun _ => settles_pure _
  | .fails hform => exact (Evaluates.settled hform).error

theorem Binds.settled {w : World} {pairs : List Value} {frame : FrameId} {r : Ending Unit}
    (h : Binds w pairs frame r) : r.Settled := by
  match h with
  | .nil => exact settled_ok
  | .cons _ _ _ hrest => exact Binds.settled hrest
  | .fails _ hform => exact (Evaluates.settled hform).error
  | .malformed _ => exact settles_fault _ _

theorem ExpandsOnce.settled {w : World} {c : Closure} {forms : List Value} {r : Ending Value}
    (h : ExpandsOnce w c forms r) : r.Settled := by
  match h with
  | .body _ hbody => exact (Evaluates.settled hbody).andThen settles_noteExpansion
  | .fails hbind => exact (hbind ▸ settles_bindClosure _ _ _).error

theorem Expands.settled {w : World} {form : Value} {frame : FrameId} {r : Ending Value}
    (h : Expands w form frame r) : r.Settled := by
  match h with
  | .done _ => exact settled_ok
  | .step _ _ hrest => exact Expands.settled hrest
  | .fails _ honce => exact ExpandsOnce.settled honce

theorem Fills.settled {w : World} {template : Value} {frame : FrameId} {r : Ending Value}
    (h : Fills w template frame r) : r.Settled := by
  match h with
  | .hole _ hform => exact Evaluates.settled hform
  | .malformed _ _ => exact settles_fault _ _
  | .list _ _ hitems => exact (FillsAll.settled hitems).andThen fun _ => settles_onHeap _
  | .vector _ _ hitems => exact (FillsAll.settled hitems).andThen fun _ => settles_onHeap _
  | .map _ _ hentries => exact (FillsEntries.settled hentries).andThen settles_makeMap
  | .constant _ _ _ _ => exact settled_ok

theorem FillsAll.settled {w : World} {items : List Value} {frame : FrameId}
    {r : Ending (List Value)} (h : FillsAll w items frame r) : r.Settled := by
  match h with
  | .nil => exact settled_ok
  | .splice _ _ _ hrest => exact (FillsAll.settled hrest).andThen fun _ => settles_pure _
  | .spliceRefused _ _ _ => exact settles_fault _ _
  | .spliceFails _ hform => exact (Evaluates.settled hform).error
  | .spliceMalformed _ _ => exact settles_fault _ _
  | .cons _ _ hrest => exact (FillsAll.settled hrest).andThen fun _ => settles_pure _
  | .fails _ hitem => exact (Fills.settled hitem).error

theorem FillsEntries.settled {w : World} {entries : List (Value × Value)} {frame : FrameId}
    {r : Ending (List Value)} (h : FillsEntries w entries frame r) : r.Settled := by
  match h with
  | .nil => exact settled_ok
  | .cons _ hrest => exact (FillsEntries.settled hrest).andThen fun _ => settles_pure _
  | .fails hvalue => exact (Fills.settled hvalue).error

theorem Invokes.settled {w : World} {n : Native} {args : List Value} {r : Ending Value}
    (h : Invokes w n args r) : r.Settled := by
  match h with
  | .operation => exact Operation.settles_call _ _ _
  | .apply _ happlies => exact Applies.settled happlies
  | .applyRefused _ => exact settles_fault _ _
  | .applyArguments _ => exact settles_fault _ _
  | .map _ hmaps => exact (Maps.settled hmaps).andThen fun _ => settles_onHeap _
  | .mapRefused _ => exact settles_fault _ _
  | .mapArguments _ => exact settles_fault _ _
  | .swap _ hswaps => exact Swaps.settled hswaps
  | .swapRefused _ => exact settles_fault _ _
  | .swapArguments _ => exact settles_fault _ _
  | .eval hform => exact Evaluates.settled hform
  | .evalArguments _ => exact settles_fault _ _
  | .inert => exact settled_ok

theorem Applies.settled {w : World} {f : Value} {args : List Value} {r : Ending Value}
    (h : Applies w f args r) : r.Settled := by
  match h with
  | .native _ hinvokes => exact Invokes.settled hinvokes
  | .closure _ _ hbody => exact Evaluates.settled hbody
  | .fails _ hbind => exact (hbind ▸ settles_bindClosure _ _ _).error
  | .nothing _ => exact settles_fault _ _

theorem Maps.settled {w : World} {f : Value} {items : List Value} {r : Ending (List Value)}
    (h : Maps w f items r) : r.Settled := by
  match h with
  | .nil => exact settled_ok
  | .cons _ hrest => exact (Maps.settled hrest).andThen fun _ => settles_pure _
  | .fails hitem => exact (Applies.settled hitem).error

theorem Swaps.settled {w : World} {atom : AtomId} {f : Value} {extra : List Value}
    {r : Ending Value} (h : Swaps w atom f extra r) : r.Settled := by
  match h with
  | .done _ _ => exact settled_ok
  | .again _ _ hrest => exact Swaps.settled hrest
  | .fails hcall => exact Applies.settled hcall

end

/-- Evaluation ends with a value or a failure just when the meaning of the form derives it, with
the same world left behind; and then it ends so within all depths and numbers of steps from some
on. -/
theorem evaluates_iff_eval (w : World) (form : Value) (frame : FrameId) (r : Ending Value) :
    (Evaluates w form frame r ↔
      r.Settled ∧ ∃ limit depth, Evaluator.eval limit depth form frame w = r) ∧
    (Evaluates w form frame r ↔
      r.Settled ∧ ∃ n, ∀ limit depth, n ≤ limit → n ≤ depth →
        Evaluator.eval limit depth form frame w = r) := by
  have hfrom (h : Evaluates w form frame r) : r.Settled ∧ ∃ n, ∀ limit depth, n ≤ limit →
      n ≤ depth → Evaluator.eval limit depth form frame w = r := by
    obtain ⟨n, hn⟩ := h.loops.eval
    refine ⟨h.settled, n, fun limit depth hlimit hdepth => ?_⟩
    exact hn ⟨limit, depth, limit, limit⟩ ⟨hlimit, hdepth, hlimit, hlimit⟩
  refine ⟨⟨fun h => ?_, fun h => ?_⟩, hfrom, fun h => ?_⟩
  · obtain ⟨hr, n, hn⟩ := hfrom h
    exact ⟨hr, n, n, hn n n (Nat.le_refl n) (Nat.le_refl n)⟩
  · obtain ⟨hr, limit, depth, heval⟩ := h
    exact faithful_eval limit depth heval hr
  · obtain ⟨hr, n, hn⟩ := h
    exact faithful_eval n n (hn n n (Nat.le_refl n) (Nat.le_refl n)) hr

end Meaning

end Lisp
