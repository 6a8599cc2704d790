import Lisp.Proofs.Evaluator.Calls

/-!
Atoms under `swap!`. The function is called on what the atom holds. Whatever the function does with
the atom meanwhile, its result is put there only if the atom still holds that very object when the
call is over; otherwise the function is called again, on what the atom holds by then. So no update
is overwritten that the function was not called on.
-/
namespace Lisp.Evaluator

open Meaning Ending Session

variable {w u x : World} {atom : AtomId} {f swapper target : Value} {extra : List Value}
  {r : Ending Value}

/-- A call on what the atom holds that leaves another object in the atom. -/
def IsOutrun (atom : AtomId) (f : Value) (extra : List Value) (w u : World) : Prop :=
  ∃ v, Applies w f (w.heap.deref atom :: extra) (.ok v u) ∧
    u.heap.deref atom ≠ w.heap.deref atom

/-- The last of the calls: one that leaves the atom as it found it, whose result the atom holds
then, or one that fails. -/
def SwapsLast (atom : AtomId) (f : Value) (extra : List Value) (w : World) : Ending Value → Prop
  | .ok v u => ∃ y, Applies w f (w.heap.deref atom :: extra) (.ok v y) ∧
      y.heap.deref atom = w.heap.deref atom ∧ u = { y with heap := y.heap.reset atom v }
  | .error e u => Applies w f (w.heap.deref atom :: extra) (.error e u)

section Attempts

/-- The loop comes to a last call by calls that were outrun. -/
theorem exists_last_of_swap {call : Application} (hcall : FaithfulCalls call) {steps : Nat}
    (h : swap call atom f extra steps w = r) (hr : r.Settled) :
    ∃ x, Relation.ReflTransGen (IsOutrun atom f extra) w x ∧ SwapsLast atom f extra x r := by
  subst h
  induction steps generalizing w with
  | zero => exact absurd hr not_settled_exhausted
  | succ steps ih =>
    simp only [swap, run_bind, run_look, andThen_ok] at hr ⊢
    cases hresult : call f (w.heap.deref atom :: extra) w with
    | error e u =>
      rw [hresult] at hr
      exact ⟨w, .refl, hcall hresult hr⟩
    | ok v u =>
      rw [hresult] at hr
      simp only [andThen_ok, run_bind, run_look] at hr ⊢
      by_cases hsame : u.heap.deref atom = w.heap.deref atom
      · rw [if_pos hsame]
        exact ⟨w, .refl, u, hcall hresult settled_ok, hsame, rfl⟩
      · rw [if_neg hsame] at hr ⊢
        obtain ⟨x, hx, hlast⟩ := ih hr
        exact ⟨x, .head ⟨v, hcall hresult settled_ok, hsame⟩ hx, hlast⟩

theorem swaps_of_last (hlast : SwapsLast atom f extra w r) : Swaps w atom f extra r := by
  cases r with
  | ok v u =>
    obtain ⟨y, hcall, hsame, rfl⟩ := hlast
    exact .done hcall hsame
  | error e u => exact .fails hlast

/-- The calls of `swap!` are those that are outrun, and then one more. -/
theorem swaps_iff : Swaps w atom f extra r ↔
    ∃ x, Relation.ReflTransGen (IsOutrun atom f extra) w x ∧ SwapsLast atom f extra x r := by
  constructor
  · intro h
    obtain ⟨n, hn⟩ := h.runs
    have hrun := hn ⟨n, n, n, n⟩ ⟨Nat.le_refl n, Nat.le_refl n, Nat.le_refl n, Nat.le_refl n⟩
    exact exists_last_of_swap (faithful_apply (faithful_eval n n) n) hrun h.settled
  rintro ⟨x, hx, hlast⟩
  induction hx using Relation.ReflTransGen.head_induction_on with
  | refl => exact swaps_of_last hlast
  | head houtrun _ ih =>
    obtain ⟨v, hcall, hother⟩ := houtrun
    exact .again hcall hother ih

/-- A call of the native ends as the swapping does. -/
theorem applies_swap_iff (hswapper : w.heap.callee swapper = .native .swap)
    (htarget : w.heap.content target = .atom atom) :
    Applies w swapper (target :: f :: extra) r ↔ Swaps w atom f extra r := by
  constructor
  · intro h
    cases h with
    | native hn h =>
      cases hswapper.symm.trans hn
      cases h with
      | swap hatom h =>
        cases htarget.symm.trans hatom
        exact h
      | swapRefused hnone => exact absurd htarget (hnone atom)
      | swapArguments hshort =>
        simp only [List.length_cons] at hshort
        omega
    | closure hc _ _ => cases hswapper.symm.trans hc
    | fails hc _ => cases hswapper.symm.trans hc
    | nothing hnone => cases hswapper.symm.trans hnone
  · exact fun h => .native hswapper (.swap htarget h)

end Attempts

section Holding

/-- A world in which the atom is there, with the function and the values it is called on. -/
structure CanSwap (atom : AtomId) (f : Value) (extra : List Value) (w : World) : Prop where
  ready : w.Ready .all
  atom_lt : atom < w.heap.atoms.size
  function : w.heap.Has f
  extra : ∀ v ∈ extra, w.heap.Has v

/-- So it is after every call. -/
theorem CanSwap.applies (hw : CanSwap atom f extra w) {v : Value}
    (hcall : Applies w f (w.heap.deref atom :: extra) (.ok v u)) : CanSwap atom f extra u := by
  have hargs : GivesAll w (w.heap.deref atom :: extra) :=
    List.forall_mem_cons.mpr ⟨hw.ready.sound.heap.deref atom, hw.extra⟩
  have hleads := leads_applies hw.ready hw.function hargs hcall
  have hsize := World.Steps.notSmaller hleads.1
  exact ⟨hw.ready.steps hleads.1, Nat.lt_of_lt_of_le hw.atom_lt hsize.1.atoms,
    hsize.1.has hw.function, fun x hx => hsize.1.has (hw.extra x hx)⟩

theorem CanSwap.outrun (hw : CanSwap atom f extra w)
    (hx : Relation.ReflTransGen (IsOutrun atom f extra) w x) : CanSwap atom f extra x := by
  induction hx with
  | refl => exact hw
  | tail _ houtrun ih =>
    obtain ⟨v, hcall, -⟩ := houtrun
    exact ih.applies hcall

theorem deref_reset {h : Heap} (hatom : atom < h.atoms.size) (v : Value) :
    (h.reset atom v).deref atom = v := by
  simp [Heap.reset, Heap.deref, Array.getD_eq_getD_getElem?, hatom]

end Holding

/-- `swap!` never overwrites an update it has not seen: it calls the function again for as long as
the atom holds another object after the call, and fails as the first call that fails. -/
theorem swap_sees_every_update {w : World} (hw : Reachable w) {swapper target f : Value}
    {extra : List Value} {atom : AtomId} (hswapper : w.heap.callee swapper = .native .swap)
    (htarget : w.heap.content target = .atom atom) (hf : w.heap.Has f)
    (hextra : ∀ v ∈ extra, w.heap.Has v) :
    (∀ v u, (∃ limit depth steps,
        apply (eval limit depth) steps swapper (target :: f :: extra) w = .ok v u) ↔
      ∃ x y, Relation.ReflTransGen (IsOutrun atom f extra) w x ∧
        Applies x f (x.heap.deref atom :: extra) (.ok v y) ∧
        y.heap.deref atom = x.heap.deref atom ∧
        u = { y with heap := y.heap.reset atom v } ∧ u.heap.deref atom = v) ∧
    ∀ e u, e ≠ .exhausted → ((∃ limit depth steps,
        apply (eval limit depth) steps swapper (target :: f :: extra) w = .error e u) ↔
      ∃ x, Relation.ReflTransGen (IsOutrun atom f extra) w x ∧
        Applies x f (x.heap.deref atom :: extra) (.error e u)) := by
  have hsound := hw.ready.sound.heap
  have hatom : atom < w.heap.atoms.size := by
    have hcontent := hsound.content target
    rw [htarget] at hcontent
    exact hcontent
  have hcan : CanSwap atom f extra w := ⟨hw.ready, hatom, hf, hextra⟩
  refine ⟨fun v u => ?_, fun e u he => ?_⟩
  · rw [← applies_iff_exists_apply settled_ok, applies_swap_iff hswapper htarget, swaps_iff]
    constructor
    · rintro ⟨x, hx, y, hcall, hsame, rfl⟩
      have hheld := deref_reset ((hcan.outrun hx).applies hcall).atom_lt v
      exact ⟨x, y, hx, hcall, hsame, rfl, hheld⟩
    · rintro ⟨x, y, hx, hcall, hsame, rfl, -⟩
      exact ⟨x, hx, y, hcall, hsame, rfl⟩
  · rw [← applies_iff_exists_apply (settled_error he), applies_swap_iff hswapper htarget, swaps_iff]
    rfl

/-- A session with an atom that holds one, and a function that puts five into the atom whenever it
is called on one. -/
def swapping : World :=
  (start [] false {}).after (runSource (Text.of "
    (def! one 1) (def! step 10) (def! a (atom one))
    (def! f (fn* (old step) (do (if (= old 1) (reset! a 5)) (+ old step))))"))

abbrev swapCall : Run Value :=
  apply (eval 9 9) 9 (swapping.global "swap!")
    [swapping.global "a", swapping.global "f", swapping.global "step"]

def swapped : Value := (swapCall.value? swapping).getD .nil

set_option maxRecDepth 10000 in
theorem swapping_spec :
    let v := swapping.global
    swapping.heap.callee (v "swap!") = .native .swap ∧ swapping.heap.content (v "a") = .atom 0 ∧
    (∀ x ∈ [v "f", v "step"], swapping.heap.Has x) ∧ swapping.heap.deref 0 = v "one" ∧
    swapCall.value? swapping = some swapped ∧
    (swapping.after swapCall).heap.content swapped = .int 15 := by
  decide +kernel

/-- The function is called again on the five that its first call puts into the atom, and ten more
than that is what the atom holds in the end. -/
theorem swap_sees_every_update_swapping :
    let v := swapping.global
    Reachable swapping ∧ swapping.heap.deref 0 = v "one" ∧
    ∃ x y u : World, Relation.ReflTransGen (IsOutrun 0 (v "f") [v "step"]) swapping x ∧
      Applies x (v "f") [x.heap.deref 0, v "step"] (.ok swapped y) ∧
      y.heap.deref 0 = x.heap.deref 0 ∧ u.heap.deref 0 = swapped ∧
      u.heap.content swapped = .int 15 := by
  intro v
  obtain ⟨hswapper, htarget, hthere, hheld, hvalue, hint⟩ := swapping_spec
  have hreachable : Reachable swapping := reachable_run ..
  have hcall := Run.eq_ok_of_value? hvalue
  generalize swapping.after swapCall = u at hint hcall
  obtain ⟨x, y, hx, hlast, hsame, -, hnow⟩ :=
    ((swap_sees_every_update hreachable hswapper htarget (hthere _ List.mem_cons_self)
      fun x hx => hthere x (List.mem_cons_of_mem _ hx)).1 _ u).mp ⟨9, 9, 9, hcall⟩
  exact ⟨hreachable, hheld, x, y, u, hx, hlast, hsame, hnow, hint⟩

end Lisp.Evaluator
