import Lisp.Proofs.Heap.Agreement

/-!
Values without cycles. Every comparison of two such values goes to values that reach fewer objects,
so it ends, whatever else is in the heap; and its answer stays the same for as long as nothing
inside the two values changes.
-/
namespace Lisp.Heap

/-- Nothing that is reached from the value is inside itself. -/
def IsLoopless (h : Heap) (v : Value) : Prop :=
  ∀ x, Relation.ReflTransGen h.Holds v x → ¬ Relation.TransGen h.Holds x x

section Descent

variable {h : Heap} {a b v : Value}

theorem IsLoopless.held (ha : h.IsLoopless a) (hab : h.Holds a b) : h.IsLoopless b := fun x hx =>
  ha x (.head hab hx)

/-- A value of which all that it holds is without cycles is without cycles. -/
theorem isLoopless_of_held (hheld : ∀ b, h.Holds a b → h.IsLoopless b) : h.IsLoopless a := by
  intro x hx
  rcases Relation.ReflTransGen.cases_head hx with rfl | ⟨b, hab, hbx⟩
  · intro hcycle
    obtain ⟨b, hab, hba⟩ := Relation.TransGen.head'_iff.mp hcycle
    exact hheld b hab b .refl (.tail' hba hab)
  · exact hheld b hab x hbx

/-- Where every object holds only what is older, nothing is inside itself. -/
theorem isLoopless_of_older
    (holder : ∀ address < h.objects.size, ∀ x ∈ h.held (.object address), x.IsBelow address)
    (v : Value) : h.IsLoopless v := by
  have haddress : ∀ address, h.IsLoopless (.object address) := by
    intro address
    induction address using Nat.strong_induction_on with
    | _ address ih =>
      refine isLoopless_of_held fun b hb => ?_
      obtain ⟨_, hlt, hobject⟩ := exists_object_of_holds hb
      cases hobject
      have hbelow := holder address hlt b hb
      cases b with
      | object other => exact ih other hbelow
      | _ => exact isLoopless_of_held fun c hc => by cases hc
  cases v with
  | object address => exact haddress address
  | _ => exact isLoopless_of_held fun c hc => by cases hc

theorem IsLoopless.card_reached_lt (ha : h.IsLoopless a) (hab : h.Holds a b) :
    (h.reached h.Holds b).card < (h.reached h.Holds a).card :=
  Heap.card_reached_lt hab hab fun hback => ha a .refl (.head' hab hback)

/-- The way down from a value without cycles ends. -/
theorem IsLoopless.acc (hv : h.IsLoopless v) : Acc (fun x y => h.Holds y x) v := by
  induction hn : (h.reached h.Holds v).card using Nat.strong_induction_on generalizing v with
  | _ n ih =>
    exact Acc.intro v fun x hx => ih _ (hn ▸ hv.card_reached_lt hx) (hv.held hx) rfl

/-- A depth above what the two values reach is enough. -/
theorem IsLoopless.endsWithin (ha : h.IsLoopless a) (hb : h.IsLoopless b) {fuel : Nat}
    (hfuel : (h.reached h.Holds a).card + (h.reached h.Holds b).card < fuel) (opened : Trail) :
    h.EndsWithin fuel (opened, a, b) := by
  induction fuel generalizing opened a b with
  | zero => omega
  | succ fuel ih =>
    refine endsWithin_succ ?_
    rintro ⟨opened', x, y⟩ hcall
    -- keys are compared with the sides exchanged, so the measure is of both sides together
    rcases hcall.held with ⟨hx, hy⟩ | ⟨hx, hy⟩
    · have hltx := ha.card_reached_lt hx
      have hlty := hb.card_reached_lt hy
      exact ih (ha.held hx) (hb.held hy) (by omega) opened'
    · have hltx := hb.card_reached_lt hx
      have hlty := ha.card_reached_lt hy
      exact ih (hb.held hx) (ha.held hy) (by omega) opened'

theorem card_reached_lt_equalityDepth (h : Heap) (a b : Value) :
    (h.reached h.Holds a).card + (h.reached h.Holds b).card < h.equalityDepth := by
  have hleft : (h.reached h.Holds a).card ≤ h.objects.size := card_reached_le
  have hright : (h.reached h.Holds b).card ≤ h.objects.size := card_reached_le
  have hsquare := Nat.le_mul_self h.objects.size
  have hle : 2 * (h.objects.size * h.objects.size + 1) ≤ h.equalityDepth :=
    Nat.mul_le_mul_right _ (Nat.le_trans (by omega) (Nat.le_mul_of_pos_left _ (Nat.succ_pos _)))
  omega

theorem IsLoopless.endsWithin_equalityDepth (ha : h.IsLoopless a) (hb : h.IsLoopless b)
    (opened : Trail) : h.EndsWithin h.equalityDepth (opened, a, b) :=
  ha.endsWithin hb (card_reached_lt_equalityDepth h a b) opened

/-- Values without cycles are compared to their end. -/
theorem IsLoopless.equalInside_eq_equalStep (ha : h.IsLoopless a) (hb : h.IsLoopless b)
    (opened : Trail) : h.equalInside opened a b = h.equalStep h.equalInside opened a b := by
  refine Heap.equalInside_eq_equalStep (ha.endsWithin_equalityDepth hb opened) ?_
  rintro ⟨opened', x, y⟩ hcall
  rcases hcall.held with ⟨hx, hy⟩ | ⟨hx, hy⟩
  · exact (ha.held hx).endsWithin_equalityDepth (hb.held hy) opened'
  · exact (hb.held hx).endsWithin_equalityDepth (ha.held hy) opened'

end Descent

section Agreement

variable {g h : Heap} {S : Value → Prop} {a b : Value}

/-- What is without cycles is so in every heap that agrees. -/
theorem AgreesOn.isLoopless (hagree : AgreesOn S g h) (hS : g.Hereditary S) (ha : S a)
    (hloopless : g.IsLoopless a) : h.IsLoopless a := by
  induction hloopless.acc with
  | intro a _ ih =>
    refine isLoopless_of_held fun b hab => ?_
    rw [hagree.holds ha] at hab
    exact ih b hab (hS a b ha hab) (hloopless.held hab)

/-- Two values without cycles are equal in a larger heap exactly when they were, if nothing inside
them has changed. -/
theorem AgreesOn.equal_of_isLoopless (hagree : AgreesOn S g h) (hsize : g.NotSmaller h)
    (hS : g.Hereditary S) (ha : S a) (hb : S b) (hloopless : g.IsLoopless a)
    (hloopless' : g.IsLoopless b) : h.equal a b = g.equal a b := by
  have hg := (hloopless.endsWithin_equalityDepth hloopless' {}).eq_some
  rw [equal_eq, equal_eq, equalInside, hagree.equalWithin? hS ha hb,
    equalWithin?_mono (equalityDepth_mono hsize.objects hsize.cells) hg]
  rfl

end Agreement

end Lisp.Heap
