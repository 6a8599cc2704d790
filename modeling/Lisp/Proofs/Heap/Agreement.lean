import Lisp.Proofs.Heap.Depth
import Lisp.Proofs.Heap.Soundness

/-!
Equality looks at nothing but what is reached from the two values: heaps that agree on a set of
values which has with a value all that the value holds give the same answers there.
-/
namespace Lisp.Heap

/-- With a value the set has what the value holds. -/
def Hereditary (h : Heap) (S : Value → Prop) : Prop := ∀ a b, S a → h.Holds a b → S b

/-- The second heap has the contents and elements that the first has on the set. -/
structure AgreesOn (S : Value → Prop) (g h : Heap) : Prop where
  content : ∀ v, S v → h.content v = g.content v
  items : ∀ v cell, S v → (g.content v).cell? = some cell → h.items cell = g.items cell

variable {g h : Heap} {S : Value → Prop} {a b : Value}

theorem Hereditary.reached (hS : h.Hereditary S) (ha : S a)
    (hab : Relation.ReflTransGen h.Holds a b) : S b := by
  induction hab with
  | refl => exact ha
  | tail _ hbc ih => exact hS _ _ ih hbc

theorem holds_iff_mem_items {cell : CellId} (ha : (h.content a).cell? = some cell) :
    h.Holds a b ↔ b ∈ h.items cell := by
  unfold Holds held
  cases hc : h.content a <;> rw [hc] at ha <;> cases ha <;> rfl

section Agreement

theorem AgreesOn.holds (hagree : AgreesOn S g h) (ha : S a) :
    h.Holds a b ↔ g.Holds a b := by
  cases hcell : (g.content a).cell? with
  | some cell =>
    have hcell' : (h.content a).cell? = some cell := by rw [hagree.content a ha, hcell]
    rw [holds_iff_mem_items hcell, holds_iff_mem_items hcell', hagree.items a cell ha hcell]
  | none =>
    unfold Holds held
    rw [hagree.content a ha]
    cases hc : g.content a with
    | list cell | vector cell =>
      rw [hc] at hcell
      cases hcell
    | _ => rfl

theorem AgreesOn.reached (hagree : AgreesOn S g h) (hS : g.Hereditary S)
    (ha : S a) (hab : Relation.ReflTransGen h.Holds a b) : Relation.ReflTransGen g.Holds a b := by
  induction hab with
  | refl => exact .refl
  | tail _ hcd ih => exact ih.tail ((hagree.holds (hS.reached ha ih)).mp hcd)

theorem AgreesOn.comparison (hagree : AgreesOn S g h) (ha : S a) (hb : S b) :
    h.comparison a b = g.comparison a b := by
  unfold Heap.comparison
  rw [hagree.content a ha, hagree.content b hb]

theorem AgreesOn.equalStep? (hagree : AgreesOn S g h) (ha : S a) (hb : S b)
    (inner : Trail → Value → Value → Option Bool) (opened : Trail) :
    h.equalStep? inner opened a b = g.equalStep? inner opened a b := by
  rw [equalStep?_eq, equalStep?_eq]
  rw [hagree.comparison ha hb]
  have hspec := g.describes_comparison a b
  cases hc : g.comparison a b with
  | sequences c d =>
    rw [hc] at hspec
    have hcells : (g.content a).cell? = some c ∧ (g.content b).cell? = some d := by
      rcases hspec with ⟨hca, hcb⟩ | ⟨hca, hcb⟩ <;> rw [hca, hcb] <;> exact ⟨rfl, rfl⟩
    have hitems : h.items c = g.items c := hagree.items a c ha hcells.1
    have hitems' : h.items d = g.items d := hagree.items b d hb hcells.2
    have hsize : (h.sequence c).size = (g.sequence c).size := by
      rw [← Sequence.length_toList, ← Sequence.length_toList]
      exact congrArg List.length hitems
    have hsize' : (h.sequence d).size = (g.sequence d).size := by
      rw [← Sequence.length_toList, ← Sequence.length_toList]
      exact congrArg List.length hitems'
    simp only [hitems, hitems', hsize, hsize']
  | _ => rfl

/-- Heaps that agree on the set answer alike there, at every depth. -/
theorem AgreesOn.equalWithin? (hagree : AgreesOn S g h) (hS : g.Hereditary S) (ha : S a) (hb : S b)
    (fuel : Nat) (opened : Trail) :
    h.equalWithin? fuel opened a b = g.equalWithin? fuel opened a b := by
  induction fuel generalizing opened a b with
  | zero => rfl
  | succ fuel ih =>
    rw [Heap.equalWithin?, Heap.equalWithin?, hagree.equalStep? ha hb]
    refine equalStep?_congr fun opened' x y hcall => ?_
    rcases hcall.held with ⟨hx, hy⟩ | ⟨hx, hy⟩
    · exact ih (hS _ _ ha hx) (hS _ _ hb hy) opened'
    · exact ih (hS _ _ hb hx) (hS _ _ ha hy) opened'

end Agreement

/-- Two values are equal in a larger heap exactly when they were, if nothing inside them has
changed. -/
theorem AgreesOn.equal (hagree : AgreesOn S g h) (hsize : g.NotSmaller h) (hground : g.IsGrounded)
    (hS : g.Hereditary S) (ha : S a) (hb : S b) : h.equal a b = g.equal a b := by
  rw [equal_eq, equal_eq, equalInside, equalInside, hagree.equalWithin? hS ha hb,
    equalWithin?_of_le hground (equalityDepth_mono hsize.objects hsize.cells)]

end Lisp.Heap
