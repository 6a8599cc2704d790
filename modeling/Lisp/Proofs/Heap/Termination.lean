import Lisp.Proofs.Datum.Basic
import Lisp.Heap.Equality
import Mathlib.Data.Finset.Card
import Mathlib.Data.Finset.Prod
import Mathlib.Logic.Relation

/-!
Comparisons end. A list or vector may hold itself, but a pair of cells is opened once only; between
two openings a comparison goes through maps and errors, which do not lead back to themselves; and
the comparison of two keys, which starts with no pair open, has left the maps behind whose keys they
are. So each call of a comparison by a comparison lowers a rank, where no map is reached from one of
its own keys.
-/
namespace Lisp

/-- What maps and errors hold, for as long as they are there. -/
def Content.enclosed : Content → List Value
  | .map entries => alternate entries.toList
  | .error payload => [payload]
  | _ => []

namespace Heap

/-- What a value holds: elements, keys and values, or the payload of an error. -/
def held (h : Heap) (v : Value) : List Value :=
  match h.content v with
  | .list cell | .vector cell => h.items cell
  | content => content.enclosed

def Holds (h : Heap) (a b : Value) : Prop := b ∈ h.held a

def Encloses (h : Heap) (a b : Value) : Prop := b ∈ (h.content a).enclosed

theorem Encloses.holds {h : Heap} {a b : Value} (hab : h.Encloses a b) : h.Holds a b := by
  unfold Encloses at hab
  unfold Holds held
  cases hc : h.content a <;> simp_all [Content.enclosed]

/-- No map or error is inside itself without a list or vector on the way. -/
def IsGrounded (h : Heap) : Prop := ∀ a, ¬ Relation.TransGen h.Encloses a a

/-- No map is reached from one of its own keys. -/
def KeysApart (h : Heap) : Prop :=
  ∀ a entries, h.content a = .map entries → ∀ entry ∈ entries.toList,
    ¬ Relation.ReflTransGen h.Holds entry.1 a

/-- A comparison of two values with the pairs of cells that are open around it. -/
abbrev Query := Trail × Value × Value

/-- The comparisons that a comparison may call for. -/
inductive Calls (h : Heap) : Query → Query → Prop
  | element {opened : Trail} {a b x y : Value} {c d : CellId} :
    h.comparison a b = .sequences c d → opened.contains (c, d) = false →
    (x, y) ∈ (h.items c).zip (h.items d) → Calls h (opened, a, b) (opened.add (c, d), x, y)
  | key {opened : Trail} {a b : Value} {m n : Entries} {entry other : Value × Value} :
    h.comparison a b = .maps m n → entry ∈ m.toList → other ∈ n.toList →
    Calls h (opened, a, b) ({}, other.1, entry.1)
  | value {opened : Trail} {a b : Value} {m n : Entries} {entry other : Value × Value} :
    h.comparison a b = .maps m n → entry ∈ m.toList → other ∈ n.toList →
    Calls h (opened, a, b) (opened, entry.2, other.2)
  | payload {opened : Trail} {a b p q : Value} :
    h.comparison a b = .payloads p q → Calls h (opened, a, b) (opened, p, q)

/-- The comparison of two keys that a comparison of maps may call for. -/
def CallsKey (h : Heap) (p q : Query) : Prop :=
  ∃ m n : Entries, ∃ entry other : Value × Value, h.comparison p.2.1 p.2.2 = .maps m n ∧
    entry ∈ m.toList ∧ other ∈ n.toList ∧ q = ({}, other.1, entry.1)

/-- What two contents are when they are compared by what they hold. -/
def Comparison.Describes (x y : Content) : Comparison → Prop
  | .sequences c d => (x = .list c ∧ y = .list d) ∨ (x = .vector c ∧ y = .vector d)
  | .maps m n => x = .map m ∧ y = .map n
  | .payloads p q => x = .error p ∧ y = .error q
  | .equal | .different => True

theorem describes_comparison (h : Heap) (a b : Value) :
    (h.comparison a b).Describes (h.content a) (h.content b) := by
  have hsettled : ∀ p : Bool, (Comparison.ofBool p).Describes (h.content a) (h.content b) := by
    intro p
    cases p <;> trivial
  unfold comparison
  split
  · trivial
  · split
    case h_2 | h_3 | h_4 | h_5 | h_6 | h_7 | h_11 | h_12 | h_13 => exact hsettled _
    all_goals simp [*, Comparison.Describes]

section Rank

/-- Only an object that was made holds anything. -/
theorem exists_object_of_holds {h : Heap} {a b : Value} (hab : h.Holds a b) :
    ∃ address < h.objects.size, a = .object address := by
  cases a with
  | object address =>
    refine ⟨address, ?_, rfl⟩
    by_contra hge
    have hnone : h.objects[address]? = none := Array.getElem?_eq_none (Nat.le_of_not_lt hge)
    simp [Holds, held, content, object, Array.getD_eq_getD_getElem?, hnone, Content.enclosed] at hab
  | _ => simp [Holds, held, content, object, Content.enclosed] at hab

open Classical in
/-- The objects that `R` leads to. -/
noncomputable def reached (h : Heap) (R : Value → Value → Prop) (a : Value) : Finset Nat :=
  {address ∈ Finset.range h.objects.size | Relation.ReflTransGen R a (.object address)}

variable {h : Heap} {R : Value → Value → Prop} {a b : Value}

theorem mem_reached {address : Nat} : address ∈ h.reached R a ↔
    address < h.objects.size ∧ Relation.ReflTransGen R a (.object address) := by
  simp [reached]

theorem card_reached_le : (h.reached R a).card ≤ h.objects.size := by
  have hsubset : h.reached R a ⊆ Finset.range h.objects.size := fun address haddress =>
    Finset.mem_range.mpr (mem_reached.mp haddress).1
  exact (Finset.card_le_card hsubset).trans_eq (Finset.card_range _)

theorem reached_subset (hab : R a b) : h.reached R b ⊆ h.reached R a := by
  intro address hb
  obtain ⟨hlt, hreach⟩ := mem_reached.mp hb
  exact mem_reached.mpr ⟨hlt, .head hab hreach⟩

/-- Fewer objects are reached once there is no way back. -/
theorem card_reached_lt (hholds : h.Holds a b) (hab : R a b)
    (hback : ¬ Relation.ReflTransGen R b a) : (h.reached R b).card < (h.reached R a).card := by
  obtain ⟨address, hlt, rfl⟩ := exists_object_of_holds hholds
  refine Finset.card_lt_card ((Finset.ssubset_iff_of_subset (reached_subset hab)).mpr ?_)
  exact ⟨address, mem_reached.mpr ⟨hlt, .refl⟩, fun hmem => hback (mem_reached.mp hmem).2⟩

/-- The pairs of cells that have not been opened. -/
def unopened (h : Heap) (opened : Trail) : Finset (CellId × CellId) :=
  {pair ∈ Finset.range h.cells.size ×ˢ Finset.range h.cells.size | opened.contains pair = false}

theorem card_unopened_le (opened : Trail) :
    (h.unopened opened).card ≤ h.cells.size * h.cells.size := by
  refine (Finset.card_filter_le ..).trans ?_
  rw [Finset.card_product, Finset.card_range]

theorem card_unopened_add {opened : Trail} {c d : CellId} (hc : c < h.cells.size)
    (hd : d < h.cells.size) (hclosed : opened.contains (c, d) = false) :
    (h.unopened (opened.add (c, d))).card < (h.unopened opened).card := by
  have hsubset : h.unopened (opened.add (c, d)) ⊆ h.unopened opened := by
    intro pair hpair
    obtain ⟨hrange, hfalse⟩ := Finset.mem_filter.mp hpair
    rw [Trail.contains_add, Bool.or_eq_false_iff] at hfalse
    exact Finset.mem_filter.mpr ⟨hrange, hfalse.2⟩
  refine Finset.card_lt_card ((Finset.ssubset_iff_of_subset hsubset).mpr ?_)
  refine ⟨(c, d), Finset.mem_filter.mpr ⟨?_, hclosed⟩, fun hmem => ?_⟩
  · exact Finset.mem_product.mpr ⟨Finset.mem_range.mpr hc, Finset.mem_range.mpr hd⟩
  · simpa using (Finset.mem_filter.mp hmem).2

/-- Numbers of two digits are compared from the left. -/
theorem digits_lt {high high' low low' base : Nat} (hlow : low' < base)
    (hlt : high' < high ∨ high' ≤ high ∧ low' < low) : high' * base + low' < high * base + low := by
  rcases hlt with hhigh | ⟨hhigh, hlt⟩
  · have hle := Nat.mul_le_mul_right base (Nat.succ_le_of_lt hhigh)
    rw [Nat.succ_mul] at hle
    omega
  · have hle := Nat.mul_le_mul_right base hhigh
    omega

/-- How far a comparison can go without comparing keys: the pairs that can still be opened count
most, then what is enclosed on the left. -/
noncomputable def descent (h : Heap) (q : Query) : Nat :=
  (h.unopened q.1).card * (h.objects.size + 2) + (h.reached h.Encloses q.2.1).card

theorem card_enclosed_lt : (h.reached h.Encloses a).card < h.objects.size + 2 :=
  Nat.lt_of_le_of_lt card_reached_le (by omega)

theorem descent_lt (q : Query) :
    h.descent q < (h.cells.size * h.cells.size + 1) * (h.objects.size + 2) :=
  @digits_lt (h.cells.size * h.cells.size + 1) _ 0 _ _ card_enclosed_lt
    (Or.inl (Nat.lt_succ_of_le (card_unopened_le q.1)))

/-- What can still be reached from both sides counts most, then the way without keys. -/
noncomputable def rank (h : Heap) (q : Query) : Nat :=
  ((h.reached h.Holds q.2.1).card + (h.reached h.Holds q.2.2).card) *
      ((h.cells.size * h.cells.size + 1) * (h.objects.size + 2)) + h.descent q

theorem lt_size_of_mem_items {cell : CellId} {v : Value} (hv : v ∈ h.items cell) :
    cell < h.cells.size := by
  by_contra hge
  have hnone : h.cells[cell]? = none := Array.getElem?_eq_none (Nat.le_of_not_lt hge)
  simp [items, sequence, Array.getD_eq_getD_getElem?, hnone] at hv

theorem encloses_entry {entries : Entries} {entry : Value × Value}
    (ha : h.content a = .map entries) (hentry : entry ∈ entries.toList) :
    h.Encloses a entry.1 ∧ h.Encloses a entry.2 := by
  simp only [Encloses, ha, Content.enclosed, mem_alternate]
  exact ⟨⟨entry, hentry, Or.inl rfl⟩, ⟨entry, hentry, Or.inr rfl⟩⟩

theorem encloses_payload {p : Value} (ha : h.content a = .error p) : h.Encloses a p := by
  simp [Encloses, ha, Content.enclosed]

theorem holds_elements {c d : CellId} {x y : Value} (hc : h.comparison a b = .sequences c d)
    (hx : x ∈ h.items c) (hy : y ∈ h.items d) : h.Holds a x ∧ h.Holds b y := by
  have hspec := h.describes_comparison a b
  rw [hc] at hspec
  rcases hspec with ⟨ha, hb⟩ | ⟨ha, hb⟩
  · simpa [Holds, held, ha, hb] using ⟨hx, hy⟩
  · simpa [Holds, held, ha, hb] using ⟨hx, hy⟩

theorem not_reflTransGen_of_encloses (hground : h.IsGrounded) (hab : h.Encloses a b) :
    ¬ Relation.ReflTransGen h.Encloses b a :=
  fun hback => hground a (.head' hab hback)

/-- The values that a comparison calls for are held by the values compared. -/
theorem Calls.held {p q : Query} (hcall : h.Calls p q) :
    (h.Holds p.2.1 q.2.1 ∧ h.Holds p.2.2 q.2.2) ∨ (h.Holds p.2.2 q.2.1 ∧ h.Holds p.2.1 q.2.2) := by
  have hspec := h.describes_comparison p.2.1 p.2.2
  cases hcall with
  | @element opened a b x y c d hc hclosed hmem =>
    obtain ⟨hx, hy⟩ := List.of_mem_zip hmem
    exact Or.inl (holds_elements hc hx hy)
  | @key opened a b m n entry other hc hentry hother =>
    rw [hc] at hspec
    exact Or.inr ⟨(encloses_entry hspec.2 hother).1.holds, (encloses_entry hspec.1 hentry).1.holds⟩
  | @value opened a b m n entry other hc hentry hother =>
    rw [hc] at hspec
    exact Or.inl ⟨(encloses_entry hspec.1 hentry).2.holds, (encloses_entry hspec.2 hother).2.holds⟩
  | @payload opened a b p q hc =>
    rw [hc] at hspec
    exact Or.inl ⟨(encloses_payload hspec.1).holds, (encloses_payload hspec.2).holds⟩

/-- Every comparison that is called for is one of keys, or has less far to go. -/
theorem Calls.descends (hground : h.IsGrounded) {p q : Query} (hcall : h.Calls p q) :
    h.CallsKey p q ∨ h.descent q < h.descent p := by
  have hspec := h.describes_comparison p.2.1 p.2.2
  cases hcall with
  | @element opened a b x y c d hc hclosed hmem =>
    obtain ⟨hx, hy⟩ := List.of_mem_zip hmem
    have hlt := card_unopened_add (lt_size_of_mem_items hx) (lt_size_of_mem_items hy) hclosed
    exact Or.inr (digits_lt card_enclosed_lt (Or.inl hlt))
  | @key opened a b m n entry other hc hentry hother =>
    exact Or.inl ⟨m, n, entry, other, hc, hentry, hother, rfl⟩
  | @value opened a b m n entry other hc hentry hother =>
    rw [hc] at hspec
    have hleft := (encloses_entry hspec.1 hentry).2
    have hlt := card_reached_lt hleft.holds hleft (not_reflTransGen_of_encloses hground hleft)
    exact Or.inr (digits_lt card_enclosed_lt (Or.inr ⟨le_rfl, hlt⟩))
  | @payload opened a b p q hc =>
    rw [hc] at hspec
    have hleft := encloses_payload hspec.1
    have hlt := card_reached_lt hleft.holds hleft (not_reflTransGen_of_encloses hground hleft)
    exact Or.inr (digits_lt card_enclosed_lt (Or.inr ⟨le_rfl, hlt⟩))

/-- Keys reach less than the maps whose keys they are. -/
theorem CallsKey.card_reached_lt (hkeys : h.KeysApart) {p q : Query} (hcall : h.CallsKey p q) :
    (h.reached h.Holds q.2.1).card + (h.reached h.Holds q.2.2).card <
      (h.reached h.Holds p.2.1).card + (h.reached h.Holds p.2.2).card := by
  obtain ⟨m, n, entry, other, hc, hentry, hother, rfl⟩ := hcall
  have hspec := h.describes_comparison p.2.1 p.2.2
  rw [hc] at hspec
  have hleft : h.Holds p.2.1 entry.1 := (encloses_entry hspec.1 hentry).1.holds
  have hright : h.Holds p.2.2 other.1 := (encloses_entry hspec.2 hother).1.holds
  have hlt := Heap.card_reached_lt hleft hleft (hkeys _ m hspec.1 entry hentry)
  have hlt' := Heap.card_reached_lt hright hright (hkeys _ n hspec.2 other hother)
  dsimp only
  omega

/-- What is called for reaches no more than what calls for it. -/
theorem Calls.card_reached_le {p q : Query} (hcall : h.Calls p q) :
    (h.reached h.Holds q.2.1).card + (h.reached h.Holds q.2.2).card ≤
      (h.reached h.Holds p.2.1).card + (h.reached h.Holds p.2.2).card := by
  rcases hcall.held with ⟨hleft, hright⟩ | ⟨hleft, hright⟩
  · have hle := Finset.card_le_card (reached_subset (h := h) hleft)
    have hle' := Finset.card_le_card (reached_subset (h := h) hright)
    omega
  · have hle := Finset.card_le_card (reached_subset (h := h) hleft)
    have hle' := Finset.card_le_card (reached_subset (h := h) hright)
    omega

/-- Every comparison that is called for has a lower rank. -/
theorem rank_lt_of_calls (hground : h.IsGrounded) (hkeys : h.KeysApart) {p q : Query}
    (hcall : h.Calls p q) : h.rank q < h.rank p := by
  refine digits_lt (descent_lt q) ?_
  rcases hcall.descends hground with hkey | hlt
  · exact Or.inl (hkey.card_reached_lt hkeys)
  · exact Or.inr ⟨hcall.card_reached_le, hlt⟩

/-- No comparison calls for others without end. -/
theorem wellFounded_calls (hground : h.IsGrounded) (hkeys : h.KeysApart) :
    WellFounded fun q p => h.Calls p q :=
  Subrelation.wf (fun hcall => rank_lt_of_calls hground hkeys hcall) (measure h.rank).wf

end Rank

end Heap

end Lisp
