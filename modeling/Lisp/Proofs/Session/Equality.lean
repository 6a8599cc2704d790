import Lisp.Proofs.Heap.Symmetry
import Lisp.Proofs.Session.Reachable

/-!
Equality in the heaps of programs. What is made holds only what was there before it, and of what
there is only lists and atoms change. So in a heap that a program has come to, every cycle passes
through a cell or an atom, and equality decides whether two values have the same unfolding. Where
the keys of each map differ as well, it is an equivalence.
-/
namespace Lisp

/-- The entries of a hash map. -/
def Content.entries? : Content → Option Entries
  | .map entries => some entries
  | _ => none

namespace Session

open Heap

/-- Every heap of a program is grounded. In a heap that is, and where no map is reached from one of
its own keys, every comparison ends, no allowance beyond the usual one changes what it says, and
equality is the greatest relation under which related values match. -/
theorem equal_decides_unfolding :
    (∀ w, Reachable w → w.heap.IsGrounded) ∧
    ∀ h : Heap, h.IsGrounded → h.KeysApart →
      (WellFounded fun q p => h.Calls p q) ∧
      (∀ fuel a b, h.equalityDepth ≤ fuel → h.equalWithin? fuel {} a b = some (h.equal a b)) ∧
      IsGreatest {R : Value → Value → Prop | ∀ a b, R a b → h.Matches R a b}
        fun a b => h.equal a b = true := by
  refine ⟨fun w hw => hw.ready.sound.heap.isGrounded, fun h hground hkeys => ?_⟩
  refine ⟨wellFounded_calls hground hkeys, fun fuel a b hfuel => ?_, isGreatest_equal hground hkeys⟩
  rw [equal_eq]
  exact equalWithin?_mono hfuel (endsWithin_equalityDepth hground hkeys ({}, a, b)).eq_some

/-- A list that holds itself, two lists that hold one another, and maps with these as values. -/
def entwined : Heap where
  objects := #[⟨.list 0, none⟩, ⟨.list 1, none⟩, ⟨.list 2, none⟩,
    ⟨.map (.ofList [(.nil, .object 0)]), none⟩, ⟨.map (.ofList [(.nil, .object 1)]), none⟩]
  cells := #[.ofList [.object 0], .ofList [.object 2], .ofList [.object 1]]

theorem encloses_entwined {a b : Value} (hab : entwined.Encloses a b) :
    (a = .object 3 ∨ a = .object 4) ∧ (b = .nil ∨ b = .object 0 ∨ b = .object 1) := by
  obtain ⟨address, hlt, rfl⟩ := exists_object_of_holds hab.holds
  match address, hlt with
  | 0, _ | 1, _ | 2, _ => cases hab
  | 3, _ =>
    have hb : b = .nil ∨ b = .object 0 := by
      simpa [Encloses, Content.enclosed, entwined, content, object, alternate] using hab
    exact ⟨Or.inl rfl, hb.imp_right Or.inl⟩
  | 4, _ =>
    have hb : b = .nil ∨ b = .object 1 := by
      simpa [Encloses, Content.enclosed, entwined, content, object, alternate] using hab
    exact ⟨Or.inr rfl, hb.imp_right Or.inr⟩

theorem map_entwined {a : Value} {entries : Entries} (ha : entwined.content a = .map entries) :
    a ≠ .nil ∧ ∃ v, entries = .ofList [(.nil, v)] := by
  match a, ha with
  | .object 3, ha | .object 4, ha =>
    cases ha
    exact ⟨by simp, _, rfl⟩
  | .object (address + 5), ha => simp [entwined, content, object] at ha

/-- The list that holds itself and those that hold one another are equal, and so are the maps. -/
theorem equal_decides_unfolding_entwined :
    entwined.IsGrounded ∧ entwined.KeysApart ∧ entwined.equal (.object 3) (.object 4) = true := by
  have hground : entwined.IsGrounded := by
    intro a hloop
    obtain ⟨b, hab, _⟩ := Relation.TransGen.head'_iff.mp hloop
    obtain ⟨c, _, hca⟩ := Relation.TransGen.tail'_iff.mp hloop
    rcases (encloses_entwined hab).1 with rfl | rfl <;> simpa using (encloses_entwined hca).2
  have hkeys : entwined.KeysApart := by
    intro a entries ha entry hentry hreach
    obtain ⟨hne, v, rfl⟩ := map_entwined ha
    obtain rfl : entry = (.nil, v) := by simpa using hentry
    rcases hreach.cases_head with heq | ⟨b, hholds, _⟩
    · exact hne heq.symm
    · simp [Holds, held, content, object, Content.enclosed] at hholds
  let R (x y : Value) : Prop :=
    (x = .object 3 ∧ y = .object 4) ∨ (x = .object 0 ∧ (y = .object 1 ∨ y = .object 2))
  have hR : ∀ a b, R a b → entwined.Matches R a b := by
    rintro _ _ (⟨rfl, rfl⟩ | ⟨rfl, rfl | rfl⟩)
    · refine .maps rfl rfl rfl fun entry hentry => ?_
      obtain rfl : entry = (.nil, .object 0) := by simpa using hentry
      exact ⟨(.nil, .object 1), rfl, Or.inr ⟨rfl, Or.inl rfl⟩⟩
    · exact .lists rfl rfl (.cons (Or.inr ⟨rfl, Or.inr rfl⟩) .nil)
    · exact .lists rfl rfl (.cons (Or.inr ⟨rfl, Or.inl rfl⟩) .nil)
  have hgreatest := (equal_decides_unfolding.2 entwined hground hkeys).2.2.2
  exact ⟨hground, hkeys, hgreatest hR (.object 3) (.object 4) (Or.inl ⟨rfl, rfl⟩)⟩

/-- Every heap of a program is grounded, and in a grounded heap that is tidy equality is an
equivalence. -/
theorem equal_is_equivalence :
    (∀ w, Reachable w → w.heap.IsGrounded) ∧
    ∀ h : Heap, h.IsGrounded → h.IsTidy →
      Equivalence (fun a b => h.equal a b = true) ∧
      (∀ a b x y, h.content a = .float x → h.content b = .float y →
        (h.equal a b = true ↔ a = b ∨ Number.same x y = true)) ∧
      (∀ shape : CellId → Content, shape = .list ∨ shape = .vector → ∀ a b c d,
        h.content a = shape c → h.content b = shape d →
        (h.equal a b = true ↔
          List.Forall₂ (fun x y => h.equal x y = true) (h.items c) (h.items d))) ∧
      ∀ a b m n, h.content a = .map m → h.content b = .map n →
        (h.equal a b = true ↔ m.size = n.size ∧ ∀ entry ∈ m.toList, ∃ other ∈ n.toList,
          h.equal entry.1 other.1 = true ∧ h.equal entry.2 other.2 = true) := by
  refine ⟨fun w hw => hw.ready.sound.heap.isGrounded, fun h hground htidy => ?_⟩
  refine ⟨equivalence_equal hground htidy, fun a b x y ha hb => ?_, ?_, ?_⟩
  · exact equal_floats_iff ha hb
  · intro shape hshape a b c d ha hb
    exact equal_sequences_iff hground htidy hshape ha hb
  · intro a b m n ha hb
    exact equal_maps_iff hground htidy ha hb

/-- Two objects that are NaN, the two zeros and a vector of each, a list that holds itself and two
that hold one another, maps of these in two orders, and maps of these maps in two orders. -/
def twisted : Heap where
  objects := #[⟨.float (.ofBits 0x7FF8000000000001), none⟩,
    ⟨.float (.ofBits 0x7FF8000000000001), none⟩, ⟨.float (.ofBits 0), none⟩,
    ⟨.float (.ofBits 0x8000000000000000), none⟩, ⟨.vector 0, none⟩, ⟨.vector 1, none⟩,
    ⟨.list 2, none⟩, ⟨.list 3, none⟩, ⟨.list 4, none⟩,
    ⟨.map (.ofList [(.object 4, .object 6), (.object 0, .nil)]), none⟩,
    ⟨.map (.ofList [(.object 0, .nil), (.object 5, .object 7)]), none⟩,
    ⟨.map (.ofList [(.bool true, .object 9), (.nil, .object 2)]), none⟩,
    ⟨.map (.ofList [(.nil, .object 3), (.bool true, .object 10)]), none⟩]
  cells := #[.ofList [.object 2], .ofList [.object 3], .ofList [.object 6], .ofList [.object 8],
    .ofList [.object 7]]

/-- The lists that hold one another rank alike, and all else ranks above what it holds. -/
def twistedRank : Value → Nat
  | .object address => if 6 ≤ address ∧ address ≤ 8 then 9 else address + 1
  | _ => 0

theorem isGrounded_twisted : twisted.IsGrounded ∧ twisted.KeysApart := by
  have hencloses : ∀ a b, twisted.Encloses a b → twistedRank b < twistedRank a := by
    intro a b hab
    obtain ⟨address, hlt, rfl⟩ := exists_object_of_holds hab.holds
    have hdown : ∀ address < 13, ∀ v ∈ (twisted.content (.object address)).enclosed,
        twistedRank v < twistedRank (.object address) := by decide +kernel
    exact hdown address hlt b hab
  have hholds : ∀ a b, twisted.Holds a b → twistedRank b ≤ twistedRank a := by
    intro a b hab
    obtain ⟨address, hlt, rfl⟩ := exists_object_of_holds hab
    have hdown : ∀ address < 13, ∀ v ∈ twisted.held (.object address),
        twistedRank v ≤ twistedRank (.object address) := by decide +kernel
    exact hdown address hlt b hab
  refine ⟨fun a hloop => ?_, fun a m ha entry hentry hreach => ?_⟩
  · have hlt : ∀ b c, Relation.TransGen twisted.Encloses b c → twistedRank c < twistedRank b := by
      intro b c hbc
      induction hbc with
      | single hbc => exact hencloses _ _ hbc
      | tail _ hcd ih => exact (hencloses _ _ hcd).trans ih
    exact Nat.lt_irrefl _ (hlt a a hloop)
  · have hle : ∀ b c, Relation.ReflTransGen twisted.Holds b c → twistedRank c ≤ twistedRank b := by
      intro b c hbc
      induction hbc with
      | refl => exact Nat.le_refl _
      | tail _ hcd ih => exact (hholds _ _ hcd).trans ih
    have hkey := hencloses a entry.1 (encloses_entry ha hentry).1
    exact Nat.lt_irrefl _ (hkey.trans_le (hle _ _ hreach))

theorem keysDiffer_twisted {a : Value} {m : Entries} (ha : twisted.content a = .map m) :
    twisted.KeysDiffer m := by
  have hdiffer : ∀ address < 13, ∀ m ∈ (twisted.content (.object address)).entries?,
      twisted.KeysDiffer m := by decide +kernel
  have hhas : twisted.Has a := has_of_content_ne_nil (by rw [ha]; simp)
  cases a with
  | object address => exact hdiffer address hhas m (by rw [ha]; rfl)
  | _ => cases ha

/-- In this heap NaN is equal to itself and not to another NaN, the zeros are equal, the list that
holds itself is equal to either of those that hold one another, and the maps of maps are equal. -/
theorem equal_is_equivalence_twisted :
    twisted.IsGrounded ∧ twisted.IsTidy ∧
    twisted.equal (.object 0) (.object 0) = true ∧ twisted.equal (.object 0) (.object 1) = false ∧
    twisted.equal (.object 2) (.object 3) = true ∧ twisted.equal (.object 6) (.object 8) = true ∧
    twisted.equal (.object 12) (.object 11) = true := by
  have htidy : twisted.IsTidy := ⟨fun _ _ => keysDiffer_twisted, isGrounded_twisted.2⟩
  obtain ⟨hequiv, hfloats, hsequences, hmaps⟩ :=
    equal_is_equivalence.2 twisted isGrounded_twisted.1 htidy
  refine ⟨isGrounded_twisted.1, htidy, hequiv.refl _, ?_, ?_, ?_, ?_⟩
  · rw [Bool.eq_false_iff, Ne, hfloats _ _ _ _ rfl rfl]
    decide +kernel
  · exact (hfloats _ _ _ _ rfl rfl).mpr (Or.inr (by decide +kernel))
  · have hfirst : twisted.equal (.object 6) (.object 7) = true := by decide +kernel
    have hsecond : twisted.equal (.object 7) (.object 8) = true := by decide +kernel
    exact hequiv.trans hfirst hsecond
  · have hback : twisted.equal (.object 11) (.object 12) = true := by decide +kernel
    exact hequiv.symm hback

end Session

end Lisp
