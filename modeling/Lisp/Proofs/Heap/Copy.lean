import Lisp.Proofs.Heap.Loopless
import Lisp.Proofs.Heap.Tidiness

/-!
Equal copies. A list, vector or map that is made of equal copies of the parts of another one is an
equal copy of it. For a map the keys have to differ, as it is made by putting one entry after the
other.
-/
namespace Lisp.Heap

variable {h : Heap} {a b : Value}

/-- The second value is without cycles, and equal to the first whatever pairs are open. -/
structure IsCopy (h : Heap) (a b : Value) : Prop where
  loopless : h.IsLoopless b
  equalInside : ∀ opened, h.equalInside opened a b = true

theorem IsCopy.equal (hab : h.IsCopy a b) : h.equal a b = true := by
  rw [equal_eq]
  exact hab.equalInside {}

/-- Values without cycles that match by copies are copies. -/
theorem isCopy_of_matches (ha : h.IsLoopless a) (hb : h.IsLoopless b)
    (hab : h.Matches h.IsCopy a b) : h.IsCopy a b := by
  refine ⟨hb, fun opened => ?_⟩
  rw [ha.equalInside_eq_equalStep hb]
  refine (equalStep_iff fun x y => (h.equal_eq x y).symm).mpr (.inr ?_)
  exact matches_iff.mp (hab.mono fun x y hxy => hxy.equalInside _)

theorem exists_of_forall₂ {α β : Type} {R : α → β → Prop} {xs : List α} {ys : List β}
    (hxy : List.Forall₂ R xs ys) {x : α} (hx : x ∈ xs) : ∃ y ∈ ys, R x y := by
  induction hxy with
  | nil => cases hx
  | cons hxy _ ih =>
    rcases List.mem_cons.mp hx with rfl | hx
    · exact ⟨_, by simp, hxy⟩
    · obtain ⟨y, hy, hxy⟩ := ih hx
      exact ⟨y, by simp [hy], hxy⟩

theorem isCopy_self (ha : h.IsLoopless a) : h.IsCopy a a := isCopy_of_matches ha ha (.identical a)

theorem isCopy_sequence {c d : CellId} (ha : h.IsLoopless a)
    (hcontent : (h.content a = .list c ∧ h.content b = .list d) ∨
      (h.content a = .vector c ∧ h.content b = .vector d))
    (hitems : List.Forall₂ h.IsCopy (h.items c) (h.items d)) : h.IsCopy a b := by
  have hcell : (h.content b).cell? = some d := by
    rcases hcontent with ⟨-, hb⟩ | ⟨-, hb⟩ <;> rw [hb] <;> rfl
  have hb : h.IsLoopless b := by
    refine isLoopless_of_held fun y hy => ?_
    obtain ⟨x, -, hcopy⟩ := exists_of_forall₂ hitems.flip ((holds_iff_mem_items hcell).mp hy)
    exact hcopy.loopless
  refine isCopy_of_matches ha hb ?_
  rcases hcontent with ⟨hlist, hlist'⟩ | ⟨hvector, hvector'⟩
  · exact .lists hlist hlist' hitems
  · exact .vectors hvector hvector' hitems

/-- An entry with the same key and a copy of the value. -/
def IsEntryCopy (h : Heap) (entry other : Value × Value) : Prop :=
  other.1 = entry.1 ∧ h.IsCopy entry.2 other.2

theorem map_fst_eq {found made : List (Value × Value)}
    (hcopies : List.Forall₂ h.IsEntryCopy found made) :
    made.map Prod.fst = found.map Prod.fst := by
  induction hcopies with
  | nil => rfl
  | cons hentry _ ih => rw [List.map_cons, List.map_cons, hentry.1, ih]

theorem pairwise_of_forall₂ {g : Heap} {found made : List (Value × Value)}
    (hcopies : List.Forall₂ h.IsEntryCopy found made)
    (hdiffer : found.Pairwise fun entry later => g.equal entry.1 later.1 = false) :
    made.Pairwise fun entry later => g.equal entry.1 later.1 = false := by
  rw [← List.pairwise_map (f := Prod.fst) (R := fun key later => g.equal key later = false)]
    at hdiffer ⊢
  rwa [map_fst_eq hcopies]

theorem isCopy_map {m n : Entries} (ha : h.IsLoopless a) (hm : h.content a = .map m)
    (hn : h.content b = .map n) (hdiffer : h.KeysDiffer m)
    (hcopies : List.Forall₂ h.IsEntryCopy m.toList n.toList) : h.IsCopy a b := by
  have hdiffer' : h.KeysDiffer n := pairwise_of_forall₂ hcopies hdiffer
  have hb : h.IsLoopless b := by
    refine isLoopless_of_held fun y hy => ?_
    have hmem : y ∈ alternate n.toList := by
      simpa [Holds, held, hn, Content.enclosed] using hy
    obtain ⟨other, hother, hy⟩ := mem_alternate.mp hmem
    obtain ⟨entry, hentry, hkey, hvalue⟩ := exists_of_forall₂ hcopies.flip hother
    rcases hy with rfl | rfl
    · rw [hkey]
      exact ha.held (encloses_entry hm hentry).1.holds
    · exact hvalue.loopless
  have hsize : m.size = n.size := by
    rw [← Sequence.length_toList, ← Sequence.length_toList]
    exact hcopies.length_eq
  refine isCopy_of_matches ha hb (.maps hm hn hsize fun entry hentry => ?_)
  obtain ⟨other, hother, hkey, hvalue⟩ := exists_of_forall₂ hcopies hentry
  refine ⟨other, ?_, hvalue⟩
  rw [← hkey]
  exact hdiffer'.find?_toList hother

/-- Keys that differ are put one behind the other. -/
theorem toList_assoc (entries : Entries) {more : List (Value × Value)}
    (hdiffer :
      (entries.toList ++ more).Pairwise fun entry later => h.equal entry.1 later.1 = false) :
    (h.assoc entries (alternate more)).toList = entries.toList ++ more := by
  induction more generalizing entries with
  | nil => simp [assoc]
  | cons entry more ih =>
    obtain ⟨key, value⟩ := entry
    have hnone : (entries.toList.findIdx? fun entry => h.equal entry.1 key) = none :=
      List.findIdx?_eq_none_iff.mpr fun entry hentry =>
        (List.pairwise_append.mp hdiffer).2.2 entry hentry (key, value) (by simp)
    have hput : (h.put entries key value).toList = entries.toList ++ [(key, value)] := by
      rw [toList_put, hnone]
    rw [alternate_cons, assoc, ih, hput]
    · simp
    · rw [hput]
      simpa using hdiffer

theorem toList_entriesOf {found : List (Value × Value)}
    (hdiffer : found.Pairwise fun entry later => h.equal entry.1 later.1 = false) :
    (h.entriesOf (alternate found)).toList = found := by
  exact toList_assoc .empty hdiffer

section Congruence

variable {g : Heap} {K : Value → Prop} {entries : Entries} {key value : Value}

theorem forall_key_put (hentries : ∀ entry ∈ entries.toList, K entry.1) (hkey : K key) :
    ∀ entry ∈ (h.put entries key value).toList, K entry.1 := by
  rw [← List.forall_mem_map (f := Prod.fst)] at hentries ⊢
  rw [toList_put]
  split
  · rwa [map_fst_modify]
  · rw [List.map_append]
    exact List.forall_mem_append.mpr ⟨hentries, by simpa using hkey⟩

theorem findIdx?_congr_mem {α : Type} {p q : α → Bool} {xs : List α}
    (hpq : ∀ x ∈ xs, p x = q x) : xs.findIdx? p = xs.findIdx? q := by
  induction xs with
  | nil => rfl
  | cons x xs ih =>
    rw [List.findIdx?_cons, List.findIdx?_cons, hpq x List.mem_cons_self,
      ih fun y hy => hpq y (List.mem_cons_of_mem x hy)]

/-- What a map becomes depends on nothing but which keys are equal. -/
theorem put_congr (hequal : ∀ k l, K k → K l → g.equal k l = h.equal k l)
    (hentries : ∀ entry ∈ entries.toList, K entry.1) (hkey : K key) :
    g.put entries key value = h.put entries key value := by
  have hindex : (entries.findIndex? fun entry => g.equal entry.1 key) =
      entries.findIndex? fun entry => h.equal entry.1 key := by
    rw [← Sequence.findIdx?_toList, ← Sequence.findIdx?_toList]
    exact findIdx?_congr_mem fun entry hentry => hequal _ _ (hentries entry hentry) hkey
  unfold put
  rw [hindex]

theorem assoc_congr (hequal : ∀ k l, K k → K l → g.equal k l = h.equal k l)
    (hentries : ∀ entry ∈ entries.toList, K entry.1) {made : List (Value × Value)}
    (hmade : ∀ entry ∈ made, K entry.1) :
    g.assoc entries (alternate made) = h.assoc entries (alternate made) := by
  induction made generalizing entries with
  | nil => rfl
  | cons entry made ih =>
    obtain ⟨hkey, hmade⟩ := List.forall_mem_cons.mp hmade
    rw [alternate_cons, assoc, assoc, put_congr hequal hentries hkey]
    exact ih (forall_key_put hentries hkey) hmade

theorem entriesOf_congr (hequal : ∀ k l, K k → K l → g.equal k l = h.equal k l)
    {made : List (Value × Value)} (hmade : ∀ entry ∈ made, K entry.1) :
    g.entriesOf (alternate made) = h.entriesOf (alternate made) :=
  assoc_congr hequal (List.forall_mem_nil _) hmade

end Congruence

/-- Keys without cycles go on to differ while nothing inside them changes. -/
theorem KeysDiffer.of_isLoopless {g : Heap} {S : Value → Prop} {entries : Entries}
    (hdiffer : g.KeysDiffer entries) (hagree : AgreesOn S g h) (hS : g.Hereditary S)
    (hsize : g.NotSmaller h)
    (hkeys : ∀ entry ∈ entries.toList, S entry.1 ∧ g.IsLoopless entry.1) :
    h.KeysDiffer entries := by
  refine List.Pairwise.imp_of_mem (fun {entry later} hentry hlater hne => ?_) hdiffer
  obtain ⟨hin, hloopless⟩ := hkeys entry hentry
  obtain ⟨hin', hloopless'⟩ := hkeys later hlater
  rw [hagree.equal_of_isLoopless hsize hS hin hin' hloopless hloopless']
  exact hne

end Lisp.Heap
