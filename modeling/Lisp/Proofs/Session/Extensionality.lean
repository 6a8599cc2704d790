import Lisp.Proofs.Session.FiniteMap

/-!
Maps are equal when the same is found in them. The comparison of two maps looks at their sizes and
at the keys of the first; that the second has no further key is a matter of counting. If all keys of
the first are found in the second, and one more besides, then the second is larger.
-/
namespace Lisp

namespace Heap

variable {h : Heap} {m o : Entries}

theorem equalEntries_eq_true_iff :
    h.equalEntries m o = true ↔ m.size = o.size ∧ ∀ entry ∈ m.toList, ∃ value,
      h.get? o entry.1 = some value ∧ h.equal entry.2 value = true := by
  simp only [equalEntries, Bool.and_eq_true, beq_iff_eq, ← Sequence.all_toList, List.all_eq_true]
  refine and_congr_right fun _ => forall₂_congr fun entry _ => ?_
  cases h.get? o entry.1 <;> simp

theorem exists_of_rel_some {α : Type} {r : α → α → Prop} {u : α} {y : Option α}
    (hrel : Option.Rel r (some u) y) : ∃ v, y = some v ∧ r u v := by
  cases hrel with
  | some huv => exact ⟨_, rfl, huv⟩

theorem isSome_eq_of_rel {α : Type} {r : α → α → Prop} {x y : Option α}
    (hrel : Option.Rel r x y) : x.isSome = y.isSome := by
  cases hrel <;> rfl

section Equivalence

variable (hground : h.IsGrounded) (htidy : h.IsTidy)
include hground htidy

/-- Where keys differ, each entry is the one that is found under its key. -/
theorem get?_eq_some_iff (hdiffer : h.KeysDiffer m) {k value : Value} :
    h.get? m k = some value ↔ ∃ key, (key, value) ∈ m.toList ∧ h.equal key k = true := by
  rw [get?_eq, Option.map_eq_some_iff]
  constructor
  · rintro ⟨⟨key, _⟩, hfind, rfl⟩
    exact ⟨key, List.mem_of_find?_eq_some hfind, by simpa using List.find?_some hfind⟩
  · rintro ⟨key, hmem, hkey⟩
    cases hfind : m.toList.find? fun entry => h.equal entry.1 k with
    | none => exact absurd hkey (by simpa using List.find?_eq_none.mp hfind _ hmem)
    | some other =>
      have hother : h.equal other.1 k = true := by simpa using List.find?_some hfind
      have hlike : h.equal other.1 key = true := by
        rwa [equal_comm hground htidy, equal_congr hground htidy hkey, equal_comm hground htidy]
      have hback : h.equal key other.1 = true := by rwa [equal_comm hground htidy]
      have heq := hdiffer.eq (List.mem_of_find?_eq_some hfind) hmem hlike hback
      exact ⟨other, rfl, by rw [heq]⟩

theorem get?_of_mem (hdiffer : h.KeysDiffer m) {entry : Value × Value}
    (hentry : entry ∈ m.toList) : h.get? m entry.1 = some entry.2 :=
  (get?_eq_some_iff hground htidy hdiffer).mpr ⟨entry.1, hentry, h.equal_refl _⟩

/-- A map in which all keys of another are found is no smaller. -/
theorem size_le_of_found (hm : h.KeysDiffer m)
    (hfound : ∀ entry ∈ m.toList, (h.get? o entry.1).isSome) : m.size ≤ o.size := by
  let like (entry : Value × Value) : Value × Value :=
    (o.toList.find? fun other => h.equal other.1 entry.1).getD entry
  have hlike : ∀ entry ∈ m.toList,
      like entry ∈ o.toList ∧ h.equal (like entry).1 entry.1 = true := by
    intro entry hentry
    have hsome := hfound entry hentry
    rw [get?_eq, Option.isSome_map] at hsome
    obtain ⟨other, hfind⟩ := Option.isSome_iff_exists.mp hsome
    have heq : like entry = other := by simp only [like, hfind, Option.getD_some]
    rw [heq]
    exact ⟨List.mem_of_find?_eq_some hfind, by simpa using List.find?_some hfind⟩
  have hinj : ∀ entry ∈ m.toList, ∀ entry' ∈ m.toList, like entry = like entry' →
      entry = entry' := by
    intro entry hentry entry' hentry' heq
    have hto := (hlike entry hentry).2
    rw [heq, equal_congr hground htidy (hlike entry' hentry').2] at hto
    exact hm.eq hentry hentry' (by rwa [equal_comm hground htidy]) hto
  have hsubset : m.toList.map like ⊆ o.toList := by
    intro other hother
    obtain ⟨entry, hentry, rfl⟩ := List.mem_map.mp hother
    exact (hlike entry hentry).1
  have hle := (List.subperm_of_subset (hm.nodup.map_on hinj) hsubset).length_le
  simpa using hle

/-- No key is found in the second map only, or the second would be larger. -/
theorem isSome_get?_of_size_eq (hm : h.KeysDiffer m) (hsize : m.size = o.size)
    (hfound : ∀ entry ∈ m.toList, (h.get? o entry.1).isSome) {k : Value}
    (hk : (h.get? o k).isSome) : (h.get? m k).isSome := by
  by_contra hnone
  have hnew : (m.toList.findIdx? fun entry => h.equal entry.1 k) = none := by
    rw [get?_eq, Option.isSome_map, List.find?_isSome] at hnone
    rw [List.findIdx?_eq_none_iff]
    intro entry hentry
    exact Bool.eq_false_iff.mpr fun hkey => hnone ⟨entry, hentry, hkey⟩
  have hput : (h.put m k .nil).toList = m.toList ++ [(k, .nil)] := by
    rw [toList_put, hnew]
  have hle : (h.put m k .nil).size ≤ o.size := by
    refine size_le_of_found hground htidy (hm.put k .nil) fun entry hentry => ?_
    rw [hput, List.mem_append, List.mem_singleton] at hentry
    rcases hentry with hentry | rfl
    · exact hfound entry hentry
    · exact hk
  have hlength : (h.put m k .nil).size = m.size + 1 := by
    rw [← Sequence.length_toList, hput, List.length_append, Sequence.length_toList]
    rfl
  omega

/-- Two maps are equal when under every key the same is found in both, or nothing in either. -/
theorem equalEntries_iff (hm : h.KeysDiffer m) (ho : h.KeysDiffer o) :
    h.equalEntries m o = true ↔
      ∀ k, Option.Rel (fun u v => h.equal u v = true) (h.get? m k) (h.get? o k) := by
  rw [equalEntries_eq_true_iff]
  constructor
  · rintro ⟨hsize, hentries⟩ k
    have hfound : ∀ entry ∈ m.toList, (h.get? o entry.1).isSome := by
      intro entry hentry
      obtain ⟨value, hvalue, _⟩ := hentries entry hentry
      simp [hvalue]
    cases hmk : h.get? m k with
    | some u =>
      obtain ⟨key, hmem, hkey⟩ := (get?_eq_some_iff hground htidy hm).mp hmk
      obtain ⟨v, hv, huv⟩ := hentries _ hmem
      obtain ⟨key', hmem', hkey'⟩ := (get?_eq_some_iff hground htidy ho).mp hv
      have hok : h.get? o k = some v :=
        (get?_eq_some_iff hground htidy ho).mpr
          ⟨key', hmem', equal_trans hground htidy hkey' hkey⟩
      rw [hok]
      exact .some huv
    | none =>
      have hok : h.get? o k = none := by
        by_contra hne
        have hsome := isSome_get?_of_size_eq hground htidy hm hsize hfound
          (Option.isSome_iff_ne_none.mpr hne)
        rw [hmk] at hsome
        cases hsome
      rw [hok]
      exact .none
  · intro hrel
    have hmo : ∀ entry ∈ m.toList, ∃ value,
        h.get? o entry.1 = some value ∧ h.equal entry.2 value = true := by
      intro entry hentry
      have hboth := hrel entry.1
      rw [get?_of_mem hground htidy hm hentry] at hboth
      exact exists_of_rel_some hboth
    refine ⟨Nat.le_antisymm ?_ ?_, hmo⟩
    · refine size_le_of_found hground htidy hm fun entry hentry => ?_
      rw [← isSome_eq_of_rel (hrel entry.1), get?_of_mem hground htidy hm hentry]
      rfl
    · refine size_le_of_found hground htidy ho fun entry hentry => ?_
      rw [isSome_eq_of_rel (hrel entry.1), get?_of_mem hground htidy ho hentry]
      rfl

/-- Map objects are compared by their entries. -/
theorem equal_eq_equalEntries {a b : Value} (ha : h.content a = .map m)
    (hb : h.content b = .map o) : h.equal a b = h.equalEntries m o := by
  rw [Bool.eq_iff_iff, equal_maps_iff hground htidy ha hb, equalEntries_eq_true_iff]
  refine and_congr_right fun _ => forall₂_congr fun entry _ => ?_
  simp only [get?_eq_some_iff hground htidy (htidy.differ b o hb), Prod.exists]
  constructor
  · rintro ⟨key, value, hmem, hkey, hvalue⟩
    exact ⟨value, ⟨key, hmem, by rwa [equal_comm hground htidy]⟩, hvalue⟩
  · rintro ⟨value, ⟨key, hmem, hkey⟩, hvalue⟩
    exact ⟨key, value, hmem, by rwa [equal_comm hground htidy], hvalue⟩

/-- The order in which entries are put does not count. -/
theorem equalEntries_of_perm {entries entries' : List (Value × Value)}
    (hperm : entries.Perm entries')
    (hdiffer : entries.Pairwise fun entry later => h.equal entry.1 later.1 = false) :
    h.equalEntries (h.entriesOf (alternate entries)) (h.entriesOf (alternate entries')) = true := by
  have hdiffer' : entries'.Pairwise fun entry later => h.equal entry.1 later.1 = false := by
    refine (hperm.pairwise_iff ?_).mp hdiffer
    intro entry later hne
    rwa [equal_comm hground htidy]
  have hlist : (h.entriesOf (alternate entries)).toList = entries :=
    toList_assoc_alternate (m := .empty) hdiffer
  have hlist' : (h.entriesOf (alternate entries')).toList = entries' :=
    toList_assoc_alternate (m := .empty) hdiffer'
  have hkeys : h.KeysDiffer (h.entriesOf (alternate entries)) := by rwa [KeysDiffer, hlist]
  have hkeys' : h.KeysDiffer (h.entriesOf (alternate entries')) := by rwa [KeysDiffer, hlist']
  have hget : ∀ k, h.get? (h.entriesOf (alternate entries)) k =
      h.get? (h.entriesOf (alternate entries')) k := by
    intro k
    ext value
    rw [get?_eq_some_iff hground htidy hkeys, get?_eq_some_iff hground htidy hkeys', hlist, hlist']
    simp only [hperm.mem_iff]
  rw [equalEntries_iff hground htidy hkeys hkeys']
  intro k
  rw [hget k]
  cases h.get? (h.entriesOf (alternate entries')) k with
  | none => exact .none
  | some value => exact .some (h.equal_refl value)

end Equivalence

end Heap

namespace Session

open Heap

/-- In a grounded and tidy heap, two maps whose keys differ are equal just when under every key
nothing is found in either or equal values in both. -/
theorem map_equality_is_extensional :
    (∀ w, Reachable w → w.heap.IsGrounded) ∧
    ∀ h : Heap, h.IsGrounded → h.IsTidy →
      (∀ a b m o, h.content a = .map m → h.content b = .map o →
        h.KeysDiffer m ∧ h.KeysDiffer o ∧ h.equal a b = h.equalEntries m o) ∧
      (∀ m o, h.KeysDiffer m → h.KeysDiffer o →
        (h.equalEntries m o = true ↔
          ∀ k, Option.Rel (fun u v => h.equal u v = true) (h.get? m k) (h.get? o k))) ∧
      ∀ entries entries' : List (Value × Value), entries.Perm entries' →
        (entries.Pairwise fun entry later => h.equal entry.1 later.1 = false) →
        h.equalEntries (h.entriesOf (alternate entries)) (h.entriesOf (alternate entries')) =
          true := by
  refine ⟨fun w hw => hw.ready.sound.heap.isGrounded, fun h hground htidy => ⟨?_, ?_, ?_⟩⟩
  · intro a b m o ha hb
    exact ⟨htidy.differ a m ha, htidy.differ b o hb, equal_eq_equalEntries hground htidy ha hb⟩
  · intro m o hm ho
    exact equalEntries_iff hground htidy hm ho
  · intro entries entries' hperm hdiffer
    exact equalEntries_of_perm hground htidy hperm hdiffer

/-- In the heap `twisted`, the two maps of the vectors of a zero and of NaN, which are written in
two orders and have lists that hold themselves as values. -/
theorem map_equality_is_extensional_twisted :
    let m : Entries := .ofList [(.object 4, .object 6), (.object 0, .nil)]
    let o : Entries := .ofList [(.object 0, .nil), (.object 5, .object 7)]
    twisted.IsGrounded ∧ twisted.IsTidy ∧ twisted.KeysDiffer m ∧ twisted.KeysDiffer o ∧
    twisted.equal (.object 9) (.object 10) = true ∧
    (∀ k, Option.Rel (fun u v => twisted.equal u v = true) (twisted.get? m k)
      (twisted.get? o k)) ∧
    twisted.equalEntries (twisted.entriesOf [.object 4, .object 6, .object 0, .nil])
      (twisted.entriesOf [.object 0, .nil, .object 4, .object 6]) = true := by
  intro m o
  have htidy : twisted.IsTidy := ⟨fun _ _ => keysDiffer_twisted, isGrounded_twisted.2⟩
  obtain ⟨hmaps, hext, hperm⟩ :=
    map_equality_is_extensional.2 twisted isGrounded_twisted.1 htidy
  obtain ⟨hm, ho, hequal⟩ := hmaps (.object 9) (.object 10) m o rfl rfl
  have htrue : twisted.equal (.object 9) (.object 10) = true := by decide +kernel
  refine ⟨isGrounded_twisted.1, htidy, hm, ho, htrue, ?_, ?_⟩
  · exact (hext m o hm ho).mp (hequal ▸ htrue)
  · exact hperm [(.object 4, .object 6), (.object 0, .nil)]
      [(.object 0, .nil), (.object 4, .object 6)] (List.Perm.swap ..) (by decide +kernel)

end Session

end Lisp
