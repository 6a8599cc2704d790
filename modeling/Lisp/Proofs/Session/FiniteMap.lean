import Lisp.Proofs.Session.Equality
import Lisp.Proofs.Session.Keys

/-!
Hash maps as finite maps that remember the order in which their keys came. Where equality is an
equivalence, putting an entry changes what is found under the keys equal to its own and under no
other; a key that is there stays the object it is, in its place, and a new one comes last.
-/
namespace Lisp

namespace Heap

variable {h : Heap} {m : Entries}

theorem get?_eq (h : Heap) (m : Entries) (key : Value) :
    h.get? m key = (m.toList.find? fun entry => h.equal entry.1 key).map (·.2) := by
  rw [get?, entry?, Sequence.find?_toList]

theorem keysDiffer_iff :
    h.KeysDiffer m ↔
      (m.toList.map (·.1)).Pairwise fun key later => h.equal key later = false := by
  rw [List.pairwise_map]
  exact Iff.rfl

/-- A key that is there keeps its place, and one that is not comes last. -/
theorem keys_put (h : Heap) (m : Entries) (key value : Value) :
    (h.put m key value).toList.map (·.1) =
      if m.toList.any fun entry => h.equal entry.1 key then m.toList.map (·.1)
      else m.toList.map (·.1) ++ [key] := by
  rw [toList_put]
  cases hfind : m.toList.findIdx? fun entry => h.equal entry.1 key with
  | none =>
    have hnone : (m.toList.any fun entry => h.equal entry.1 key) = false := by
      rw [List.any_eq_false]
      intro entry hentry
      simpa using List.findIdx?_eq_none_iff.mp hfind entry hentry
    simp [hnone]
  | some i =>
    have hsome : (m.toList.any fun entry => h.equal entry.1 key) = true := by
      rw [← List.findIdx?_isSome, hfind]
      rfl
    rw [if_pos hsome]
    exact map_fst_modify m.toList i value

theorem KeysDiffer.put (hdiffer : h.KeysDiffer m) (key value : Value) :
    h.KeysDiffer (h.put m key value) := by
  rw [keysDiffer_iff] at hdiffer ⊢
  rw [keys_put]
  cases hknown : m.toList.any fun entry => h.equal entry.1 key with
  | true => exact hdiffer
  | false =>
    refine List.pairwise_append.mpr ⟨hdiffer, List.pairwise_singleton .., ?_⟩
    intro known hmem key' hkey'
    obtain ⟨entry, hentry, rfl⟩ := List.mem_map.mp hmem
    obtain rfl := List.mem_singleton.mp hkey'
    exact Bool.eq_false_iff.mpr (List.any_eq_false.mp hknown entry hentry)

theorem KeysDiffer.assoc (hdiffer : h.KeysDiffer m) (kvs : List Value) :
    h.KeysDiffer (h.assoc m kvs) := by
  fun_induction Heap.assoc h m kvs with
  | case1 m key value more ih => exact ih (hdiffer.put key value)
  | case2 => exact hdiffer

theorem KeysDiffer.dissoc (hdiffer : h.KeysDiffer m) (ks : List Value) :
    h.KeysDiffer (h.dissoc m ks) := by
  unfold KeysDiffer at hdiffer ⊢
  rw [toList_dissoc]
  exact hdiffer.sublist List.filter_sublist

theorem pairs_eq_nil {α : Type} {xs : List α} (hshort : ∀ x y rest, xs = x :: y :: rest → False) :
    pairs xs = [] := by
  unfold pairs
  split
  · exact (hshort _ _ _ rfl).elim
  · rfl

/-- The keys of a map come first, in their order, and then the keys that are new to it, each where
it first appears. -/
theorem keys_assoc (h : Heap) (m : Entries) (kvs : List Value) :
    (h.assoc m kvs).toList.map (·.1) = m.toList.map (·.1) ++
      (((pairs kvs).map (·.1)).filter fun key =>
        !m.toList.any fun entry => h.equal entry.1 key).eraseDupsBy
          fun later key => h.equal key later := by
  fun_induction Heap.assoc h m kvs with
  | case1 m key value more ih =>
    have hkeys : ∀ k, ((h.put m key value).toList.any fun entry => h.equal entry.1 k) =
        ((h.put m key value).toList.map (·.1)).any fun known => h.equal known k := by
      intro k
      rw [List.any_map]
      rfl
    rw [ih, pairs, List.map_cons, List.filter_cons]
    cases hknown : m.toList.any fun entry => h.equal entry.1 key with
    | true =>
      simp only [hkeys, keys_put, hknown, if_true, Bool.not_true, Bool.false_eq_true, if_false,
        List.any_map, Function.comp_def]
    | false =>
      simp only [hkeys, keys_put, hknown, Bool.false_eq_true, if_false, Bool.not_false, if_true,
        List.eraseDupsBy_cons, List.append_assoc, List.singleton_append, List.any_append,
        List.any_map, List.any_cons, List.any_nil, Bool.or_false, Function.comp_def,
        List.filter_filter, Bool.not_or, Bool.decide_eq_false, Bool.and_comm]
  | case2 m kvs hshort => simp [pairs_eq_nil hshort]

section Equivalence

variable (hground : h.IsGrounded) (htidy : h.IsTidy)
include hground htidy

/-- Putting an entry changes what is found under the keys equal to its own. -/
theorem get?_put (m : Entries) (key value k : Value) :
    h.get? (h.put m key value) k = if h.equal key k then some value else h.get? m k := by
  rw [get?_eq, get?_eq, toList_put]
  generalize m.toList = entries
  induction entries with
  | nil => cases hk : h.equal key k <;> simp [hk]
  | cons entry rest ih =>
    rw [List.findIdx?_cons]
    cases hkey : h.equal entry.1 key with
    | true =>
      -- The entry under the key is the first one, and its key stands in for the new one.
      have hk : h.equal entry.1 k = h.equal key k := equal_congr hground htidy hkey
      cases hkk : h.equal key k <;> simp [hk, hkk]
    | false =>
      -- The first entry stays, and is not found under a key equal to the new one.
      cases hk : h.equal entry.1 k with
      | true =>
        have hne : h.equal key k = false := by
          rw [Bool.eq_false_iff]
          intro hkk
          rw [equal_comm hground htidy] at hkk
          rw [equal_trans hground htidy hk hkk] at hkey
          cases hkey
        cases rest.findIdx? fun entry => h.equal entry.1 key <;> simp [hk, hne]
      | false =>
        cases hrest : rest.findIdx? fun entry => h.equal entry.1 key <;>
          simpa [hrest, hk] using ih

/-- The last entry put under a key is the one that is found. -/
theorem get?_assoc (m : Entries) (kvs : List Value) (k : Value) :
    h.get? (h.assoc m kvs) k =
      (((pairs kvs).filter fun pair => h.equal pair.1 k).getLast?.map (·.2)).or (h.get? m k) := by
  fun_induction Heap.assoc h m kvs with
  | case1 m key value more ih =>
    rw [ih, get?_put hground htidy, pairs, List.filter_cons]
    cases h.equal key k with
    | true =>
      simp only [if_true, List.getLast?_cons]
      cases ((pairs more).filter fun pair => h.equal pair.1 k).getLast? <;> rfl
    | false => rfl
  | case2 m kvs hshort => simp [pairs_eq_nil hshort]

theorem get?_dissoc (m : Entries) (ks : List Value) (k : Value) :
    h.get? (h.dissoc m ks) k = if ks.any fun key => h.equal key k then none else h.get? m k := by
  have hlike : ∀ entry : Value × Value, h.equal entry.1 k = true →
      (ks.any fun key => h.equal entry.1 key) = ks.any fun key => h.equal key k := by
    intro entry hk
    congr 1
    funext key
    rw [equal_congr hground htidy hk, equal_comm hground htidy]
  rw [get?_eq, get?_eq, toList_dissoc, List.find?_filter]
  cases hany : ks.any fun key => h.equal key k with
  | true =>
    rw [if_pos rfl, Option.map_eq_none_iff, List.find?_eq_none]
    intro entry _ hboth
    simp only [decide_eq_true_eq] at hboth
    rw [hlike entry hboth.2, hany] at hboth
    cases hboth.1
  | false =>
    rw [if_neg (by simp)]
    congr 2
    funext entry
    cases hk : h.equal entry.1 k with
    | true => rw [hlike entry hk, hany]; rfl
    | false => simp

end Equivalence

/-- Entries whose keys are all new are put behind the entries that are there. -/
theorem toList_assoc_alternate {entries : List (Value × Value)}
    (hdiffer : (m.toList ++ entries).Pairwise fun entry later => h.equal entry.1 later.1 = false) :
    (h.assoc m (alternate entries)).toList = m.toList ++ entries := by
  induction entries generalizing m with
  | nil => simp [assoc]
  | cons entry rest ih =>
    obtain ⟨key, value⟩ := entry
    have hnew : (m.toList.findIdx? fun entry => h.equal entry.1 key) = none := by
      rw [List.findIdx?_eq_none_iff]
      intro entry hentry
      exact (List.pairwise_append.mp hdiffer).2.2 entry hentry (key, value) List.mem_cons_self
    have hput : (h.put m key value).toList = m.toList ++ [(key, value)] := by
      rw [toList_put, hnew]
    rw [alternate_cons, assoc, ih]
    · rw [hput, List.append_assoc, List.singleton_append]
    · rwa [hput, List.append_assoc, List.singleton_append]

end Heap

namespace Session

open Heap

/-- The state after a map of these entries is made. -/
def withMap (w : World) (m : Entries) : World := { w with heap := (w.heap.make (.map m)).2 }

/-- In a grounded and tidy heap, a map whose keys differ is a finite map in the order in which its
keys came, and `assoc` and `dissoc` keep it one. -/
theorem maps_are_ordered_finite_maps :
    (∀ w, Reachable w → w.heap.IsGrounded) ∧
    ∀ w : World, w.heap.IsGrounded → w.heap.IsTidy →
      (∀ m, w.heap.KeysDiffer m →
        (∀ kvs k, w.heap.get? (w.heap.assoc m kvs) k =
          (((pairs kvs).filter fun pair => w.heap.equal pair.1 k).getLast?.map (·.2)).or
            (w.heap.get? m k)) ∧
        (∀ ks k, w.heap.get? (w.heap.dissoc m ks) k =
          if ks.any fun key => w.heap.equal key k then none else w.heap.get? m k) ∧
        (∀ kvs, w.heap.KeysDiffer (w.heap.assoc m kvs) ∧
          (w.heap.assoc m kvs).toList.map (·.1) = m.toList.map (·.1) ++
            (((pairs kvs).map (·.1)).filter fun key =>
              !m.toList.any fun entry => w.heap.equal entry.1 key).eraseDupsBy
                fun later key => w.heap.equal key later) ∧
        (∀ ks, w.heap.KeysDiffer (w.heap.dissoc m ks) ∧
          (w.heap.dissoc m ks).toList = m.toList.filter fun entry =>
            !ks.any fun key => w.heap.equal entry.1 key) ∧
        (w.heap.entriesOf (alternate m.toList)).toList = m.toList) ∧
      ∀ v m, w.heap.content v = .map m →
        w.heap.KeysDiffer m ∧
        (∀ kvs, kvs.length % 2 = 0 → Operation.assoc.call (v :: kvs) w =
          .ok (.object w.heap.objects.size) (withMap w (w.heap.assoc m kvs))) ∧
        (∀ ks, Operation.dissoc.call (v :: ks) w =
          .ok (.object w.heap.objects.size) (withMap w (w.heap.dissoc m ks))) ∧
        (∀ n, (withMap w n).heap.content (.object w.heap.objects.size) = .map n ∧
          ∀ u, w.heap.Has u → (withMap w n).heap.object u = w.heap.object u) ∧
        Operation.hashMap.call (alternate m.toList) w =
          .ok (.object w.heap.objects.size) (withMap w (w.heap.entriesOf (alternate m.toList))) ∧
        Operation.keys.answer w.host w.heap [v] =
          .ok (.makeList (.ofList (m.toList.map (·.1)))) ∧
        Operation.vals.answer w.host w.heap [v] =
          .ok (.makeList (.ofList (m.toList.map (·.2)))) := by
  refine ⟨fun w hw => hw.ready.sound.heap.isGrounded, fun w hground htidy => ⟨?_, ?_⟩⟩
  · intro m hdiffer
    refine ⟨get?_assoc hground htidy m, get?_dissoc hground htidy m, fun kvs => ?_, fun ks => ?_,
      ?_⟩
    · exact ⟨hdiffer.assoc kvs, keys_assoc w.heap m kvs⟩
    · exact ⟨hdiffer.dissoc ks, toList_dissoc w.heap m ks⟩
    · exact toList_assoc_alternate (m := .empty) hdiffer
  · intro v m hv
    refine ⟨htidy.differ v m hv, fun kvs heven => ?_, fun ks => ?_, fun n => ⟨?_, ?_⟩, ?_, ?_, ?_⟩
    · simp only [Operation.call, Operation.answer, Answer.variadic_eq, Collection.assoc, heven,
        Collection.entries, hv]
      rfl
    · simp only [Operation.call, Operation.answer, Answer.variadic_eq, Collection.dissoc,
        Collection.entries, hv]
      rfl
    · simp [withMap, make, content_alloc]
    · intro u hu
      exact (object_alloc w.heap _ u).trans (if_neg (ne_of_has hu))
    · have heven : (alternate m.toList).length % 2 = 0 := by
        rw [length_alternate]
        omega
      simp only [Operation.call, Operation.answer, heven]
      rfl
    · simp only [Operation.answer, Answer.unary_eq, Collection.keys, Collection.entries, hv]
      rfl
    · simp only [Operation.answer, Answer.unary_eq, Collection.vals, Collection.entries, hv]
      rfl

/-- The map of the vector of zero and of NaN in the heap `twisted`. The vector of the other zero is
put twice, and then another NaN: the first key keeps its place and its object, with the last value,
and the last key, which has no value, is left out. -/
theorem maps_are_ordered_finite_maps_twisted :
    let m : Entries := .ofList [(.object 4, .object 6), (.object 0, .nil)]
    let kvs : List Value := [.object 5, .nil, .object 1, .bool true, .object 5, .bool false, .nil]
    twisted.IsGrounded ∧ twisted.IsTidy ∧ twisted.KeysDiffer m ∧
    twisted.get? (twisted.assoc m kvs) (.object 4) = some (.bool false) ∧
    (twisted.assoc m kvs).toList.map (·.1) = [.object 4, .object 0, .object 1] ∧
    twisted.get? (twisted.dissoc m [.object 5]) (.object 4) = none ∧
    Operation.keys.answer {} twisted [.object 9] =
      .ok (.makeList (.ofList [.object 4, .object 0])) := by
  intro m kvs
  have htidy : twisted.IsTidy := ⟨fun _ _ => keysDiffer_twisted, isGrounded_twisted.2⟩
  obtain ⟨hall, hmaps⟩ :=
    maps_are_ordered_finite_maps.2 { heap := twisted } isGrounded_twisted.1 htidy
  have hm : twisted.content (.object 9) = .map m := rfl
  obtain ⟨hdiffer, _, _, _, _, hkeys, _⟩ := hmaps _ _ hm
  obtain ⟨hassoc, hdissoc, hput, _⟩ := hall m hdiffer
  refine ⟨isGrounded_twisted.1, htidy, hdiffer, (hassoc kvs _).trans ?_, (hput kvs).2.trans ?_,
    (hdissoc _ _).trans ?_, hkeys⟩
  all_goals decide +kernel

end Session

end Lisp
