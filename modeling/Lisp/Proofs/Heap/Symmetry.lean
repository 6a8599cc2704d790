import Lisp.Proofs.Heap.Agreement
import Lisp.Proofs.Heap.Bisimulation
import Mathlib.Data.List.Perm.Subperm

/-!
Equality is an equivalence where the keys of each map differ. Two maps of one size are compared from
one side only: each entry of the first must have its like in the second. When no two keys of a map
are equal, no two entries have the same like, so every entry of the second is met as well. Keys
reach less than their maps, which carries the induction.
-/
namespace Lisp

theorem Number.same_symm {x y : Float} (h : Number.same x y) : Number.same y x := by
  simp only [Number.same, Bool.and_eq_true, decide_eq_true_eq, beq_iff_eq, Bool.or_eq_true] at h ⊢
  obtain ⟨⟨⟨hx, hy⟩, hmagnitude⟩, hsign⟩ := h
  exact ⟨⟨⟨hy, hx⟩, hmagnitude.symm⟩, hsign.imp hmagnitude.symm.trans Eq.symm⟩

theorem Number.same_trans {x y z : Float} (hxy : Number.same x y) (hyz : Number.same y z) :
    Number.same x z := by
  simp only [Number.same, Bool.and_eq_true, decide_eq_true_eq, beq_iff_eq, Bool.or_eq_true]
    at hxy hyz ⊢
  obtain ⟨⟨⟨hx, _⟩, hmagnitude⟩, hsign⟩ := hxy
  obtain ⟨⟨⟨_, hz⟩, hmagnitude'⟩, hsign'⟩ := hyz
  refine ⟨⟨⟨hx, hz⟩, hmagnitude.trans hmagnitude'⟩, ?_⟩
  rcases hsign with hzero | hsign
  · exact Or.inl hzero
  · exact hsign'.imp hmagnitude.trans hsign.trans

namespace Content

theorem SameLeaf.symm {c d : Content} (h : c.SameLeaf d) : d.SameLeaf c := by
  cases h with
  | float hsame => exact .float (Number.same_symm hsame)
  | string heq => exact .string heq.symm
  | _ => constructor

theorem SameLeaf.trans {c d e : Content} (hcd : c.SameLeaf d) (hde : d.SameLeaf e) :
    c.SameLeaf e := by
  cases hcd with
  | float hsame =>
    cases hde with
    | float hsame' => exact .float (Number.same_trans hsame hsame')
  | string heq =>
    cases hde with
    | string heq' => exact .string (heq.trans heq')
  | _ => exact hde

/-- Nothing with parts is a leaf. -/
theorem SameLeaf.no_parts {c d : Content} (h : c.SameLeaf d) :
    d.cell? = none ∧ (∀ entries, d ≠ .map entries) ∧ ∀ payload, d ≠ .error payload := by
  cases h <;> simp [cell?]

end Content

namespace Heap

/-- No two keys are equal. -/
def KeysDiffer (h : Heap) (entries : Entries) : Prop :=
  entries.toList.Pairwise fun entry later => h.equal entry.1 later.1 = false

instance (h : Heap) (entries : Entries) : Decidable (h.KeysDiffer entries) :=
  inferInstanceAs (Decidable (List.Pairwise _ _))

/-- The keys of each map differ, and no map is reached from one of its own. -/
structure IsTidy (h : Heap) : Prop where
  differ : ∀ v entries, h.content v = .map entries → h.KeysDiffer entries
  apart : h.KeysApart

theorem equal_refl (h : Heap) (a : Value) : h.equal a a = true := by
  simp [equal, comparison]

/-- One-to-one into a list that is no longer is onto. -/
theorem exists_of_injective {α : Type} {xs ys : List α} {f : α → α} (hxs : xs.Nodup)
    (hmem : ∀ x ∈ xs, f x ∈ ys) (hinj : ∀ x ∈ xs, ∀ y ∈ xs, f x = f y → x = y)
    (hlength : ys.length ≤ xs.length) {y : α} (hy : y ∈ ys) : ∃ x ∈ xs, f x = y := by
  have hsubset : xs.map f ⊆ ys := fun z hz => by
    obtain ⟨x, hx, rfl⟩ := List.mem_map.mp hz
    exact hmem x hx
  have hperm := (List.subperm_of_subset (hxs.map_on hinj) hsubset).perm_of_length_le
    (by rwa [List.length_map])
  exact List.mem_map.mp (hperm.mem_iff.mpr hy)

variable {h : Heap} {a b : Value}

theorem KeysDiffer.nodup {entries : Entries} (hdiffer : h.KeysDiffer entries) :
    entries.toList.Nodup := by
  refine List.Pairwise.imp (fun {entry later} hne heq => ?_) hdiffer
  rw [heq, equal_refl] at hne
  cases hne

theorem KeysDiffer.eq {entries : Entries} (hdiffer : h.KeysDiffer entries)
    {entry other : Value × Value} (hentry : entry ∈ entries.toList)
    (hother : other ∈ entries.toList)
    (hleft : h.equal entry.1 other.1 = true) (hright : h.equal other.1 entry.1 = true) :
    entry = other := by
  by_contra hne
  obtain ⟨i, hi, rfl⟩ := List.mem_iff_getElem.mp hentry
  obtain ⟨j, hj, rfl⟩ := List.mem_iff_getElem.mp hother
  have hpairwise := List.pairwise_iff_getElem.mp hdiffer
  rcases Nat.lt_trichotomy i j with hij | hij | hij
  · rw [hpairwise i j hi hj hij] at hleft
    cases hleft
  · subst hij
    exact hne rfl
  · rw [hpairwise j i hj hi hij] at hright
    cases hright

theorem forall₂_mem {R : Value → Value → Prop} {xs ys : List Value} (hxy : List.Forall₂ R xs ys) :
    List.Forall₂ (fun x y => R x y ∧ x ∈ xs ∧ y ∈ ys) xs ys := by
  obtain ⟨hlength, hzip⟩ := List.forall₂_iff_zip.mp hxy
  refine List.forall₂_iff_zip.mpr ⟨hlength, fun hmem => ⟨hzip hmem, ?_⟩⟩
  exact List.of_mem_zip hmem

/-- Only the parts of the two values count. -/
theorem Matches.held {R : Value → Value → Prop} (hab : h.Matches R a b) :
    h.Matches (fun x y => R x y ∧ h.Holds a x ∧ h.Holds b y) a b := by
  have hcell : ∀ {v x : Value} {cell : CellId}, (h.content v).cell? = some cell →
      x ∈ h.items cell → h.Holds v x := fun hv hx => (holds_iff_mem_items hv).mpr hx
  cases hab with
  | identical => exact .identical a
  | leaves hleaf => exact .leaves hleaf
  | lists ha hb hitems =>
    refine .lists ha hb ((forall₂_mem hitems).imp fun x y hxy => ⟨hxy.1, ?_, ?_⟩)
    · exact hcell (by rw [ha]; rfl) hxy.2.1
    · exact hcell (by rw [hb]; rfl) hxy.2.2
  | vectors ha hb hitems =>
    refine .vectors ha hb ((forall₂_mem hitems).imp fun x y hxy => ⟨hxy.1, ?_, ?_⟩)
    · exact hcell (by rw [ha]; rfl) hxy.2.1
    · exact hcell (by rw [hb]; rfl) hxy.2.2
  | maps ha hb hsize hentries =>
    refine .maps ha hb hsize fun entry hentry => ?_
    obtain ⟨other, hfind, hvalue⟩ := hentries entry hentry
    exact ⟨other, hfind, hvalue, (encloses_entry ha hentry).2.holds,
      (encloses_entry hb (List.mem_of_find?_eq_some hfind)).2.holds⟩
  | errors ha hb hpq =>
    exact .errors ha hb ⟨hpq, (encloses_payload ha).holds, (encloses_payload hb).holds⟩

theorem forall₂_comp {R S T : Value → Value → Prop} (hRS : ∀ u v w, R u v → S v w → T u w)
    {xs ys zs : List Value} (hxy : List.Forall₂ R xs ys) (hyz : List.Forall₂ S ys zs) :
    List.Forall₂ T xs zs := by
  induction hxy generalizing zs with
  | nil =>
    cases hyz
    exact .nil
  | cons hfirst _ ih =>
    cases hyz with
    | cons hfirst' hrest' => exact .cons (hRS _ _ _ hfirst hfirst') (ih hrest')

/-- How many objects are reached. -/
noncomputable def extent (h : Heap) (a : Value) : Nat := (h.reached h.Holds a).card

theorem extent_le (hab : h.Holds a b) : h.extent b ≤ h.extent a :=
  Finset.card_le_card (reached_subset hab)

/-- Equality is symmetric and transitive on the values of small extent. -/
structure IsEquivalenceBelow (h : Heap) (n : Nat) : Prop where
  symm : ∀ a b, h.extent a < n → h.extent b < n → h.equal a b → h.equal b a
  trans : ∀ a b c, h.extent a < n → h.extent b < n → h.extent c < n →
    h.equal a b → h.equal b c → h.equal a c

section Equivalence

variable {n : Nat} {x y z : Value} {m o p : Entries}

/-- The first entry under a key is the one entry under it. -/
theorem find?_like (hbelow : h.IsEquivalenceBelow n) (hm : h.KeysDiffer m)
    (hmkeys : ∀ entry ∈ m.toList, h.extent entry.1 < n) {key : Value} (hkey : h.extent key < n)
    {entry : Value × Value} (hentry : entry ∈ m.toList) (hlike : h.equal entry.1 key = true) :
    (m.toList.find? fun other => h.equal other.1 key) = some entry := by
  cases hfind : m.toList.find? fun other => h.equal other.1 key with
  | none => exact absurd hlike (by simpa using List.find?_eq_none.mp hfind entry hentry)
  | some other =>
    have hother := List.mem_of_find?_eq_some hfind
    have hequal : h.equal other.1 key = true := by simpa using List.find?_some hfind
    have hback := hbelow.symm _ _ (hmkeys entry hentry) hkey hlike
    have hto := hbelow.trans _ _ _ (hmkeys other hother) hkey (hmkeys entry hentry) hequal hback
    rw [hm.eq hentry hother (hbelow.symm _ _ (hmkeys other hother) (hmkeys entry hentry) hto) hto]

/-- Every entry of the second map is the like of one entry of the first. -/
theorem exists_like (hbelow : h.IsEquivalenceBelow n) (hm : h.KeysDiffer m)
    (hmkeys : ∀ entry ∈ m.toList, h.extent entry.1 < n)
    (hokeys : ∀ entry ∈ o.toList, h.extent entry.1 < n) (hsize : m.size = o.size)
    (hlikes : ∀ entry ∈ m.toList, ∃ other,
      (o.toList.find? fun other => h.equal other.1 entry.1) = some other)
    {other : Value × Value} (hother : other ∈ o.toList) :
    ∃ entry ∈ m.toList, (o.toList.find? fun other => h.equal other.1 entry.1) = some other := by
  let like (entry : Value × Value) : Value × Value :=
    (o.toList.find? fun other => h.equal other.1 entry.1).getD entry
  have hlike : ∀ entry ∈ m.toList,
      (o.toList.find? fun other => h.equal other.1 entry.1) = some (like entry) := by
    intro entry hentry
    obtain ⟨other, hfind⟩ := hlikes entry hentry
    simp only [like, hfind, Option.getD_some]
  have hmem : ∀ entry ∈ m.toList, like entry ∈ o.toList := fun entry hentry =>
    List.mem_of_find?_eq_some (hlike entry hentry)
  have hequal : ∀ entry ∈ m.toList, h.equal (like entry).1 entry.1 = true := fun entry hentry => by
    simpa using List.find?_some (hlike entry hentry)
  have hinj : ∀ entry ∈ m.toList, ∀ entry' ∈ m.toList, like entry = like entry' →
      entry = entry' := by
    intro entry hentry entry' hentry' heq
    have hto : ∀ {e e' : Value × Value}, e ∈ m.toList → e' ∈ m.toList → like e = like e' →
        h.equal e.1 e'.1 = true := by
      intro e e' he he' heq
      have hback := hbelow.symm _ _ (hokeys _ (hmem e he)) (hmkeys e he) (hequal e he)
      refine hbelow.trans _ _ _ (hmkeys e he) (hokeys _ (hmem e he)) (hmkeys e' he') hback ?_
      rw [heq]
      exact hequal e' he'
    exact hm.eq hentry hentry' (hto hentry hentry' heq) (hto hentry' hentry heq.symm)
  have hlength : o.toList.length ≤ m.toList.length := by
    rw [Sequence.length_toList, Sequence.length_toList, hsize]
  obtain ⟨entry, hentry, rfl⟩ := exists_of_injective hm.nodup hmem hinj hlength hother
  exact ⟨entry, hentry, hlike entry hentry⟩

variable (hground : h.IsGrounded) (htidy : h.IsTidy)

include htidy in
/-- The keys of a map reach less than the map. -/
theorem extent_key_lt (ha : h.content a = .map m) {entry : Value × Value}
    (hentry : entry ∈ m.toList) : h.extent entry.1 < h.extent a := by
  have hholds := (encloses_entry ha hentry).1.holds
  exact card_reached_lt hholds hholds (htidy.apart a m ha entry hentry)

include hground htidy

/-- The likes of entries can be told from the other side. -/
theorem symm_of_below (hbelow : h.IsEquivalenceBelow n) (ha : h.extent a ≤ n)
    (hb : h.extent b ≤ n) (hab : h.equal a b) : h.equal b a := by
  obtain ⟨hmatches, hgreatest⟩ := isGreatest_equal hground htidy.apart
  let R (x y : Value) : Prop := h.extent x ≤ n ∧ h.extent y ≤ n ∧ h.equal y x
  suffices hR : ∀ x y, R x y → h.Matches R x y from hgreatest hR b a ⟨hb, ha, hab⟩
  rintro x y ⟨hx, hy, hyx⟩
  have hpart : ∀ {u v}, h.equal u v → h.Holds y u → h.Holds x v → R v u := fun huv hu hv =>
    ⟨(extent_le hv).trans hx, (extent_le hu).trans hy, huv⟩
  cases (hmatches y x hyx).held with
  | identical => exact .identical x
  | leaves hleaf => exact .leaves hleaf.symm
  | lists hcy hcx hitems =>
    exact .lists hcx hcy (hitems.flip.imp fun _ _ huv => hpart huv.1 huv.2.1 huv.2.2)
  | vectors hcy hcx hitems =>
    exact .vectors hcx hcy (hitems.flip.imp fun _ _ huv => hpart huv.1 huv.2.1 huv.2.2)
  | errors hcy hcx hpq => exact .errors hcx hcy (hpart hpq.1 hpq.2.1 hpq.2.2)
  | @maps _ m o hcy hcx hsize hentries =>
    have hmkeys : ∀ entry ∈ m.toList, h.extent entry.1 < n := fun entry hentry =>
      (extent_key_lt htidy hcy hentry).trans_le hy
    have hokeys : ∀ entry ∈ o.toList, h.extent entry.1 < n := fun entry hentry =>
      (extent_key_lt htidy hcx hentry).trans_le hx
    refine .maps hcx hcy hsize.symm fun other hother => ?_
    obtain ⟨entry, hentry, hfind⟩ := exists_like hbelow (htidy.differ y m hcy) hmkeys hokeys hsize
      (fun entry hentry => (hentries entry hentry).imp fun _ => And.left) hother
    obtain ⟨other', hfind', hvalue⟩ := hentries entry hentry
    rw [hfind] at hfind'
    cases hfind'
    have hkey : h.equal other.1 entry.1 = true := by simpa using List.find?_some hfind
    have hback := hbelow.symm _ _ (hokeys other hother) (hmkeys entry hentry) hkey
    have hlike := find?_like hbelow (htidy.differ y m hcy) hmkeys (hokeys other hother) hentry hback
    exact ⟨entry, hlike, hpart hvalue.1 hvalue.2.1 hvalue.2.2⟩

/-- The like of the like is the like. -/
theorem trans_of_below {c : Value} (hbelow : h.IsEquivalenceBelow n) (ha : h.extent a ≤ n)
    (hb : h.extent b ≤ n) (hc : h.extent c ≤ n) (hab : h.equal a b) (hbc : h.equal b c) :
    h.equal a c := by
  obtain ⟨hmatches, hgreatest⟩ := isGreatest_equal hground htidy.apart
  let R (x z : Value) : Prop := h.extent x ≤ n ∧ h.extent z ≤ n ∧
    ∃ y, h.extent y ≤ n ∧ h.equal x y ∧ h.equal y z
  suffices hR : ∀ x z, R x z → h.Matches R x z from hgreatest hR a c ⟨ha, hc, b, hb, hab, hbc⟩
  rintro x z ⟨hx, hz, y, hy, hxy, hyz⟩
  have hpart : ∀ {u v w}, h.Holds x u → h.Holds y v → h.Holds z w → h.equal u v → h.equal v w →
      R u w := fun hu hv hw huv hvw =>
    ⟨(extent_le hu).trans hx, (extent_le hw).trans hz, _, (extent_le hv).trans hy, huv, hvw⟩
  by_cases hne : y = z
  · subst hne
    exact (hmatches x y hxy).held.mono fun u v huv =>
      hpart huv.2.1 huv.2.2 huv.2.2 huv.1 (h.equal_refl v)
  have hyz' := (hmatches y z hyz).held
  cases (hmatches x y hxy).held with
  | identical =>
    exact hyz'.mono fun u v huv => hpart huv.2.1 huv.2.1 huv.2.2 (h.equal_refl u) huv.1
  | leaves hleaf =>
    obtain ⟨hcell, hmap, herror⟩ := hleaf.no_parts
    cases hyz' with
    | identical => exact absurd rfl hne
    | leaves hleaf' => exact .leaves (hleaf.trans hleaf')
    | lists hcy => simp [hcy, Content.cell?] at hcell
    | vectors hcy => simp [hcy, Content.cell?] at hcell
    | maps hcy => exact absurd hcy (hmap _)
    | errors hcy => exact absurd hcy (herror _)
  | lists hcx hcy hitems =>
    cases hyz' with
    | identical => exact absurd rfl hne
    | lists hcy' hcz hitems' =>
      cases hcy.symm.trans hcy'
      exact .lists hcx hcz (forall₂_comp (fun u v w huv hvw =>
        hpart huv.2.1 huv.2.2 hvw.2.2 huv.1 hvw.1) hitems hitems')
    | leaves hleaf => simpa [hcy, Content.cell?] using hleaf.symm.no_parts.1
    | vectors hcy' | maps hcy' | errors hcy' => cases hcy.symm.trans hcy'
  | vectors hcx hcy hitems =>
    cases hyz' with
    | identical => exact absurd rfl hne
    | vectors hcy' hcz hitems' =>
      cases hcy.symm.trans hcy'
      exact .vectors hcx hcz (forall₂_comp (fun u v w huv hvw =>
        hpart huv.2.1 huv.2.2 hvw.2.2 huv.1 hvw.1) hitems hitems')
    | leaves hleaf => simpa [hcy, Content.cell?] using hleaf.symm.no_parts.1
    | lists hcy' | maps hcy' | errors hcy' => cases hcy.symm.trans hcy'
  | errors hcx hcy hpq =>
    cases hyz' with
    | identical => exact absurd rfl hne
    | errors hcy' hcz hpq' =>
      cases hcy.symm.trans hcy'
      exact .errors hcx hcz (hpart hpq.2.1 hpq.2.2 hpq'.2.2 hpq.1 hpq'.1)
    | leaves hleaf => exact absurd hcy (hleaf.symm.no_parts.2.2 _)
    | lists hcy' | vectors hcy' | maps hcy' => cases hcy.symm.trans hcy'
  | @maps _ m o hcx hcy hsize hentries =>
    cases hyz' with
    | identical => exact absurd rfl hne
    | leaves hleaf => exact absurd hcy (hleaf.symm.no_parts.2.1 _)
    | lists hcy' | vectors hcy' | errors hcy' => cases hcy.symm.trans hcy'
    | @maps _ o' p hcy' hcz hsize' hentries' =>
      cases hcy.symm.trans hcy'
      have hkey : ∀ {v : Value} {q : Entries} {entry : Value × Value}, h.content v = .map q →
          h.extent v ≤ n → entry ∈ q.toList → h.extent entry.1 < n := fun hv hle hentry =>
        (extent_key_lt htidy hv hentry).trans_le hle
      refine .maps hcx hcz (hsize.trans hsize') fun entry hentry => ?_
      obtain ⟨second, hfind, hvalue⟩ := hentries entry hentry
      have hsecond := List.mem_of_find?_eq_some hfind
      obtain ⟨third, hfind', hvalue'⟩ := hentries' second hsecond
      have hthird := List.mem_of_find?_eq_some hfind'
      have hfirst : h.equal second.1 entry.1 = true := by simpa using List.find?_some hfind
      have hnext : h.equal third.1 second.1 = true := by simpa using List.find?_some hfind'
      have hlike := hbelow.trans _ _ _ (hkey hcz hz hthird) (hkey hcy hy hsecond)
        (hkey hcx hx hentry) hnext hfirst
      exact ⟨third, find?_like hbelow (htidy.differ z p hcz) (fun _ => hkey hcz hz)
        (hkey hcx hx hentry) hthird hlike,
        hpart hvalue.2.1 hvalue.2.2 hvalue'.2.2 hvalue.1 hvalue'.1⟩

theorem isEquivalenceBelow (n : Nat) : h.IsEquivalenceBelow n := by
  induction n with
  | zero =>
    exact ⟨fun _ _ ha => absurd ha (Nat.not_lt_zero _),
      fun _ _ _ ha => absurd ha (Nat.not_lt_zero _)⟩
  | succ n ih =>
    exact ⟨fun a b ha hb => symm_of_below hground htidy ih (by omega) (by omega),
      fun a b c ha hb hc => trans_of_below hground htidy ih (by omega) (by omega) (by omega)⟩

/-- Equality does not depend on the side. -/
theorem equal_comm (a b : Value) : h.equal a b = h.equal b a := by
  have hbelow := isEquivalenceBelow hground htidy (h.extent a + h.extent b + 1)
  rw [Bool.eq_iff_iff]
  exact ⟨hbelow.symm a b (by omega) (by omega), hbelow.symm b a (by omega) (by omega)⟩

theorem equal_trans {c : Value} (hab : h.equal a b = true) (hbc : h.equal b c = true) :
    h.equal a c = true := by
  have hbelow := isEquivalenceBelow hground htidy (h.extent a + h.extent b + h.extent c + 1)
  exact hbelow.trans a b c (by omega) (by omega) (by omega) hab hbc

theorem equivalence_equal : Equivalence fun a b => h.equal a b = true where
  refl := h.equal_refl
  symm := fun {a b} hab => by rwa [equal_comm hground htidy b a]
  trans := equal_trans hground htidy

/-- Equal values stand in for one another. -/
theorem equal_congr {c : Value} (hab : h.equal a b = true) : h.equal a c = h.equal b c := by
  have hba : h.equal b a = true := by rwa [equal_comm hground htidy b a]
  rw [Bool.eq_iff_iff]
  exact ⟨equal_trans hground htidy hba, equal_trans hground htidy hab⟩

/-- Lists, and vectors, are equal when their elements are, one by one; each may be among its own
elements. -/
theorem equal_sequences_iff {shape : CellId → Content} (hshape : shape = .list ∨ shape = .vector)
    {c d : CellId} (ha : h.content a = shape c) (hb : h.content b = shape d) :
    h.equal a b = true ↔
      List.Forall₂ (fun x y => h.equal x y = true) (h.items c) (h.items d) := by
  rw [equal_iff_matches hground htidy.apart, matches_iff]
  by_cases hab : a = b
  · subst hab
    have hcd : c = d := by rcases hshape with rfl | rfl <;> cases ha.symm.trans hb <;> rfl
    subst hcd
    have hself : List.Forall₂ (fun x y => h.equal x y = true) (h.items c) (h.items c) :=
      List.forall₂_same.mpr fun x _ => h.equal_refl x
    simp only [comparison, beq_self_eq_true, if_true, Comparison.Demands, hself]
  · rcases hshape with rfl | rfl <;>
      simp only [comparison, beq_iff_eq, hab, if_false, ha, hb, Comparison.Demands]

/-- Maps are equal when they are of one size and each entry of the first has its like in the second,
wherever it stands. -/
theorem equal_maps_iff (ha : h.content a = .map m) (hb : h.content b = .map o) :
    h.equal a b = true ↔ m.size = o.size ∧ ∀ entry ∈ m.toList, ∃ other ∈ o.toList,
      h.equal entry.1 other.1 = true ∧ h.equal entry.2 other.2 = true := by
  have hbelow := isEquivalenceBelow hground htidy (h.extent a + h.extent b)
  rw [equal_iff_matches hground htidy.apart]
  constructor
  · intro hmatches
    cases hmatches with
    | identical =>
      cases ha.symm.trans hb
      exact ⟨rfl, fun entry hentry => ⟨entry, hentry, h.equal_refl _, h.equal_refl _⟩⟩
    | leaves hleaf =>
      rw [ha, hb] at hleaf
      cases hleaf
    | maps ha' hb' hsize hentries =>
      cases ha.symm.trans ha'
      cases hb.symm.trans hb'
      refine ⟨hsize, fun entry hentry => ?_⟩
      obtain ⟨other, hfind, hvalue⟩ := hentries entry hentry
      have hkey : h.equal other.1 entry.1 = true := by simpa using List.find?_some hfind
      refine ⟨other, List.mem_of_find?_eq_some hfind, ?_, hvalue⟩
      rwa [equal_comm hground htidy]
    | lists ha' | vectors ha' | errors ha' => cases ha.symm.trans ha'
  · rintro ⟨hsize, hentries⟩
    refine .maps ha hb hsize fun entry hentry => ?_
    obtain ⟨other, hother, hkey, hvalue⟩ := hentries entry hentry
    have hle := extent_key_lt htidy ha hentry
    refine ⟨other, find?_like hbelow (htidy.differ b o hb) (fun entry' hentry' => ?_) (by omega)
      hother (by rwa [equal_comm hground htidy]), hvalue⟩
    have hlt := extent_key_lt htidy hb hentry'
    omega

end Equivalence

end Heap

end Lisp
