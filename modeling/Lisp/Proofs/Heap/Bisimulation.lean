import Lisp.Proofs.Heap.Depth
import Mathlib.Data.List.Forall2
import Mathlib.Order.Bounds.Defs

/-!
Equality is equality of unfoldings. Two values match under a relation when they are identical or are
of one kind with what they hold related; equality is the greatest relation under which all related
values match. A comparison takes pairs of cells for equal that are still open, so what it finds is
shown for relations that may use such pairs, and a pair that has been closed is then no longer
needed among them.
-/
namespace Lisp

/-- Contents without parts, and atoms and functions of one identity. -/
inductive Content.SameLeaf : Content → Content → Prop
  | nil : SameLeaf .nil .nil
  | bool (b : Bool) : SameLeaf (.bool b) (.bool b)
  | int (n : Int64) : SameLeaf (.int n) (.int n)
  | float {x y : Float} : Number.same x y → SameLeaf (.float x) (.float y)
  | string {s t : Rope} : s.toList = t.toList → SameLeaf (.string s) (.string t)
  | symbol (name : Text) : SameLeaf (.symbol name) (.symbol name)
  | keyword (name : Text) : SameLeaf (.keyword name) (.keyword name)
  | atom (cell : AtomId) : SameLeaf (.atom cell) (.atom cell)
  | native (id : NativeId) : SameLeaf (.native id) (.native id)
  | closure (id : ClosureId) : SameLeaf (.closure id) (.closure id)

namespace Heap

/-- Two values match when they are identical, the same leaf, or of one kind with parts that are
related. The value of an entry belongs to that of the first entry with an equal key. -/
inductive Matches (h : Heap) (R : Value → Value → Prop) : Value → Value → Prop
  | identical (a : Value) : Matches h R a a
  | leaves {a b : Value} : (h.content a).SameLeaf (h.content b) → Matches h R a b
  | lists {a b : Value} {c d : CellId} :
    h.content a = .list c → h.content b = .list d →
    List.Forall₂ R (h.items c) (h.items d) → Matches h R a b
  | vectors {a b : Value} {c d : CellId} :
    h.content a = .vector c → h.content b = .vector d →
    List.Forall₂ R (h.items c) (h.items d) → Matches h R a b
  | maps {a b : Value} {m n : Entries} :
    h.content a = .map m → h.content b = .map n → m.size = n.size →
    (∀ entry ∈ m.toList, ∃ other,
      (n.toList.find? fun other => h.equal other.1 entry.1) = some other ∧ R entry.2 other.2) →
    Matches h R a b
  | errors {a b p q : Value} :
    h.content a = .error p → h.content b = .error q → R p q → Matches h R a b

theorem Matches.mono {h : Heap} {R S : Value → Value → Prop} (hRS : ∀ x y, R x y → S x y)
    {a b : Value} (hab : h.Matches R a b) : h.Matches S a b := by
  cases hab with
  | identical => exact .identical a
  | leaves hleaf => exact .leaves hleaf
  | lists ha hb hitems => exact .lists ha hb (hitems.imp hRS)
  | vectors ha hb hitems => exact .vectors ha hb (hitems.imp hRS)
  | maps ha hb hsize hentries =>
    refine .maps ha hb hsize fun entry hentry => ?_
    obtain ⟨other, hfind, hvalue⟩ := hentries entry hentry
    exact ⟨other, hfind, hRS _ _ hvalue⟩
  | errors ha hb hpq => exact .errors ha hb (hRS _ _ hpq)

/-- What a comparison asks of the parts. -/
def Comparison.Demands (h : Heap) (R : Value → Value → Prop) : Comparison → Prop
  | .equal => True
  | .different => False
  | .sequences c d => List.Forall₂ R (h.items c) (h.items d)
  | .maps m n => m.size = n.size ∧ ∀ entry ∈ m.toList, ∃ other,
      (n.toList.find? fun other => h.equal other.1 entry.1) = some other ∧ R entry.2 other.2
  | .payloads p q => R p q

theorem Comparison.demands_ofBool (h : Heap) (R : Value → Value → Prop) (b : Bool) :
    (Comparison.ofBool b).Demands h R ↔ b = true := by
  cases b <;> simp [Comparison.ofBool, Comparison.Demands]

theorem matches_iff {h : Heap} {R : Value → Value → Prop} {a b : Value} :
    h.Matches R a b ↔ (h.comparison a b).Demands h R := by
  by_cases hab : a = b
  · subst hab
    simp [comparison, Comparison.Demands, Matches.identical]
  rw [comparison, if_neg (by simpa using hab)]
  constructor
  · intro hmatch
    cases hmatch with
    | identical => exact absurd rfl hab
    | leaves hleaf =>
      generalize h.content a = x at hleaf
      generalize h.content b = y at hleaf
      cases hleaf with
      | nil => trivial
      | _ => simp [Comparison.demands_ofBool, *]
    | lists ha hb hitems => simpa [ha, hb, Comparison.Demands] using hitems
    | vectors ha hb hitems => simpa [ha, hb, Comparison.Demands] using hitems
    | maps ha hb hsize hentries =>
      simp only [ha, hb, Comparison.Demands]
      exact ⟨hsize, hentries⟩
    | errors ha hb hpq => simpa [ha, hb, Comparison.Demands] using hpq
  · intro hdemand
    split at hdemand <;> rename_i ha hb
    case h_8 => exact .lists ha hb hdemand
    case h_9 => exact .vectors ha hb hdemand
    case h_10 => exact .maps ha hb hdemand.1 hdemand.2
    case h_14 => exact .errors ha hb hdemand
    case h_15 => exact hdemand.elim
    all_goals
      refine .leaves ?_
      rw [ha, hb]
    case h_1 => exact .nil
    all_goals
      simp only [Comparison.demands_ofBool, beq_iff_eq, Sequence.same_eq, Text.same_eq] at hdemand
    case h_4 => exact .float hdemand
    case h_5 => exact .string hdemand
    all_goals
      subst hdemand
      constructor

/-- The pairs that are open inside a comparison. -/
def Comparison.opening (opened : Trail) : Comparison → Trail
  | .sequences c d => opened.add (c, d)
  | _ => opened

/-- Two values whose cells are open. -/
def IsOpen (h : Heap) (opened : Trail) (a b : Value) : Prop :=
  ∃ c d, h.comparison a b = .sequences c d ∧ opened.contains (c, d)

/-- One level of a comparison finds its pair open, or its demand on the parts met. -/
theorem equalStep_iff {h : Heap} {inner : Trail → Value → Value → Bool}
    (hkeys : ∀ x y, inner {} x y = h.equal x y) {opened : Trail} {a b : Value} :
    h.equalStep inner opened a b ↔ h.IsOpen opened a b ∨
      (h.comparison a b).Demands h fun x y => inner ((h.comparison a b).opening opened) x y := by
  unfold equalStep IsOpen
  cases h.comparison a b with
  | equal => simp [Comparison.Demands]
  | different => simp [Comparison.Demands]
  | sequences c d =>
    have hzip : List.Forall₂ (fun x y => inner (opened.add (c, d)) x y = true) (h.items c)
        (h.items d) ↔ (h.sequence c).size = (h.sequence d).size ∧
          ∀ p ∈ (h.items c).zip (h.items d), inner (opened.add (c, d)) p.1 p.2 = true := by
      rw [List.forall₂_iff_zip]
      simp [items]
    simp [Comparison.Demands, Comparison.opening, hzip]
  | maps m n =>
    simp only [Comparison.Demands, Comparison.opening, Bool.and_eq_true, beq_iff_eq,
      ← Sequence.all_toList, List.all_eq_true, reduceCtorEq, false_and, exists_false, false_or]
    refine and_congr_right fun _ => forall₂_congr fun entry _ => ?_
    rw [Sequence.find?_toList]
    simp only [hkeys]
    cases n.find? fun other => h.equal other.1 entry.1 <;> simp
  | payloads p q => simp [Comparison.Demands, Comparison.opening]

/-- Demands are met alike by relations that agree on what a comparison calls for. -/
theorem Comparison.Demands.imp {h : Heap} {R S : Value → Value → Prop} {opened : Trail}
    {a b : Value} (hdemand : (h.comparison a b).Demands h R) (hclosed : ¬ h.IsOpen opened a b)
    (himp : ∀ x y, h.Calls (opened, a, b) ((h.comparison a b).opening opened, x, y) →
      R x y → S x y) : (h.comparison a b).Demands h S := by
  cases hc : h.comparison a b with
  | equal => trivial
  | different => simp [hc, Comparison.Demands] at hdemand
  | sequences c d =>
    rw [hc] at hdemand himp
    have hnot : opened.contains (c, d) = false :=
      Bool.eq_false_iff.mpr fun hopen => hclosed ⟨c, d, hc, hopen⟩
    obtain ⟨hlength, hitems⟩ := List.forall₂_iff_zip.mp hdemand
    refine List.forall₂_iff_zip.mpr ⟨hlength, fun hxy => ?_⟩
    exact himp _ _ (.element hc hnot hxy) (hitems hxy)
  | maps m n =>
    rw [hc] at hdemand himp
    refine ⟨hdemand.1, fun entry hentry => ?_⟩
    obtain ⟨other, hfind, hvalue⟩ := hdemand.2 entry hentry
    have hother := List.mem_of_find?_eq_some hfind
    exact ⟨other, hfind, himp _ _ (.value hc hentry hother) hvalue⟩
  | payloads p q =>
    rw [hc] at hdemand himp
    exact himp _ _ (.payload hc) hdemand

section Greatest

variable {h : Heap} {X Y : Value → Value → Prop} {a b : Value}

/-- The values related by `R` match, where parts may also be related by `X`. -/
def IsBisimulation (h : Heap) (X R : Value → Value → Prop) : Prop :=
  ∀ a b, R a b → h.Matches (fun x y => R x y ∨ X x y) a b

/-- Related by some relation of this kind, or by `X` itself. -/
def Follows (h : Heap) (X : Value → Value → Prop) (a b : Value) : Prop :=
  X a b ∨ ∃ R, h.IsBisimulation X R ∧ R a b

/-- Pairs that match given that they are related are related. -/
theorem follows_of_matches
    (hY : ∀ a b, Y a b → h.Matches (h.Follows fun x y => X x y ∨ Y x y) a b) (hab : Y a b) :
    h.Follows X a b := by
  refine Or.inr ⟨fun x y => Y x y ∨ ∃ R, h.IsBisimulation (fun x y => X x y ∨ Y x y) R ∧ R x y,
    ?_, Or.inl hab⟩
  rintro x y (hxy | ⟨R, hR, hxy⟩)
  · refine (hY x y hxy).mono ?_
    rintro u v ((huv | huv) | huv)
    · exact Or.inr huv
    · exact Or.inl (Or.inl huv)
    · exact Or.inl (Or.inr huv)
  · refine (hR x y hxy).mono ?_
    rintro u v (huv | huv | huv)
    · exact Or.inl (Or.inr ⟨R, hR, huv⟩)
    · exact Or.inr huv
    · exact Or.inl (Or.inl huv)

theorem Follows.mono (hXY : ∀ x y, X x y → Y x y) (hab : h.Follows X a b) : h.Follows Y a b := by
  rcases hab with hab | ⟨R, hR, hab⟩
  · exact Or.inl (hXY a b hab)
  · refine Or.inr ⟨R, fun x y hxy => (hR x y hxy).mono ?_, hab⟩
    rintro u v (huv | huv)
    · exact Or.inl huv
    · exact Or.inr (hXY u v huv)

/-- Values that match by related parts are related. -/
theorem Matches.follows (hab : h.Matches (h.Follows X) a b) : h.Follows X a b := by
  refine follows_of_matches (Y := fun x y => x = a ∧ y = b) ?_ ⟨rfl, rfl⟩
  rintro _ _ ⟨rfl, rfl⟩
  exact hab.mono fun x y hxy => hxy.mono fun _ _ => Or.inl

theorem isOpen_add {opened : Trail} {c d : CellId} {x y : Value}
    (hopen : h.IsOpen (opened.add (c, d)) x y) :
    h.IsOpen opened x y ∨ h.comparison x y = .sequences c d := by
  obtain ⟨c', d', hxy, hmem⟩ := hopen
  rw [Trail.contains_add, Bool.or_eq_true, beq_iff_eq] at hmem
  rcases hmem with heq | hmem
  · cases heq
    exact Or.inr hxy
  · exact Or.inl ⟨c', d', hxy, hmem⟩

/-- With nothing open, related values match by related parts. -/
theorem Follows.matches_empty (hab : h.Follows (h.IsOpen {}) a b) :
    h.Matches (h.Follows (h.IsOpen {})) a b := by
  have hnone : ∀ x y, ¬ h.IsOpen {} x y := by
    rintro x y ⟨c, d, _, hopen⟩
    simp at hopen
  obtain ⟨R, hR, hab⟩ := hab.resolve_left (hnone a b)
  refine (hR a b hab).mono fun x y hxy => ?_
  exact Or.inr ⟨R, hR, hxy.resolve_right (hnone x y)⟩

variable (hground : h.IsGrounded) (hkeys : h.KeysApart)
include hground hkeys

theorem equalInside_iff {opened : Trail} :
    h.equalInside opened a b ↔ h.IsOpen opened a b ∨
      (h.comparison a b).Demands h fun x y =>
        h.equalInside ((h.comparison a b).opening opened) x y := by
  rw [equalInside_eq_equalStep (endsWithin_equalityDepth hground hkeys _) fun q _ =>
    endsWithin_equalityDepth hground hkeys q]
  exact equalStep_iff fun x y => (h.equal_eq x y).symm

/-- What a comparison finds equal is related, given the pairs that are open around it. -/
theorem follows_of_equalInside (q : Query) (hq : h.equalInside q.1 q.2.1 q.2.2) :
    h.Follows (h.IsOpen q.1) q.2.1 q.2.2 := by
  induction q using (wellFounded_calls hground hkeys).induction with
  | _ q ih =>
    obtain ⟨opened, a, b⟩ := q
    by_cases hopen : h.IsOpen opened a b
    · exact Or.inl hopen
    have hdemand := ((equalInside_iff hground hkeys).mp hq).resolve_left hopen
    have hparts := hdemand.imp hopen fun x y hcall hxy => ih _ hcall hxy
    cases hc : h.comparison a b with
    | sequences c d =>
      -- All pairs over these two cells have the same parts, so they can be taken in at once.
      refine follows_of_matches (Y := fun x y => h.comparison x y = .sequences c d) ?_ hc
      intro x y hxy
      rw [matches_iff, hxy]
      rw [hc] at hparts
      exact List.Forall₂.imp (fun u v huv => huv.mono fun _ _ => isOpen_add) hparts
    | _ =>
      refine Matches.follows (matches_iff.mpr ?_)
      rw [hc] at hparts ⊢
      exact hparts

/-- Values that are related by matching are found equal, whatever is open around them. -/
theorem equalInside_of_isBisimulation {R : Value → Value → Prop}
    (hR : ∀ a b, R a b → h.Matches R a b) (q : Query) (hq : R q.2.1 q.2.2) :
    h.equalInside q.1 q.2.1 q.2.2 := by
  induction q using (wellFounded_calls hground hkeys).induction with
  | _ q ih =>
    obtain ⟨opened, a, b⟩ := q
    rw [equalInside_iff hground hkeys]
    by_cases hopen : h.IsOpen opened a b
    · exact Or.inl hopen
    have hdemand := matches_iff.mp (hR a b hq)
    exact Or.inr (hdemand.imp hopen fun x y hcall hxy => ih _ hcall hxy)

end Greatest

/-- In a heap whose lists and vectors may hold themselves in any way, but in which no map is reached
from one of its own keys, equality is the greatest relation under which related values match. -/
theorem isGreatest_equal {h : Heap} (hground : h.IsGrounded) (hkeys : h.KeysApart) :
    IsGreatest {R : Value → Value → Prop | ∀ a b, R a b → h.Matches R a b}
      fun a b => h.equal a b = true := by
  have hgreatest : ∀ R : Value → Value → Prop, (∀ a b, R a b → h.Matches R a b) →
      ∀ a b, R a b → h.equal a b := by
    intro R hR a b hab
    rw [equal_eq]
    exact equalInside_of_isBisimulation hground hkeys hR ({}, a, b) hab
  refine ⟨fun a b hab => ?_, hgreatest⟩
  have hfollows := follows_of_equalInside hground hkeys ({}, a, b) (by rwa [← equal_eq])
  exact hfollows.matches_empty.mono (hgreatest _ fun _ _ => Follows.matches_empty)

/-- Two values are equal just when they match with equal parts. -/
theorem equal_iff_matches {h : Heap} (hground : h.IsGrounded) (hkeys : h.KeysApart) (a b : Value) :
    h.equal a b = true ↔ h.Matches (fun x y => h.equal x y = true) a b := by
  obtain ⟨hmatches, hgreatest⟩ := isGreatest_equal hground hkeys
  refine ⟨hmatches a b, fun hab => ?_⟩
  have hself : ∀ x y, h.Matches (fun x y => h.equal x y = true) x y →
      h.Matches (h.Matches fun x y => h.equal x y = true) x y :=
    fun x y hxy => hxy.mono hmatches
  exact hgreatest hself a b hab

/-- Floats are equal when they are one object or one number. -/
theorem equal_floats_iff {h : Heap} {a b : Value} {x y : Float} (ha : h.content a = .float x)
    (hb : h.content b = .float y) : h.equal a b = true ↔ a = b ∨ Number.same x y = true := by
  by_cases hab : a = b
  · simp [hab, equal, comparison]
  · cases hsame : Number.same x y <;>
      simp [equal, comparison, ha, hb, hab, hsame, Comparison.ofBool]

end Heap

end Lisp
