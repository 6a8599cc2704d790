import Lisp.Proofs.Heap.Termination

/-!
How deep comparisons go. More fuel keeps an answer, and the depth that equality is given finds every
answer that some fuel finds: on the way down from a comparison that ends, no two keys are compared
twice, and between two comparisons of keys the way is short. So equality does not depend on how
large the heap is, also where comparisons do not end; and where all of them end, it is a fixed point
of one level.
-/
namespace Lisp

section Lists

variable {α : Type} {p q : α → Option Bool} {xs : List α}

theorem allM_mono {r : Bool} (hp : xs.allM p = some r)
    (hpq : ∀ x ∈ xs, ∀ s, p x = some s → q x = some s) : xs.allM q = some r := by
  induction xs with
  | nil => exact hp
  | cons x xs ih =>
    rw [List.allM_cons] at hp ⊢
    cases hx : p x with
    | none =>
      rw [hx] at hp
      cases hp
    | some s =>
      rw [hx] at hp
      rw [hpq x List.mem_cons_self s hx]
      cases s with
      | false => exact hp
      | true => exact ih hp fun y hy => hpq y (List.mem_cons_of_mem x hy)

theorem allM_of_some {f : α → Bool} (hp : ∀ x ∈ xs, p x = some (f x)) :
    xs.allM p = some (xs.all f) :=
  allM_mono (List.allM_pure (m := Option)) fun x hx _ hs => (hp x hx).trans hs

theorem findM?_mono {r : Option α} (hp : xs.findM? p = some r)
    (hpq : ∀ x ∈ xs, ∀ s, p x = some s → q x = some s) : xs.findM? q = some r := by
  induction xs with
  | nil => exact hp
  | cons x xs ih =>
    rw [List.findM?] at hp ⊢
    cases hx : p x with
    | none =>
      rw [hx] at hp
      cases hp
    | some s =>
      rw [hx] at hp
      rw [hpq x List.mem_cons_self s hx]
      cases s with
      | true => exact hp
      | false => exact ih hp fun y hy => hpq y (List.mem_cons_of_mem x hy)

theorem mem_of_findM?_eq_some {x : α} (hp : xs.findM? p = some (some x)) : x ∈ xs := by
  induction xs with
  | nil => cases hp
  | cons y xs ih =>
    rw [List.findM?] at hp
    cases hy : p y with
    | none =>
      rw [hy] at hp
      cases hp
    | some s =>
      rw [hy] at hp
      cases s with
      | true =>
        cases hp
        exact List.mem_cons_self
      | false => exact List.mem_cons_of_mem y (ih hp)

theorem allM_map {β : Type} (f : β → α) (ys : List β) :
    (ys.map f).allM p = ys.allM (p ∘ f) := by
  induction ys with
  | nil => rfl
  | cons y ys ih =>
    rw [List.map_cons, List.allM_cons, List.allM_cons, ih]
    rfl

theorem findM?_map {β : Type} (f : β → α) (ys : List β) :
    (ys.map f).findM? p = (ys.findM? (p ∘ f)).map (Option.map f) := by
  induction ys with
  | nil => rfl
  | cons y ys ih =>
    rw [List.map_cons, List.findM?, List.findM?, Function.comp_apply]
    cases p (f y) with
    | none => rfl
    | some s =>
      cases s with
      | true => rfl
      | false => exact ih

end Lists

namespace Heap

section Levels

variable {h : Heap} {opened : Trail} {a b : Value}

/-- One level where every comparison that it calls for has an answer. -/
def equalStep (h : Heap) (inner : Trail → Value → Value → Bool) (opened : Trail) (a b : Value) :
    Bool :=
  match h.comparison a b with
  | .equal => true
  | .different => false
  | .sequences c d =>
    opened.contains (c, d) ||
      ((h.sequence c).size == (h.sequence d).size &&
        ((h.items c).zip (h.items d)).all fun (x, y) => inner (opened.add (c, d)) x y)
  | .maps m n =>
    m.size == n.size &&
      m.all fun (key, value) =>
        match n.find? fun entry => inner {} entry.1 key with
        | some entry => inner opened value entry.2
        | none => false
  | .payloads p q => inner opened p q

/-- An answer of one level stays when what it calls for keeps its answers. -/
theorem equalStep?_mono {f g : Trail → Value → Value → Option Bool} {r : Bool}
    (hf : h.equalStep? f opened a b = some r)
    (hfg : ∀ opened' x y s, h.Calls (opened, a, b) (opened', x, y) → f opened' x y = some s →
      g opened' x y = some s) :
    h.equalStep? g opened a b = some r := by
  rw [equalStep?_eq] at hf ⊢
  cases hc : h.comparison a b with
  | equal | different =>
    rw [hc] at hf
    exact hf
  | sequences c d =>
    simp only [hc] at hf ⊢
    cases hopen : opened.contains (c, d) with
    | true =>
      rw [hopen] at hf
      exact hf
    | false =>
      simp only [hopen, Bool.false_eq_true, if_false] at hf ⊢
      split at hf
      · rename_i hsize
        rw [if_pos hsize]
        exact allM_mono hf fun p hp s => hfg _ _ _ s (.element hc hopen hp)
      · rename_i hsize
        rwa [if_neg hsize]
  | maps m n =>
    simp only [hc] at hf ⊢
    split at hf
    · rename_i hsize
      rw [if_pos hsize]
      refine allM_mono hf fun entry hentry s hs => ?_
      obtain ⟨found, hfound, hs⟩ := Option.bind_eq_some_iff.mp hs
      refine Option.bind_eq_some_iff.mpr ⟨found, ?_, ?_⟩
      · exact findM?_mono hfound fun other hother t => hfg _ _ _ t (.key hc hentry hother)
      · cases found with
        | none => exact hs
        | some other => exact hfg _ _ _ s (.value hc hentry (mem_of_findM?_eq_some hfound)) hs
    · rename_i hsize
      rwa [if_neg hsize]
  | payloads p q =>
    rw [hc] at hf
    exact hfg _ _ _ r (.payload hc) hf

/-- One level depends on nothing but the comparisons that it calls for. -/
theorem equalStep?_congr {f g : Trail → Value → Value → Option Bool}
    (heq : ∀ opened' x y, h.Calls (opened, a, b) (opened', x, y) → f opened' x y = g opened' x y) :
    h.equalStep? f opened a b = h.equalStep? g opened a b := by
  refine Option.ext fun r => ⟨fun hf => ?_, fun hg => ?_⟩
  · exact equalStep?_mono hf fun opened' x y s hcall hs => heq opened' x y hcall ▸ hs
  · exact equalStep?_mono hg fun opened' x y s hcall hs => (heq opened' x y hcall).symm ▸ hs

/-- Where everything that is called for has an answer, one level has one. -/
theorem equalStep?_some (h : Heap) (f : Trail → Value → Value → Bool) (opened : Trail)
    (a b : Value) :
    h.equalStep? (fun opened' x y => some (f opened' x y)) opened a b =
      some (h.equalStep f opened a b) := by
  rw [equalStep?_eq]
  unfold equalStep
  cases h.comparison a b with
  | equal | different | payloads p q => rfl
  | sequences c d =>
    have hall : ((h.items c).zip (h.items d)).allM (fun p => some (f (opened.add (c, d)) p.1 p.2)) =
        some (((h.items c).zip (h.items d)).all fun p => f (opened.add (c, d)) p.1 p.2) :=
      allM_of_some fun _ _ => rfl
    simp only [hall]
    cases opened.contains (c, d) <;> cases (h.sequence c).size == (h.sequence d).size <;> rfl
  | maps m n =>
    have hfind : ∀ key, n.toList.findM? (fun entry => some (f {} entry.1 key)) =
        some (n.find? fun entry => f {} entry.1 key) := by
      intro key
      rw [← Sequence.find?_toList]
      exact List.findM?_pure _ _
    simp only [← Sequence.all_toList]
    cases m.size == n.size with
    | false => rfl
    | true =>
      refine allM_of_some fun entry _ => ?_
      rw [hfind]
      cases n.find? fun other => f {} other.1 entry.1 <;> rfl

end Levels

section Height

variable {h : Heap} {opened : Trail} {a b : Value} {m n : Nat} {p q : Query}

/-- More fuel keeps an answer. -/
theorem equalWithin?_mono {fuel fuel' : Nat} {r : Bool} (hle : fuel ≤ fuel')
    (hr : h.equalWithin? fuel opened a b = some r) :
    h.equalWithin? fuel' opened a b = some r := by
  induction fuel generalizing fuel' opened a b r with
  | zero => cases hr
  | succ fuel ih =>
    cases fuel' with
    | zero => omega
    | succ fuel' => exact equalStep?_mono hr fun _ _ _ _ _ hs => ih (by omega) hs

/-- The comparison has an answer with this fuel. -/
def EndsWithin (h : Heap) (fuel : Nat) (q : Query) : Prop :=
  ∃ r, h.equalWithin? fuel q.1 q.2.1 q.2.2 = some r

theorem EndsWithin.mono (hq : h.EndsWithin m q) (hle : m ≤ n) : h.EndsWithin n q :=
  hq.imp fun _ hr => equalWithin?_mono hle hr

/-- A comparison ends when all that it calls for do. -/
theorem endsWithin_succ (hcalls : ∀ q, h.Calls p q → h.EndsWithin n q) :
    h.EndsWithin (n + 1) p := by
  let f : Trail → Value → Value → Bool := fun opened x y =>
    (h.equalWithin? n opened x y).getD false
  refine ⟨h.equalStep f p.1 p.2.1 p.2.2, ?_⟩
  refine equalStep?_mono (h.equalStep?_some f p.1 p.2.1 p.2.2) fun opened' x y s hcall hs => ?_
  obtain ⟨r, hr⟩ := hcalls (opened', x, y) hcall
  simpa [f, hr] using hs

/-- The levels below the first that a comparison which ends goes down, and no fewer. -/
def HasHeight (h : Heap) (n : Nat) (q : Query) : Prop :=
  h.EndsWithin (n + 1) q ∧ ¬ h.EndsWithin n q

theorem HasHeight.unique (hm : h.HasHeight m q) (hn : h.HasHeight n q) : m = n := by
  have hle : ¬ m + 1 ≤ n := fun hle => hn.2 (hm.1.mono hle)
  have hle' : ¬ n + 1 ≤ m := fun hle => hm.2 (hn.1.mono hle)
  omega

theorem exists_hasHeight {fuel : Nat} (hq : h.EndsWithin fuel q) : ∃ n < fuel, h.HasHeight n q := by
  induction fuel with
  | zero =>
    obtain ⟨r, hr⟩ := hq
    cases hr
  | succ fuel ih =>
    by_cases hends : h.EndsWithin fuel q
    · obtain ⟨n, hlt, hn⟩ := ih hends
      exact ⟨n, by omega, hn⟩
    · exact ⟨fuel, by omega, hq, hends⟩

/-- The way down passes through every smaller height. -/
theorem HasHeight.exists_calls (hp : h.HasHeight (n + 1) p) :
    ∃ q, h.Calls p q ∧ h.HasHeight n q := by
  by_contra hnone
  obtain ⟨⟨r, hr⟩, hnot⟩ := hp
  refine hnot ⟨r, equalStep?_mono hr fun opened' x y s hcall hs => ?_⟩
  have hends : h.EndsWithin n (opened', x, y) := by
    by_contra hends
    exact hnone ⟨_, hcall, ⟨s, hs⟩, hends⟩
  obtain ⟨t, ht⟩ := hends
  rw [ht, ← hs]
  exact (equalWithin?_mono (Nat.le_succ n) ht).symm

/-- Whatever calls for a comparison compares two objects. -/
theorem Calls.exists_objects (hcall : h.Calls p q) :
    ∃ x < h.objects.size, ∃ y < h.objects.size, p.2 = (.object x, .object y) := by
  have hholds : (∃ v, h.Holds p.2.1 v) ∧ ∃ v, h.Holds p.2.2 v := by
    rcases hcall.held with ⟨hleft, hright⟩ | ⟨hleft, hright⟩
    · exact ⟨⟨_, hleft⟩, ⟨_, hright⟩⟩
    · exact ⟨⟨_, hright⟩, ⟨_, hleft⟩⟩
  obtain ⟨⟨v, hv⟩, ⟨u, hu⟩⟩ := hholds
  obtain ⟨x, hx, hleft⟩ := exists_object_of_holds hv
  obtain ⟨y, hy, hright⟩ := exists_object_of_holds hu
  exact ⟨x, hx, y, hy, Prod.ext hleft hright⟩

theorem Calls.descent_pos (hcall : h.Calls p q) : 0 < h.descent p := by
  obtain ⟨x, hx, y, -, hp⟩ := hcall.exists_objects
  have hmem : x ∈ h.reached h.Encloses p.2.1 := by
    rw [hp]
    exact mem_reached.mpr ⟨hx, .refl⟩
  have hpos := Finset.card_pos.mpr ⟨x, hmem⟩
  unfold descent
  omega

/-- A comparison goes no deeper than to open all pairs of cells once for each comparison of two keys
that lies below it. -/
theorem HasHeight.le (hground : h.IsGrounded) (hp : h.HasHeight n p) (keys : Finset (Nat × Nat))
    (hkeys : ∀ m x y, 0 < m → m < n → h.HasHeight m ({}, .object x, .object y) → (x, y) ∈ keys) :
    n ≤ keys.card * ((h.cells.size * h.cells.size + 1) * (h.objects.size + 2)) + h.descent p := by
  induction n generalizing p keys with
  | zero => omega
  | succ n ih =>
    obtain ⟨q, hcall, hq⟩ := hp.exists_calls
    rcases hcall.descends hground with ⟨_, _, entry, other, -, -, -, rfl⟩ | hlt
    · cases n with
      | zero =>
        have hpos := hcall.descent_pos
        omega
      | succ n =>
        obtain ⟨_, hcall', -⟩ := hq.exists_calls
        obtain ⟨x, -, y, -, hxy⟩ := hcall'.exists_objects
        rw [show other.1 = .object x from congrArg Prod.fst hxy,
          show entry.1 = .object y from congrArg Prod.snd hxy] at hq
        have hmem : (x, y) ∈ keys := hkeys (n + 1) x y (by omega) (by omega) hq
        -- below these keys no comparison is of them again, since it would have another height
        have hle := ih hq (keys.erase (x, y)) fun m x' y' hpos hm hheight => by
          refine Finset.mem_erase.mpr ⟨?_, hkeys m x' y' hpos (by omega) hheight⟩
          rintro ⟨⟩
          have heq := hheight.unique hq
          omega
        have hdescent := h.descent_lt ({}, .object x, .object y)
        have hcard := Finset.card_erase_add_one hmem
        rw [← hcard, Nat.succ_mul]
        omega
    · have hle := ih hq keys fun m x y hpos hm => hkeys m x y hpos (by omega)
      omega

end Height

section Depth

variable {h : Heap} {opened : Trail} {a b : Value} {q : Query}

/-- Whatever ends at all ends within the depth that equality is given. -/
theorem EndsWithin.equalityDepth (hground : h.IsGrounded) {fuel : Nat}
    (hq : h.EndsWithin fuel q) : h.EndsWithin h.equalityDepth q := by
  obtain ⟨n, -, hn⟩ := exists_hasHeight hq
  let keys := Finset.range h.objects.size ×ˢ Finset.range h.objects.size
  have hle := hn.le hground keys fun m x y hpos _ hheight => by
    obtain ⟨k, rfl⟩ := Nat.exists_eq_succ_of_ne_zero hpos.ne'
    obtain ⟨_, hcall, -⟩ := hheight.exists_calls
    obtain ⟨x', hx, y', hy, heq⟩ := hcall.exists_objects
    cases heq
    exact Finset.mem_product.mpr ⟨Finset.mem_range.mpr hx, Finset.mem_range.mpr hy⟩
  have hdescent := h.descent_lt q
  have hcard : keys.card = h.objects.size * h.objects.size := by
    rw [Finset.card_product, Finset.card_range]
  refine hn.1.mono ?_
  rw [Heap.equalityDepth, Nat.mul_comm, Nat.succ_mul, ← hcard]
  omega

theorem equalityDepth_mono {g : Heap} (hobjects : g.objects.size ≤ h.objects.size)
    (hcells : g.cells.size ≤ h.cells.size) : g.equalityDepth ≤ h.equalityDepth := by
  have hpairs := Nat.mul_le_mul hobjects hobjects
  have hcellPairs := Nat.mul_le_mul hcells hcells
  exact Nat.mul_le_mul (Nat.mul_le_mul (by omega) (by omega)) (by omega)

/-- Any depth from that of equality on gives the same. -/
theorem equalWithin?_of_le (hground : h.IsGrounded) {fuel : Nat} (hfuel : h.equalityDepth ≤ fuel) :
    h.equalWithin? fuel opened a b = h.equalWithin? h.equalityDepth opened a b := by
  refine Option.ext fun r => ⟨fun hr => ?_, equalWithin?_mono hfuel⟩
  have hends : h.EndsWithin fuel (opened, a, b) := ⟨r, hr⟩
  obtain ⟨s, hs⟩ := hends.equalityDepth hground
  rw [hs, ← hr]
  exact (equalWithin?_mono hfuel hs).symm

theorem EndsWithin.eq_some (hq : h.EndsWithin h.equalityDepth (opened, a, b)) :
    h.equalWithin? h.equalityDepth opened a b = some (h.equalInside opened a b) := by
  obtain ⟨r, hr⟩ := hq
  rw [equalInside, show h.equalWithin? h.equalityDepth opened a b = some r from hr]
  rfl

/-- The answer to a comparison that ends, by the answers to those that it calls for. -/
theorem equalInside_eq_equalStep (hself : h.EndsWithin h.equalityDepth (opened, a, b))
    (hcalls : ∀ q, h.Calls (opened, a, b) q → h.EndsWithin h.equalityDepth q) :
    h.equalInside opened a b = h.equalStep h.equalInside opened a b := by
  have hdeeper := equalWithin?_mono (Nat.le_succ _) hself.eq_some
  have hstep : h.equalStep? (h.equalWithin? h.equalityDepth) opened a b =
      some (h.equalStep h.equalInside opened a b) := by
    rw [← equalStep?_some]
    exact equalStep?_congr fun opened' x y hcall => (hcalls (opened', x, y) hcall).eq_some
  exact Option.some.inj (hdeeper.symm.trans hstep)

/-- Where no map is reached from one of its own keys, every comparison ends. -/
theorem endsWithin_of_rank_lt (hground : h.IsGrounded) (hkeys : h.KeysApart) {fuel : Nat}
    (hfuel : h.rank q < fuel) : h.EndsWithin fuel q := by
  induction fuel generalizing q with
  | zero => omega
  | succ fuel ih =>
    refine endsWithin_succ fun q' hcall => ih ?_
    have hlt := rank_lt_of_calls hground hkeys hcall
    omega

theorem endsWithin_equalityDepth (hground : h.IsGrounded) (hkeys : h.KeysApart) (q : Query) :
    h.EndsWithin h.equalityDepth q :=
  (endsWithin_of_rank_lt hground hkeys (Nat.lt_succ_self _)).equalityDepth hground

end Depth

end Heap

end Lisp
