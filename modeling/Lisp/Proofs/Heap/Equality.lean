import Lisp.Proofs.Heap.Depth
import Lisp.Proofs.Heap.Unfolding

/-!
Equality of values that unfold to trees is equality of the trees. Identical values are equal without
a look at them, which agrees with the trees as long as these are tidy.
-/
namespace Lisp.Heap

section Forall₂

variable {α β : Type} {R : α → β → Prop}

theorem forall₂_pairs {entries : List (α × α)} {items : List β}
    (h : List.Forall₂ R (alternate entries) items) :
    List.Forall₂ (fun entry pair => R entry.1 pair.1 ∧ R entry.2 pair.2) entries (pairs items) := by
  induction entries generalizing items with
  | nil =>
    rw [List.forall₂_nil_left_iff.mp h]
    exact .nil
  | cons entry entries ih =>
    obtain ⟨x, y⟩ := entry
    obtain ⟨d, more, hd, hmore, rfl⟩ := List.forall₂_cons_left_iff.mp h
    obtain ⟨e, rest, he, hrest, rfl⟩ := List.forall₂_cons_left_iff.mp hmore
    exact .cons ⟨hd, he⟩ (ih hrest)

theorem allM_zip_eq {xs us : List α} {ys vs : List β} {f : α × α → Option Bool}
    {g : β × β → Bool} (hxs : List.Forall₂ R xs ys) (hus : List.Forall₂ R us vs)
    (heq : ∀ x u, ∀ y ∈ ys, ∀ v ∈ vs, R x y → R u v → f (x, u) = some (g (y, v))) :
    (xs.zip us).allM f = some ((ys.zip vs).all g) := by
  induction hxs generalizing us vs with
  | nil => rfl
  | cons hxy _ ih =>
    cases hus with
    | nil => rfl
    | @cons u v us vs huv hus =>
      have hrest := ih hus fun x u y hy v hv =>
        heq x u y (List.mem_cons_of_mem _ hy) v (List.mem_cons_of_mem _ hv)
      rw [List.zip_cons_cons, List.zip_cons_cons, List.allM_cons, List.all_cons,
        heq _ _ _ List.mem_cons_self _ List.mem_cons_self hxy huv, hrest]
      cases g _ <;> rfl

theorem allM_eq_all {xs : List α} {ys : List β} {f : α → Option Bool} {g : β → Bool}
    (hxs : List.Forall₂ R xs ys) (heq : ∀ x, ∀ y ∈ ys, R x y → f x = some (g y)) :
    xs.allM f = some (ys.all g) := by
  induction hxs with
  | nil => rfl
  | @cons x y xs ys hxy _ ih =>
    rw [List.allM_cons, List.all_cons, heq _ _ List.mem_cons_self hxy,
      ih fun x y hy => heq x y (List.mem_cons_of_mem _ hy)]
    cases g y <;> rfl

/-- Searches that agree element by element find corresponding elements. -/
theorem findM?_cases {xs : List α} {ys : List β} {f : α → Option Bool} {g : β → Bool}
    (hxs : List.Forall₂ R xs ys) (heq : ∀ x, ∀ y ∈ ys, R x y → f x = some (g y)) :
    (xs.findM? f = some none ∧ ys.find? g = none) ∨
      ∃ x y, y ∈ ys ∧ R x y ∧ xs.findM? f = some (some x) ∧ ys.find? g = some y := by
  induction hxs with
  | nil => exact Or.inl ⟨rfl, rfl⟩
  | @cons x y xs ys hxy _ ih =>
    have hhead := heq x y List.mem_cons_self hxy
    rw [List.findM?, hhead, List.find?_cons]
    cases hg : g y with
    | true => exact Or.inr ⟨x, y, List.mem_cons_self, hxy, rfl, rfl⟩
    | false =>
      rcases ih fun x y hy => heq x y (List.mem_cons_of_mem _ hy) with hnone | hsome
      · exact Or.inl hnone
      · obtain ⟨x', y', hy', hrest⟩ := hsome
        exact Or.inr ⟨x', y', List.mem_cons_of_mem _ hy', hrest⟩

end Forall₂

/-- The cells that are open on the left side while a comparison goes on. -/
def ComparedIn (opened : Trail) (cell : CellId) : Prop := ∃ other, opened.contains (cell, other)

theorem comparedIn_add (opened : Trail) (cell right : CellId) :
    ComparedIn (opened.add (cell, right)) =
      fun other => other = cell ∨ ComparedIn opened other := by
  funext other
  simp only [ComparedIn, Trail.contains_add, Bool.or_eq_true, beq_iff_eq, Prod.mk.injEq, eq_iff_iff]
  constructor
  · rintro ⟨y, ⟨rfl, _⟩ | hopen⟩
    · exact Or.inl rfl
    · exact Or.inr ⟨y, hopen⟩
  · rintro (rfl | ⟨y, hopen⟩)
    · exact ⟨right, Or.inl ⟨rfl, rfl⟩⟩
    · exact ⟨y, Or.inr hopen⟩

theorem inside_empty (h : Heap) (d : Datum) : h.Inside (ComparedIn {}) d := by
  rintro cell items ds ⟨other, hopen⟩
  simp at hopen

theorem equalWithin?_of_ofBool {h : Heap} {a b : Value} {result : Bool}
    (hc : h.comparison a b = .ofBool result) (fuel : Nat) (opened : Trail) :
    h.equalWithin? (fuel + 1) opened a b = some result := by
  rw [equalWithin?, equalStep?_eq, hc]
  cases result <;> rfl

/-- The comparison of two leaves is settled at once. -/
theorem comparison_leaf {h : Heap} {a b : Value} (hne : a ≠ b) {d e : Datum} (ha : h.Unfolds a d)
    (hb : h.Unfolds b e) (hd : d.IsLeaf) (he : e.IsLeaf) :
    h.comparison a b = .ofBool (d.same e) := by
  rw [comparison, if_neg (by simpa using hne)]
  cases d with
  | group p xs => exact absurd rfl (hd p xs)
  | string s =>
    obtain ⟨r, hr, rfl⟩ := ha
    rw [content_of_content? hr]
    cases e with
    | group p xs => exact absurd rfl (he p xs)
    | string t =>
      obtain ⟨r', hr', rfl⟩ := hb
      rw [content_of_content? hr']
      simp [Datum.same]
    | _ =>
      rw [content_of_content? hb]
      simp [Datum.same, Comparison.ofBool]
  | _ =>
    rw [content_of_content? ha]
    cases e with
    | group p xs => exact absurd rfl (he p xs)
    | string t =>
      obtain ⟨r', hr', rfl⟩ := hb
      rw [content_of_content? hr']
      simp [Datum.same, Comparison.ofBool]
    | _ =>
      rw [content_of_content? hb]
      simp [Datum.same, Comparison.ofBool]

/-- A collection and a leaf are different. -/
theorem comparison_group_leaf {h : Heap} {a b : Value} {parts : Bracket × List Value} {d : Datum}
    (ha : h.parts? a = some parts) (hb : h.Unfolds b d) (hd : d.IsLeaf) :
    h.comparison a b = .different ∧ h.comparison b a = .different := by
  have hne : a ≠ b := by
    rintro rfl
    rw [parts?_eq_none hb hd] at ha
    cases ha
  rw [comparison, comparison, if_neg (by simpa using hne), if_neg (by simpa using hne.symm)]
  obtain ⟨p, vs⟩ := parts
  have hleaf : ∃ c, h.content? b = some c ∧ (∀ cell, c ≠ .list cell) ∧
      (∀ cell, c ≠ .vector cell) ∧ ∀ entries, c ≠ .map entries := by
    cases d with
    | group p xs => exact absurd rfl (hd p xs)
    | string s =>
      obtain ⟨r, hr, rfl⟩ := hb
      exact ⟨_, hr, by simp, by simp, by simp⟩
    | _ => exact ⟨_, hb, by simp, by simp, by simp⟩
  obtain ⟨c, hc, hlist, hvector, hmap⟩ := hleaf
  rw [content_of_content? hc]
  rcases parts?_cases ha with ⟨cell, values, rfl, hc', hcell, rfl⟩ |
    ⟨cell, values, rfl, hc', hcell, rfl⟩ | ⟨entries, rfl, hc', rfl⟩
  all_goals
    rw [content_of_content? hc']
    cases c <;> simp at hlist hvector hmap ⊢

/-- Two collections are different, or of one shape and compared by their parts. -/
theorem comparison_groups {h : Heap} {a b : Value} (hne : a ≠ b) {p q : Bracket}
    {vs us : List Value} (ha : h.parts? a = some (p, vs)) (hb : h.parts? b = some (q, us)) :
    (p ≠ q ∧ h.comparison a b = .different) ∨
    (∃ c d values others, p = q ∧ p ≠ .curly ∧ h.comparison a b = .sequences c d ∧
      h.cells[c]? = some values ∧ vs = values.toList ∧
      h.cells[d]? = some others ∧ us = others.toList) ∨
    (∃ m n, p = .curly ∧ q = .curly ∧ h.comparison a b = .maps m n ∧
      vs = alternate m.toList ∧ us = alternate n.toList) := by
  rw [comparison, if_neg (by simpa using hne)]
  rcases parts?_cases ha with ⟨c, values, rfl, hc, hcell, rfl⟩ |
      ⟨c, values, rfl, hc, hcell, rfl⟩ | ⟨m, rfl, hc, rfl⟩ <;>
    rcases parts?_cases hb with ⟨d, others, rfl, hd, hother, rfl⟩ |
      ⟨d, others, rfl, hd, hother, rfl⟩ | ⟨n, rfl, hd, rfl⟩ <;>
    rw [content_of_content? hc, content_of_content? hd]
  case inl.inl | inr.inl.inr.inl =>
    exact Or.inr (Or.inl ⟨c, d, values, others, rfl, by simp, rfl, hcell, rfl, hother, rfl⟩)
  case inr.inr.inr.inr => exact Or.inr (Or.inr ⟨m, n, rfl, rfl, rfl, rfl, rfl⟩)
  all_goals exact Or.inl ⟨by simp, rfl⟩

/-- Maps are compared by the first entries with equal keys. -/
theorem allM_entries {h : Heap} {fuel : Nat} {opened : Trail} {m n : Entries} {xs ys : List Datum}
    (hm : List.Forall₂ h.Unfolds (alternate m.toList) xs)
    (hn : List.Forall₂ h.Unfolds (alternate n.toList) ys)
    (hkeys : ∀ d ∈ ys, ∀ e ∈ xs, ∀ a b, h.Unfolds a d → h.Unfolds b e →
      h.equalWithin? fuel {} a b = some (d.same e))
    (hvalues : ∀ d ∈ xs, ∀ e ∈ ys, ∀ a b, h.Unfolds a d → h.Unfolds b e →
      h.equalWithin? fuel opened a b = some (d.same e)) :
    (m.toList.allM fun (key, value) => do
      match ← n.toList.findM? fun entry => h.equalWithin? fuel {} entry.1 key with
      | some entry => h.equalWithin? fuel opened value entry.2
      | none => some false) =
    some ((pairs xs).all fun entry =>
      match (pairs ys).find? fun other => other.1.same entry.1 with
      | some other => entry.2.same other.2
      | none => false) := by
  refine allM_eq_all (forall₂_pairs hm) ?_
  rintro ⟨key, value⟩ entry hentry ⟨hkey, hvalue⟩
  obtain ⟨hkeyMem, hvalueMem⟩ := mem_of_mem_pairs hentry
  have hfind := findM?_cases (f := fun other => h.equalWithin? fuel {} other.1 key)
    (g := fun other => other.1.same entry.1) (forall₂_pairs hn) fun other pair hpair hother =>
      hkeys _ (mem_of_mem_pairs hpair).1 _ hkeyMem _ _ hother.1 hkey
  rcases hfind with ⟨hnone, hnone'⟩ | ⟨other, pair, hpair, hother, hsome, hsome'⟩
  · simp only [hnone, hnone']
    rfl
  · simp only [hsome, hsome']
    exact hvalues _ hvalueMem _ (mem_of_mem_pairs hpair).2 _ _ hvalue hother.2

/-- A leaf is settled by the comparison alone. -/
theorem equalWithin?_of_leaf {h : Heap} {a b : Value} {d e : Datum} (hab : a ≠ b)
    (ha : h.Unfolds a d) (hb : h.Unfolds b e) (hleaf : d.IsLeaf ∨ e.IsLeaf) (fuel : Nat)
    (opened : Trail) : h.equalWithin? (fuel + 1) opened a b = some (d.same e) := by
  rcases d.leaf_or_group with hd | ⟨p, xs, rfl⟩
  · rcases e.leaf_or_group with he | ⟨q, ys, rfl⟩
    · exact equalWithin?_of_ofBool (comparison_leaf hab ha hb hd he) fuel opened
    · obtain ⟨us, hparts, _⟩ := unfolds_group.mp hb
      rw [(Datum.same_group_leaf hd q ys).2]
      exact equalWithin?_of_ofBool (comparison_group_leaf hparts ha hd).2 fuel opened
  · have he : e.IsLeaf := hleaf.resolve_left fun hd => hd p xs rfl
    obtain ⟨vs, hparts, _⟩ := unfolds_group.mp ha
    rw [(Datum.same_group_leaf he p xs).1]
    exact equalWithin?_of_ofBool (comparison_group_leaf hparts hb he).1 fuel opened

/-- A comparison that goes as deep as the trees has an answer, and it is that of the trees. -/
theorem equalWithin?_eq {h : Heap} {fuel : Nat} {opened : Trail} {a b : Value} {d e : Datum}
    (ha : h.Unfolds a d) (hb : h.Unfolds b e) (hd : d.Each Datum.IsTidy)
    (he : e.Each Datum.IsTidy) (hin : h.Inside (ComparedIn opened) d) (hdepth : d.height ≤ fuel)
    (hdepth' : e.height ≤ fuel) : h.equalWithin? fuel opened a b = some (d.same e) := by
  induction fuel generalizing opened a b d e with
  | zero =>
    have hpos := d.height_pos
    omega
  | succ fuel ih =>
    by_cases hab : a = b
    · subst hab
      cases ha.unique hb
      rw [Datum.same_self hd]
      exact equalWithin?_of_ofBool (by simp [comparison, Comparison.ofBool]) fuel opened
    rcases d.leaf_or_group with hleaf | ⟨p, xs, rfl⟩
    · exact equalWithin?_of_leaf hab ha hb (Or.inl hleaf) fuel opened
    rcases e.leaf_or_group with hleaf | ⟨q, ys, rfl⟩
    · exact equalWithin?_of_leaf hab ha hb (Or.inr hleaf) fuel opened
    obtain ⟨vs, hparts, hvs⟩ := unfolds_group.mp ha
    obtain ⟨us, hparts', hus⟩ := unfolds_group.mp hb
    obtain ⟨_, hxs⟩ := Datum.each_group.mp hd
    obtain ⟨_, hys⟩ := Datum.each_group.mp he
    -- What the induction gives for the parts of both sides, in either order.
    have hleft : ∀ d ∈ xs, d.height ≤ fuel := by
      intro d hd
      have hlt : d.height < (Datum.group p xs).height := Datum.height_lt_group hd
      omega
    have hright : ∀ e ∈ ys, e.height ≤ fuel := by
      intro e he
      have hlt : e.height < (Datum.group q ys).height := Datum.height_lt_group he
      omega
    rcases comparison_groups hab hparts hparts' with ⟨hpq, hc⟩ |
      ⟨c, d, values, others, rfl, hp, hc, hcell, rfl, hother, rfl⟩ |
      ⟨m, n, rfl, rfl, hc, rfl, rfl⟩
    · rw [Datum.same_group_of_ne hpq]
      exact equalWithin?_of_ofBool hc fuel opened
    · have hclosed : opened.contains (c, d) = false :=
        Bool.eq_false_iff.mpr fun hopen => hin.not_open hcell hvs ⟨d, hopen⟩
      have hinner : ∀ x ∈ xs, h.Inside (ComparedIn (opened.add (c, d))) x := by
        intro x hx
        rw [comparedIn_add]
        exact hin.open hcell hvs hx
      have hlength : ((h.sequence c).size == (h.sequence d).size) =
          (xs.length == ys.length) := by
        rw [← hvs.length_eq, ← hus.length_eq, ← items_eq hcell, ← items_eq hother]
        simp [Heap.items]
      rw [equalWithin?, equalStep?_eq, hc, Datum.same_sequences hp]
      simp only [hclosed, Bool.false_eq_true, if_false, items_eq hcell, items_eq hother, hlength]
      cases xs.length == ys.length with
      | false => rfl
      | true =>
        refine allM_zip_eq hvs hus ?_
        intro _ _ x hx y hy hax hby
        exact ih hax hby (hxs x hx) (hys y hy) (hinner x hx) (hleft x hx) (hright y hy)
    · have hlength : (m.size == n.size) = ((pairs xs).length == (pairs ys).length) := by
        rw [← (forall₂_pairs hvs).length_eq, ← (forall₂_pairs hus).length_eq]
        simp
      rw [equalWithin?, equalStep?_eq, hc, Datum.same_maps]
      simp only [hlength]
      cases (pairs xs).length == (pairs ys).length with
      | false => rfl
      | true =>
        refine allM_entries hvs hus ?_ ?_
        · intro y hy x hx _ _ hby hax
          exact ih hby hax (hys y hy) (hxs x hx) (inside_empty h y) (hright y hy) (hleft x hx)
        · intro x hx y hy _ _ hax hby
          exact ih hax hby (hxs x hx) (hys y hy) (hin.item hx) (hleft x hx) (hright y hy)

theorem equal_eq_same {h : Heap} {a b : Value} {d e : Datum} (ha : h.Unfolds a d)
    (hb : h.Unfolds b e) (hd : d.Each Datum.IsTidy) (he : e.Each Datum.IsTidy) :
    h.equal a b = d.same e := by
  have hdepth : 1 * (h.objects.size + 2) * 1 ≤ h.equalityDepth :=
    Nat.mul_le_mul (Nat.mul_le_mul_right _ (Nat.le_add_left ..)) (by omega)
  have hle := ha.height_le
  have hle' := hb.height_le
  rw [equal_eq, equalInside, equalWithin?_eq ha hb hd he (inside_empty h d) (by omega) (by omega)]
  rfl

end Lisp.Heap
