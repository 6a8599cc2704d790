import Lisp.Heap.Equality
import Lisp.Proofs.Datum.Equality
import Mathlib.Data.Finset.Card
import Mathlib.Data.List.Forall2
import Mathlib.Order.Interval.Finset.Nat
import Mathlib.Tactic.Choose

/-!
Values that unfold to finite trees. A value unfolds to a datum when its content and, through lists,
vectors and maps, everything it holds is that of the datum; such a value is finite and not inside
itself, but its parts may be shared in any way. The datum is determined by the value and does not
change when the heap grows. It nests no deeper than there are objects, since the objects on a way
down the tree are all different.
-/
namespace Lisp.Heap

/-- What a value is, provided that its address was handed out. -/
def content? (h : Heap) : Value → Option Content
  | .object address => (h.objects[address]?).map (·.content)
  | v => some (h.content v)

theorem content_of_content? {h : Heap} {v : Value} {c : Content} (hc : h.content? v = some c) :
    h.content v = c := by
  cases v with
  | object address =>
    obtain ⟨o, ho, rfl⟩ := Option.map_eq_some_iff.mp hc
    simp [content, object, Array.getD_eq_getD_getElem?, ho]
  | nil => exact Option.some.inj hc
  | bool b => exact Option.some.inj hc
  | symbol name => exact Option.some.inj hc

/-- The bracket that goes around the values a collection holds, and these values. -/
def parts? (h : Heap) (v : Value) : Option (Bracket × List Value) :=
  match h.content? v with
  | some (.list cell) => (h.cells[cell]?).map fun items => (.round, items.toList)
  | some (.vector cell) => (h.cells[cell]?).map fun items => (.square, items.toList)
  | some (.map entries) => some (.curly, alternate entries.toList)
  | _ => none

theorem parts?_cases {h : Heap} {v : Value} {b : Bracket} {vs : List Value}
    (hparts : h.parts? v = some (b, vs)) :
    (∃ cell items, b = .round ∧ h.content? v = some (.list cell) ∧
      h.cells[cell]? = some items ∧ vs = items.toList) ∨
    (∃ cell items, b = .square ∧ h.content? v = some (.vector cell) ∧
      h.cells[cell]? = some items ∧ vs = items.toList) ∨
    (∃ entries, b = .curly ∧ h.content? v = some (.map entries) ∧
      vs = alternate entries.toList) := by
  unfold parts? at hparts
  split at hparts
  · rename_i cell hc
    obtain ⟨items, hcell, heq⟩ := Option.map_eq_some_iff.mp hparts
    cases heq
    exact Or.inl ⟨cell, items, rfl, hc, hcell, rfl⟩
  · rename_i cell hc
    obtain ⟨items, hcell, heq⟩ := Option.map_eq_some_iff.mp hparts
    cases heq
    exact Or.inr (Or.inl ⟨cell, items, rfl, hc, hcell, rfl⟩)
  · rename_i entries hc
    cases hparts
    exact Or.inr (Or.inr ⟨entries, rfl, hc, rfl⟩)
  · cases hparts

theorem items_eq {h : Heap} {cell : CellId} {items : Sequence Value}
    (hcell : h.cells[cell]? = some items) : h.items cell = items.toList := by
  simp [Heap.items, sequence, Array.getD_eq_getD_getElem?, hcell]

theorem elements_of_parts? {h : Heap} {v : Value} {vs : List Value}
    (hv : h.parts? v = some (.round, vs)) :
    ∃ cell, h.content v = .list cell ∧ (h.sequence cell).toList = vs := by
  rcases parts?_cases hv with ⟨cell, items, -, hcontent, hcell, rfl⟩ | ⟨_, _, hround, -⟩ |
    ⟨_, hround, -⟩
  · exact ⟨cell, content_of_content? hcontent, items_eq hcell⟩
  · cases hround
  · cases hround

mutual

/-- The value, with all it holds, is the datum. -/
def Unfolds (h : Heap) (v : Value) : Datum → Prop
  | .nil => h.content? v = some .nil
  | .bool b => h.content? v = some (.bool b)
  | .int n => h.content? v = some (.int n)
  | .float x => h.content? v = some (.float x)
  | .string s => ∃ r : Rope, h.content? v = some (.string r) ∧ r.toList = s
  | .symbol name => h.content? v = some (.symbol name)
  | .keyword name => h.content? v = some (.keyword name)
  | .group b items => ∃ vs, h.parts? v = some (b, vs) ∧ UnfoldsAll h vs items

def UnfoldsAll (h : Heap) (vs : List Value) : List Datum → Prop
  | [] => vs = []
  | d :: rest => ∃ v more, vs = v :: more ∧ Unfolds h v d ∧ UnfoldsAll h more rest

end

mutual

/-- Whether a value is a datum can be computed. -/
def decidableUnfolds (h : Heap) (v : Value) : (d : Datum) → Decidable (h.Unfolds v d)
  | .nil => inferInstanceAs (Decidable (h.content? v = some .nil))
  | .bool b => inferInstanceAs (Decidable (h.content? v = some (.bool b)))
  | .int n => inferInstanceAs (Decidable (h.content? v = some (.int n)))
  | .float x => inferInstanceAs (Decidable (h.content? v = some (.float x)))
  | .symbol name => inferInstanceAs (Decidable (h.content? v = some (.symbol name)))
  | .keyword name => inferInstanceAs (Decidable (h.content? v = some (.keyword name)))
  | .string s =>
    match hc : h.content? v with
    | some (.string r) =>
      if hr : r.toList = s then .isTrue ⟨r, hc, hr⟩
      else .isFalse fun ⟨_, hc', hr'⟩ => by
        cases hc.symm.trans hc'
        exact hr hr'
    | none | some .nil | some (.bool _) | some (.int _) | some (.float _) | some (.symbol _)
    | some (.keyword _) | some (.list _) | some (.vector _) | some (.map _) | some (.atom _)
    | some (.native _) | some (.closure _) | some (.error _) =>
      .isFalse fun ⟨_, hc', _⟩ => by cases hc.symm.trans hc'
  | .group b items =>
    match hp : h.parts? v with
    | none => .isFalse fun ⟨_, hp', _⟩ => by cases hp.symm.trans hp'
    | some (b', vs) =>
      match decidableUnfoldsAll h vs items with
      | .isTrue hall =>
        if hb : b' = b then .isTrue ⟨vs, hb ▸ hp, hall⟩
        else .isFalse fun ⟨_, hp', _⟩ => by
          cases hp.symm.trans hp'
          exact hb rfl
      | .isFalse hall => .isFalse fun ⟨_, hp', hall'⟩ => by
        cases hp.symm.trans hp'
        exact hall hall'

def decidableUnfoldsAll (h : Heap) (vs : List Value) :
    (items : List Datum) → Decidable (h.UnfoldsAll vs items)
  | [] => inferInstanceAs (Decidable (vs = []))
  | d :: rest =>
    match vs with
    | [] => .isFalse fun ⟨_, _, hvs, _⟩ => by cases hvs
    | v :: more =>
      match decidableUnfolds h v d, decidableUnfoldsAll h more rest with
      | .isTrue hv, .isTrue hmore => .isTrue ⟨v, more, rfl, hv, hmore⟩
      | .isFalse hv, _ => .isFalse fun ⟨_, _, hvs, hv', _⟩ => by
        cases hvs
        exact hv hv'
      | _, .isFalse hmore => .isFalse fun ⟨_, _, hvs, _, hmore'⟩ => by
        cases hvs
        exact hmore hmore'

end

instance (h : Heap) (v : Value) (d : Datum) : Decidable (h.Unfolds v d) := h.decidableUnfolds v d

theorem unfoldsAll_iff {h : Heap} {vs : List Value} {items : List Datum} :
    h.UnfoldsAll vs items ↔ List.Forall₂ h.Unfolds vs items := by
  induction items generalizing vs with
  | nil => simp [UnfoldsAll]
  | cons d rest ih =>
    rw [UnfoldsAll, List.forall₂_cons_right_iff]
    simp only [ih]
    constructor
    · rintro ⟨v, more, rfl, hv, hmore⟩
      exact ⟨v, more, hv, hmore, rfl⟩
    · rintro ⟨v, more, hv, hmore, rfl⟩
      exact ⟨v, more, rfl, hv, hmore⟩

theorem unfolds_group {h : Heap} {v : Value} {b : Bracket} {items : List Datum} :
    h.Unfolds v (.group b items) ↔
      ∃ vs, h.parts? v = some (b, vs) ∧ List.Forall₂ h.Unfolds vs items := by
  rw [Unfolds]
  simp only [unfoldsAll_iff]

/-- A leaf of a tree is no collection. -/
theorem parts?_eq_none {h : Heap} {v : Value} {d : Datum} (hv : h.Unfolds v d)
    (hleaf : d.IsLeaf) : h.parts? v = none := by
  unfold parts?
  cases d with
  | group b items => exact absurd rfl (hleaf b items)
  | string s =>
    obtain ⟨r, hr, _⟩ := hv
    rw [hr]
  | _ =>
    rw [Unfolds] at hv
    rw [hv]

/-- A value unfolds to one datum at most. -/
theorem Unfolds.unique {h : Heap} {v : Value} {d e : Datum} (hd : h.Unfolds v d)
    (he : h.Unfolds v e) : d = e := by
  induction d generalizing v e with
  | group b items ih =>
    obtain ⟨vs, hparts, hitems⟩ := unfolds_group.mp hd
    cases e with
    | group c others =>
      obtain ⟨us, hparts', hothers⟩ := unfolds_group.mp he
      obtain ⟨rfl, rfl⟩ : b = c ∧ vs = us := by simpa [hparts] using hparts'
      clear hparts hparts' hd he
      congr 1
      induction hitems generalizing others with
      | nil => exact (List.forall₂_nil_left_iff.mp hothers).symm
      | cons hv _ ihs =>
        obtain ⟨e, more, hve, hmore, rfl⟩ := List.forall₂_cons_left_iff.mp hothers
        rw [ih _ List.mem_cons_self hv hve,
          ihs (fun d hd => ih d (List.mem_cons_of_mem _ hd)) more hmore]
    | _ =>
      rw [parts?_eq_none he (by simp [Datum.IsLeaf])] at hparts
      cases hparts
  | string s =>
    obtain ⟨r, hr, rfl⟩ := hd
    cases e with
    | string t =>
      obtain ⟨r', hr', rfl⟩ := he
      rw [hr] at hr'
      cases hr'
      rfl
    | group c others =>
      obtain ⟨us, hparts, _⟩ := unfolds_group.mp he
      simp [parts?, hr] at hparts
    | _ => simp [Unfolds, hr] at he
  | _ =>
    rw [Unfolds] at hd
    cases e with
    | string t =>
      obtain ⟨r, hr, _⟩ := he
      simp [hd] at hr
    | group c others =>
      obtain ⟨us, hparts, _⟩ := unfolds_group.mp he
      simp [parts?, hd] at hparts
    | _ =>
      have hcontent := Option.some.inj (hd.symm.trans he)
      cases hcontent <;> rfl

theorem rightUnique_unfolds (h : Heap) : Relator.RightUnique h.Unfolds :=
  fun _ _ _ hd he => hd.unique he

/-- Everything that was in the heap is still there. -/
structure Grows (h h' : Heap) : Prop where
  objects : ∀ (address : Nat) o, h.objects[address]? = some o → h'.objects[address]? = some o
  cells : ∀ (cell : CellId) items, h.cells[cell]? = some items → h'.cells[cell]? = some items

theorem Grows.refl (h : Heap) : h.Grows h := ⟨fun _ _ ho => ho, fun _ _ hs => hs⟩

theorem Grows.trans {h h' h'' : Heap} (hab : h.Grows h') (hbc : h'.Grows h'') : h.Grows h'' :=
  ⟨fun a o ho => hbc.objects a o (hab.objects a o ho),
    fun c s hs => hbc.cells c s (hab.cells c s hs)⟩

theorem Grows.content? {h h' : Heap} (hgrows : h.Grows h') {v : Value} {c : Content}
    (hc : h.content? v = some c) : h'.content? v = some c := by
  cases v with
  | object address =>
    obtain ⟨o, ho, rfl⟩ := Option.map_eq_some_iff.mp hc
    rw [Heap.content?, hgrows.objects address o ho]
    rfl
  | _ => exact hc

theorem Grows.parts? {h h' : Heap} (hgrows : h.Grows h') {v : Value} {b : Bracket}
    {vs : List Value} (hparts : h.parts? v = some (b, vs)) : h'.parts? v = some (b, vs) := by
  rcases parts?_cases hparts with ⟨cell, items, rfl, hc, hcell, rfl⟩ |
    ⟨cell, items, rfl, hc, hcell, rfl⟩ | ⟨entries, rfl, hc, rfl⟩
  · simp [Heap.parts?, hgrows.content? hc, hgrows.cells cell items hcell]
  · simp [Heap.parts?, hgrows.content? hc, hgrows.cells cell items hcell]
  · simp [Heap.parts?, hgrows.content? hc]

theorem Grows.unfolds {h h' : Heap} (hgrows : h.Grows h') {v : Value} {d : Datum}
    (hv : h.Unfolds v d) : h'.Unfolds v d := by
  induction d generalizing v with
  | group b items ih =>
    obtain ⟨vs, hparts, hitems⟩ := unfolds_group.mp hv
    refine unfolds_group.mpr ⟨vs, hgrows.parts? hparts, ?_⟩
    clear hparts hv
    induction hitems with
    | nil => exact .nil
    | cons hd _ ihs =>
      exact .cons (ih _ List.mem_cons_self hd) (ihs fun d hd => ih d (List.mem_cons_of_mem _ hd))
  | string s =>
    obtain ⟨r, hr, hs⟩ := hv
    exact ⟨r, hgrows.content? hr, hs⟩
  | _ => exact hgrows.content? hv

theorem exists_of_mem_right {α β : Type} {R : α → β → Prop} {xs : List α} {ys : List β} {y : β}
    (h : List.Forall₂ R xs ys) (hy : y ∈ ys) : ∃ x ∈ xs, R x y := by
  induction h with
  | nil => cases hy
  | cons hx _ ih =>
    rcases List.mem_cons.mp hy with rfl | hy
    · exact ⟨_, List.mem_cons_self, hx⟩
    · obtain ⟨x, hmem, hx⟩ := ih hy
      exact ⟨x, List.mem_cons_of_mem _ hmem, hx⟩

/-- Only an object that was made holds other values. -/
theorem eq_object_of_parts? {h : Heap} {v : Value} {parts : Bracket × List Value}
    (hparts : h.parts? v = some parts) : ∃ address < h.objects.size, v = .object address := by
  cases v with
  | object address =>
    refine ⟨address, ?_, rfl⟩
    by_contra hge
    have hnone : h.objects[address]? = none := by simp; omega
    simp [parts?, content?, hnone] at hparts
  | _ => cases hparts

/-- Every height from two up to that of the tree is the height of an object on the way down. -/
theorem exists_object_of_height {h : Heap} {v : Value} {d : Datum} (hv : h.Unfolds v d) (k : Nat)
    (hlow : 2 ≤ k) (hhigh : k ≤ d.height) :
    ∃ address < h.objects.size, ∃ e, h.Unfolds (.object address) e ∧ e.height = k := by
  induction d generalizing v with
  | group b items ih =>
    obtain ⟨vs, hparts, hitems⟩ := unfolds_group.mp hv
    by_cases hk : k = (Datum.group b items).height
    · obtain ⟨address, hlt, rfl⟩ := eq_object_of_parts? hparts
      exact ⟨address, hlt, _, hv, hk.symm⟩
    · rw [Datum.height] at hhigh hk
      have hne : items ≠ [] := by
        rintro rfl
        simp only [Datum.heightOf] at hhigh
        omega
      obtain ⟨d, hd, hheight⟩ := Datum.exists_height_eq hne
      obtain ⟨u, _, hu⟩ := exists_of_mem_right hitems hd
      exact ih d hd hu (by omega)
  | _ =>
    simp only [Datum.height] at hhigh
    omega

/-- Objects of different heights on a way down are different, so a tree is no higher than there are
objects, its leaves apart. -/
theorem Unfolds.height_le {h : Heap} {v : Value} {d : Datum} (hv : h.Unfolds v d) :
    d.height ≤ h.objects.size + 1 := by
  have : Nonempty Datum := ⟨.nil⟩
  choose! address hlt e he hheight using exists_object_of_height hv
  have hmaps : Set.MapsTo address (Finset.Icc 2 d.height) (Finset.range h.objects.size) := by
    intro k hk
    obtain ⟨hlow, hhigh⟩ := Finset.mem_Icc.mp hk
    exact Finset.mem_coe.mpr (Finset.mem_range.mpr (hlt k hlow hhigh))
  have hinj : Set.InjOn address (Finset.Icc 2 d.height) := by
    intro k hk l hl hkl
    obtain ⟨hlow, hhigh⟩ := Finset.mem_Icc.mp hk
    obtain ⟨hlow', hhigh'⟩ := Finset.mem_Icc.mp hl
    have hsame : e k = e l := by
      have hl := he l hlow' hhigh'
      rw [← hkl] at hl
      exact (he k hlow hhigh).unique hl
    rw [← hheight k hlow hhigh, ← hheight l hlow' hhigh', hsame]
  have hcard := Finset.card_le_card_of_injOn address hmaps hinj
  rw [Nat.card_Icc, Finset.card_range] at hcard
  omega

/-- The datum is inside all sequences that are open. -/
def Inside (h : Heap) (isOpen : CellId → Prop) (d : Datum) : Prop :=
  ∀ cell items ds, isOpen cell → h.cells[cell]? = some items →
    List.Forall₂ h.Unfolds items.toList ds → d.height ≤ Datum.heightOf ds

section Inside

variable {h : Heap} {isOpen : CellId → Prop} {b : Bracket} {items : List Datum} {cell : CellId}
  {values : Sequence Value}

theorem Inside.item (hin : h.Inside isOpen (.group b items)) {d : Datum} (hd : d ∈ items) :
    h.Inside isOpen d := by
  intro cell values ds hopen hcell hunfolds
  exact Nat.le_trans (Nat.le_of_lt (Datum.height_lt_group hd))
    (hin cell values ds hopen hcell hunfolds)

/-- A sequence is not open around itself. -/
theorem Inside.not_open (hin : h.Inside isOpen (.group b items))
    (hcell : h.cells[cell]? = some values)
    (hunfolds : List.Forall₂ h.Unfolds values.toList items) : ¬ isOpen cell := by
  intro hopen
  have hle := hin cell values items hopen hcell hunfolds
  rw [Datum.height] at hle
  omega

/-- Opening a sequence leaves its items inside all that is open. -/
theorem Inside.open (hin : h.Inside isOpen (.group b items))
    (hcell : h.cells[cell]? = some values)
    (hunfolds : List.Forall₂ h.Unfolds values.toList items) {d : Datum} (hd : d ∈ items) :
    h.Inside (fun other => other = cell ∨ isOpen other) d := by
  intro other others ds hopen hother hunfolds'
  rcases hopen with rfl | hopen
  · rw [hcell] at hother
    cases hother
    have hds : items = ds :=
      List.right_unique_forall₂' h.rightUnique_unfolds hunfolds hunfolds'
    rw [← hds]
    exact Datum.height_le_heightOf hd
  · exact hin.item hd other others ds hopen hother hunfolds'

end Inside

end Lisp.Heap
