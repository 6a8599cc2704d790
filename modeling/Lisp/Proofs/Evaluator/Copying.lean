import Lisp.Proofs.Evaluator.Filling
import Lisp.Proofs.Heap.Embedding

/-!
Templates that are kept. While the lists of a template are not appended to, those inside its keys
included, keys are equal just when they were, so what is made of the template depends on the answers
alone. A template without holes is copied: what is made of it is equal to it, as long as the keys of
its maps differ.
-/
namespace Lisp

open Evaluator

namespace Heap

variable {h g u : Heap}

/-- What a heap has is in all heaps between it and one that it has grown into. -/
theorem Grows.agreesOn (hgrows : h.Grows u) (hsound : h.IsSound) (hhg : h.Precedes g)
    (hgu : g.Precedes u) : AgreesOn h.Has h g where
  content _ hv := hhg.content_of_has hv
  items v cell _ hcell := by
    have hlt : cell < h.cells.size := by
      have hcontent := hsound.content v
      cases hc : h.content v <;> rw [hc] at hcell hcontent <;> cases hcell <;> exact hcontent
    exact hhg.items_eq hgu (congrArg List.length (hgrows.items hlt).symm)

/-- What a walk through a template goes on to: the elements, and the values of a map. -/
def Walks (h : Heap) (a b : Value) : Prop :=
  (∃ cell, (h.content a).cell? = some cell ∧ b ∈ h.items cell) ∨
    ∃ entries, h.content a = .map entries ∧ ∃ entry ∈ entries.toList, entry.2 = b

/-- The keys of every map that a walk comes to differ. -/
def MapsDiffer (h : Heap) (v : Value) : Prop :=
  ∀ x entries, Relation.ReflTransGen h.Walks v x → h.content x = .map entries →
    h.KeysDiffer entries

/-- The values of a set are without cycles, and the keys of their maps differ in both heaps. -/
structure IsCopyable (base u : Heap) (S : Value → Prop) : Prop where
  walks : ∀ a b, S a → u.Walks a b → S b
  loopless : ∀ v, S v → u.IsLoopless v
  differ : ∀ v entries, S v → u.content v = .map entries →
    base.KeysDiffer entries ∧ u.KeysDiffer entries

theorem Walks.holds {a b : Value} (hab : h.Walks a b) : h.Holds a b := by
  rcases hab with ⟨cell, hcell, hb⟩ | ⟨entries, hmap, entry, hentry, rfl⟩
  · exact (holds_iff_mem_items hcell).mpr hb
  · exact (encloses_entry hmap hentry).2.holds

/-- What a walk comes to can be copied once the heap has grown. -/
theorem MapsDiffer.isCopyable {v : Value} (hdiffer : h.MapsDiffer v) (hsound : h.IsSound)
    (hv : h.Has v) (hloopless : h.IsLoopless v) (hgrows : h.Grows u) (hsize : h.NotSmaller u) :
    IsCopyable h u (Relation.ReflTransGen h.Walks v) := by
  have hagree := hgrows.agreesOn hsound hgrows.precedes (.refl u)
  have hreached : ∀ {x}, Relation.ReflTransGen h.Walks v x → Relation.ReflTransGen h.Holds v x :=
    fun hx => Relation.ReflTransGen.mono (fun _ _ => Walks.holds) _ _ hx
  have hhas : ∀ {x}, Relation.ReflTransGen h.Walks v x → h.Has x := fun hx =>
    hsound.hereditary_has.reached hv (hreached hx)
  have hwalked : ∀ {x}, Relation.ReflTransGen h.Walks v x → h.IsLoopless x := fun hx y hy =>
    hloopless y ((hreached hx).trans hy)
  refine ⟨fun a b ha hab => ha.tail ?_, fun x hx => ?_, fun x entries hx hmap => ?_⟩
  · have hcontent := hagree.content a (hhas ha)
    rcases hab with ⟨cell, hcell, hb⟩ | ⟨entries, hmap, hb⟩
    · rw [hcontent] at hcell
      exact .inl ⟨cell, hcell, hagree.items a cell (hhas ha) hcell ▸ hb⟩
    · exact .inr ⟨entries, hcontent ▸ hmap, hb⟩
  · exact hagree.isLoopless hsound.hereditary_has (hhas hx) (hwalked hx)
  · rw [hagree.content x (hhas hx)] at hmap
    have hbefore := hdiffer x entries hx hmap
    refine ⟨hbefore,
      hbefore.of_isLoopless hagree hsound.hereditary_has hsize fun entry hentry => ?_⟩
    have hkey := (encloses_entry hmap hentry).1.holds
    exact ⟨hsound.hereditary_has x _ (hhas hx) hkey, (hwalked hx).held hkey⟩

end Heap

section Reading

variable {h u : Heap} {S : Value → Prop}

theorem holeForms?_of_agreesOn (hagree : Heap.AgreesOn S h u) (hS : h.Hereditary S) {v : Value}
    (hv : S v) (special : Special) : holeForms? special u v = holeForms? special h v :=
  holeForms?_congr (hagree.content v hv)
    (fun cell hlist => hagree.items v cell hv (by rw [hlist]; rfl))
    fun x hx => hagree.content x (hS v x hv hx)

mutual

/-- Heaps that agree on a value read it as the same template. -/
theorem Template.Describes.of_agreesOn {t : Template} {v : Value} (ht : t.Describes h v)
    (hagree : Heap.AgreesOn S h u) (hS : h.Hereditary S) (hv : S v) : t.Describes u v := by
  have hcontent := hagree.content v hv
  have hhole := holeForms?_of_agreesOn hagree hS hv
  cases t with
  | constant c =>
    obtain ⟨rfl, hplain⟩ := ht
    refine ⟨rfl, ?_, ?_, ?_⟩ <;> rw [hcontent]
    exacts [hplain.list, hplain.vector, hplain.map]
  | hole forms => exact (hhole .unquote).trans ht
  | list items =>
    obtain ⟨hnone, cell, hlist, hitems⟩ := ht
    have hcell : (h.content v).cell? = some cell := by rw [hlist]; rfl
    refine ⟨(hhole .unquote).trans hnone, cell, hcontent.trans hlist, ?_⟩
    rw [hagree.items v cell hv hcell]
    exact hitems.of_agreesOn hagree hS (items_of_hereditary hS hv hcell)
  | vector items =>
    obtain ⟨cell, hvector, hitems⟩ := ht
    have hcell : (h.content v).cell? = some cell := by rw [hvector]; rfl
    refine ⟨cell, hcontent.trans hvector, ?_⟩
    rw [hagree.items v cell hv hcell]
    exact hitems.of_agreesOn hagree hS (items_of_hereditary hS hv hcell)
  | map entries =>
    obtain ⟨found, hmap, hentries⟩ := ht
    refine ⟨found, hcontent.trans hmap, ?_⟩
    exact hentries.of_agreesOn hagree hS fun entry hentry =>
      (entries_of_hereditary hS hv hmap entry hentry).2

theorem TemplateItems.Describes.of_agreesOn {items : TemplateItems} {vs : List Value}
    (hitems : items.Describes h vs) (hagree : Heap.AgreesOn S h u) (hS : h.Hereditary S)
    (hvs : ∀ v ∈ vs, S v) : items.Describes u vs := by
  cases items with
  | nil => exact hitems
  | splice forms rest =>
    obtain ⟨v, more, rfl, hhole, hrest⟩ := hitems
    obtain ⟨hv, hmore⟩ := List.forall_mem_cons.mp hvs
    exact ⟨v, more, rfl, (holeForms?_of_agreesOn hagree hS hv .splice).trans hhole,
      hrest.of_agreesOn hagree hS hmore⟩
  | cons t rest =>
    obtain ⟨v, more, rfl, hhole, ht, hrest⟩ := hitems
    obtain ⟨hv, hmore⟩ := List.forall_mem_cons.mp hvs
    exact ⟨v, more, rfl, (holeForms?_of_agreesOn hagree hS hv .splice).trans hhole,
      ht.of_agreesOn hagree hS hv, hrest.of_agreesOn hagree hS hmore⟩

theorem TemplateEntries.Describes.of_agreesOn {entries : TemplateEntries}
    {found : List (Value × Value)} (hentries : entries.Describes h found)
    (hagree : Heap.AgreesOn S h u) (hS : h.Hereditary S) (hfound : ∀ entry ∈ found, S entry.2) :
    entries.Describes u found := by
  cases entries with
  | nil => exact hentries
  | cons key t rest =>
    obtain ⟨v, more, rfl, ht, hrest⟩ := hentries
    obtain ⟨hv, hmore⟩ := List.forall_mem_cons.mp hfound
    exact ⟨v, more, rfl, ht.of_agreesOn hagree hS hv, hrest.of_agreesOn hagree hS hmore⟩

end

end Reading

section Keys

variable {base g u : Heap} {t : Template} {v : Value}

/-- The lists of the template have not been appended to, and neither have those inside its keys. -/
structure Template.IsKept (t : Template) (v : Value) (base u : Heap) : Prop where
  describes : t.Describes u v
  keys : ∀ key ∈ t.keys, ∀ x cell, Relation.ReflTransGen base.Holds key x →
    (base.content x).cell? = some cell → u.items cell = base.items cell

/-- Keys are equal just when they were. -/
theorem Template.IsKept.equal_eq (hkept : t.IsKept v base u) (ht : t.Describes base v)
    (hsound : base.IsSound) (hv : base.Has v) (hloopless : base.IsLoopless v)
    (hg : base.IsBetween u g) {k l : Value} (hk : k ∈ t.keys) (hl : l ∈ t.keys) :
    g.equal k l = base.equal k l := by
  have hreached : ∀ key ∈ t.keys, Relation.ReflTransGen base.Holds v key :=
    (ht.isOver (fun _ _ ha hab => ha.tail hab) .refl).keys
  let S : Value → Prop := fun x => ∃ key ∈ t.keys, Relation.ReflTransGen base.Holds key x
  have hS : base.Hereditary S := fun a b ⟨key, hkey, ha⟩ hab => ⟨key, hkey, ha.tail hab⟩
  have hagree : Heap.AgreesOn S base g := by
    refine ⟨fun x ⟨key, hkey, hx⟩ => ?_, fun x cell ⟨key, hkey, hx⟩ hcell => ?_⟩
    · exact hg.1.precedes.content_of_has
        (hsound.hereditary_has.reached hv ((hreached key hkey).trans hx))
    · have hlength := congrArg List.length (hkept.keys key hkey x cell hx hcell)
      exact hg.1.precedes.items_eq hg.2.precedes hlength.symm
  have hkeys : ∀ key ∈ t.keys, base.IsLoopless key := fun key hkey x hx =>
    hloopless x ((hreached key hkey).trans hx)
  exact hagree.equal_of_isLoopless hg.1.notSmaller hS ⟨k, hk, .refl⟩ ⟨l, hl, .refl⟩
    (hkeys k hk) (hkeys l hl)

end Keys

section Copies

variable {base u : Heap} {p : Nat → Prop} {S : Value → Prop}

mutual

/-- The filling of a template without holes is a copy of it. -/
theorem Template.IsFilled.isCopy {t : Template} {answers : List (List Value)} {v x : Value}
    (hfilled : t.IsFilled (· = base) p u answers x) (hnone : t.holes = []) (ht : t.Describes u v)
    (hcopyable : Heap.IsCopyable base u S) (hv : S v) : u.IsCopy v x := by
  have hloopless := hcopyable.loopless v hv
  cases t with
  | constant c =>
    obtain ⟨rfl, -⟩ := ht
    obtain ⟨-, rfl⟩ := hfilled
    exact Heap.isCopy_self hloopless
  | hole forms => cases hnone
  | list items =>
    obtain ⟨-, cell, hlist, hitems⟩ := ht
    obtain ⟨address, made, rfl, -, hobject, hmade⟩ := hfilled
    have hinside : ∀ y ∈ u.items cell, S y := fun y hy =>
      hcopyable.walks v y hv (.inl ⟨cell, by rw [hlist]; rfl, hy⟩)
    exact Heap.isCopy_sequence hloopless (.inl ⟨hlist, Heap.content_of_objects hobject⟩)
      (hmade.isCopy hnone hitems hcopyable hinside)
  | vector items =>
    obtain ⟨cell, hvector, hitems⟩ := ht
    obtain ⟨address, made, rfl, -, hobject, hmade⟩ := hfilled
    have hinside : ∀ y ∈ u.items cell, S y := fun y hy =>
      hcopyable.walks v y hv (.inl ⟨cell, by rw [hvector]; rfl, hy⟩)
    exact Heap.isCopy_sequence hloopless (.inr ⟨hvector, Heap.content_of_objects hobject⟩)
      (hmade.isCopy hnone hitems hcopyable hinside)
  | map entries =>
    obtain ⟨found, hmap, hentries⟩ := ht
    obtain ⟨address, g, vs, rfl, -, hg, hobject, hmade⟩ := hfilled
    rw [hg] at hobject
    have hinside : ∀ entry ∈ found.toList, S entry.2 := fun entry hentry =>
      hcopyable.walks v entry.2 hv (.inr ⟨found, hmap, entry, hentry, rfl⟩)
    obtain ⟨made, rfl, hcopies⟩ := hmade.isCopy hnone hentries hcopyable hinside
    obtain ⟨hbefore, hnow⟩ := hcopyable.differ v found hv hmap
    refine Heap.isCopy_map hloopless hmap (Heap.content_of_objects hobject) hnow ?_
    rwa [Heap.toList_entriesOf (Heap.pairwise_of_forall₂ hcopies hbefore)]

theorem TemplateItems.IsFilled.isCopy {items : TemplateItems} {answers : List (List Value)}
    {vs xs : List Value} (hfilled : items.IsFilled (· = base) p u answers xs)
    (hnone : items.holes = []) (hitems : items.Describes u vs)
    (hcopyable : Heap.IsCopyable base u S) (hvs : ∀ v ∈ vs, S v) : List.Forall₂ u.IsCopy vs xs := by
  cases items with
  | nil =>
    obtain ⟨-, rfl⟩ := hfilled
    cases hitems
    exact .nil
  | splice forms rest => cases hnone
  | cons t rest =>
    obtain ⟨v, more, rfl, -, ht, hrest⟩ := hitems
    obtain ⟨_, _, x, others, -, rfl, hx, hothers⟩ := hfilled
    obtain ⟨hv, hmore⟩ := List.forall_mem_cons.mp hvs
    obtain ⟨hnone, hnone'⟩ := List.append_eq_nil_iff.mp hnone
    exact .cons (hx.isCopy hnone ht hcopyable hv) (hothers.isCopy hnone' hrest hcopyable hmore)

theorem TemplateEntries.IsFilled.isCopy {entries : TemplateEntries}
    {answers : List (List Value)} {found : List (Value × Value)} {xs : List Value}
    (hfilled : entries.IsFilled (· = base) p u answers xs) (hnone : entries.holes = [])
    (hentries : entries.Describes u found) (hcopyable : Heap.IsCopyable base u S)
    (hfound : ∀ entry ∈ found, S entry.2) :
    ∃ made, xs = alternate made ∧ List.Forall₂ u.IsEntryCopy found made := by
  cases entries with
  | nil =>
    obtain ⟨-, rfl⟩ := hfilled
    cases hentries
    exact ⟨[], rfl, .nil⟩
  | cons key t rest =>
    obtain ⟨v, more, rfl, ht, hrest⟩ := hentries
    obtain ⟨_, _, x, others, -, rfl, hx, hothers⟩ := hfilled
    obtain ⟨hv, hmore⟩ := List.forall_mem_cons.mp hfound
    obtain ⟨hnone, hnone'⟩ := List.append_eq_nil_iff.mp hnone
    obtain ⟨made, rfl, hcopies⟩ := hothers.isCopy hnone' hrest hcopyable hmore
    exact ⟨(key, x) :: made, rfl, .cons ⟨rfl, hx.isCopy hnone ht hcopyable hv⟩ hcopies⟩

end

end Copies

end Lisp
