import Lisp.Proofs.Heap.Building
import Lisp.Proofs.Heap.Renaming
import Lisp.Proofs.Heap.Rendering
import Lisp.Proofs.Heap.Soundness

/-!
Heaps that go through the same changes. A heap mirrors another when it is a copy of it, function for
function and atom for atom, and has kept what else a base heap had. Every change to a heap, made on
both sides with the values renamed, leaves one heap a mirror of the other and gives renamed values.
-/
namespace Lisp

namespace Renaming

variable (ρ : Renaming)

def place : Place → Place
  | .sequence cell => .sequence (ρ.cell cell)
  | .atom atom => .atom atom

theorem mark_place_eq_iff {p q : Place} :
    (ρ.place p).mark = (ρ.place q).mark ↔ p.mark = q.mark := by
  cases p <;> cases q <;> simp [place, Place.mark, ρ.cell_injective.eq_iff]

end Renaming

namespace Heap

/-- What was there is still there; lists may have grown. -/
structure Precedes (h u : Heap) : Prop where
  objects : ∀ (address : Nat) o, h.objects[address]? = some o → u.objects[address]? = some o
  items : ∀ cell, h.items cell <+: u.items cell

namespace Precedes

variable {g h u : Heap} {a b : Value}

theorem refl (h : Heap) : h.Precedes h := ⟨fun _ _ ho => ho, fun _ => List.prefix_rfl⟩

theorem trans (hgh : g.Precedes h) (hhu : h.Precedes u) : g.Precedes u :=
  ⟨fun a o ho => hhu.objects a o (hgh.objects a o ho),
    fun cell => (hgh.items cell).trans (hhu.items cell)⟩

theorem content (hhu : h.Precedes u) (ha : h.content a ≠ .nil) : u.content a = h.content a := by
  cases a with
  | object address =>
    cases ho : h.objects[address]? with
    | none => exact absurd (by simp [Heap.content, object, Array.getD_eq_getD_getElem?, ho]) ha
    | some o =>
      simp [Heap.content, object, Array.getD_eq_getD_getElem?, ho, hhu.objects address o ho]
  | _ => rfl

theorem content_of_has (hhu : h.Precedes u) (ha : h.Has a) : u.content a = h.content a := by
  cases a with
  | object address =>
    have ho : h.objects[address]? = some h.objects[address] := Array.getElem?_eq_getElem ha
    simp [Heap.content, object, Array.getD_eq_getD_getElem?, ho, hhu.objects address _ ho]
  | _ => rfl

theorem encloses (hhu : h.Precedes u) (hab : h.Encloses a b) : u.Encloses a b := by
  unfold Encloses at hab ⊢
  rwa [hhu.content fun hnil => by simp [hnil, Content.enclosed] at hab]

/-- What is grounded in the end was grounded before. -/
theorem isGrounded (hhu : h.Precedes u) (hu : u.IsGrounded) : h.IsGrounded := fun a hself =>
  hu a (Relation.TransGen.mono (fun _ _ => hhu.encloses) _ _ hself)

end Precedes

theorem Grows.precedes {h u : Heap} (hgrows : h.Grows u) : h.Precedes u := by
  refine ⟨hgrows.objects, fun cell => ?_⟩
  cases hcell : h.cells[cell]? with
  | none =>
    have hnil : h.items cell = [] := by
      simp [Heap.items, sequence, Array.getD_eq_getD_getElem?, hcell]
    rw [hnil]
    exact List.nil_prefix
  | some items => rw [items_eq hcell, items_eq (hgrows.cells cell items hcell)]

section Growth

variable (h : Heap)

theorem precedes_alloc (o : Object) : h.Precedes (h.alloc o).2 := (h.grows_alloc o).precedes

theorem precedes_makeSequence (shape : CellId → Content) (items : Sequence Value)
    (metadata : Option Value) : h.Precedes (h.makeSequence shape items metadata).2 :=
  (h.grows_makeSequence shape items metadata).precedes

theorem precedes_append (cell : CellId) (vs : List Value) : h.Precedes (h.append cell vs) := by
  refine ⟨fun _ _ ho => ho, fun other => ?_⟩
  rw [items_append]
  by_cases hother : other = cell ∧ cell < h.cells.size
  · rw [if_pos hother, hother.1]
    exact List.prefix_append ..
  · rw [if_neg hother]

theorem precedes_reset (atom : AtomId) (v : Value) : h.Precedes (h.reset atom v) :=
  ⟨fun _ _ ho => ho, fun _ => List.prefix_rfl⟩

theorem precedes_makeAtom (v : Value) : h.Precedes (h.makeAtom v).2 :=
  ⟨(precedes_alloc { h with atoms := h.atoms.push v } _).objects, fun _ => List.prefix_rfl⟩

theorem precedes_makeClosure (c : Closure) (metadata : Option Value) :
    h.Precedes (h.makeClosure c metadata).2 :=
  (h.grows_makeClosure c metadata).precedes

theorem precedes_withMetadata (v metadata : Value) : h.Precedes (h.withMetadata v metadata).2 := by
  unfold withMetadata
  cases h.content v with
  | list cell => exact h.precedes_makeSequence ..
  | vector cell => exact h.precedes_makeSequence ..
  | _ => exact h.precedes_alloc _

theorem precedes_build (d : Datum) : h.Precedes (h.build d).2 := (h.grows_build d).precedes

end Growth

namespace Copies

variable {ρ : Renaming} {h h' : Heap} {m n : Entries}

section Entries

variable (hc : h.Copies ρ h') (hground : h.IsGrounded)
include hc hground

theorem get? (hn : n.toList = m.toList.map ρ.entry) (key : Value) :
    h'.get? n (ρ.value key) = (h.get? m key).map ρ.value := by
  have hfind : h'.entry? n (ρ.value key) = (h.entry? m key).map ρ.entry := by
    rw [Heap.entry?, Heap.entry?, ← Sequence.find?_toList, ← Sequence.find?_toList, hn,
      List.find?_map]
    simp only [Function.comp_def, Renaming.entry, hc.equal hground]
  rw [Heap.get?, Heap.get?, hfind]
  cases h.entry? m key <;> rfl

theorem put (hn : n.toList = m.toList.map ρ.entry) (key value : Value) :
    (h'.put n (ρ.value key) (ρ.value value)).toList =
      (h.put m key value).toList.map ρ.entry := by
  have hindex : (n.toList.findIdx? fun entry => h'.equal entry.1 (ρ.value key)) =
      m.toList.findIdx? fun entry => h.equal entry.1 key := by
    rw [hn, List.findIdx?_map]
    simp only [Function.comp_def, Renaming.entry, hc.equal hground]
  rw [toList_put, toList_put, hindex]
  cases m.toList.findIdx? fun entry => h.equal entry.1 key with
  | none => simp [hn, Renaming.entry]
  | some i =>
    refine List.ext_getElem? fun j => ?_
    simp only [hn, List.getElem?_modify, List.getElem?_map]
    by_cases hij : i = j
    · cases m.toList[j]? <;> simp [hij, Renaming.entry]
    · cases m.toList[j]? <;> simp [hij]

theorem assoc (hn : n.toList = m.toList.map ρ.entry) (alternating : List Value) :
    (h'.assoc n (alternating.map ρ.value)).toList =
      (h.assoc m alternating).toList.map ρ.entry := by
  induction alternating using List.twoStepInduction generalizing m n with
  | nil => exact hn
  | singleton _ => exact hn
  | cons_cons key value more ih _ => exact ih (hc.put hground hn key value)

theorem entriesOf (alternating : List Value) :
    (h'.entriesOf (alternating.map ρ.value)).toList =
      (h.entriesOf alternating).toList.map ρ.entry :=
  hc.assoc hground rfl alternating

theorem dissoc (hn : n.toList = m.toList.map ρ.entry) (keys : List Value) :
    (h'.dissoc n (keys.map ρ.value)).toList = (h.dissoc m keys).toList.map ρ.entry := by
  rw [toList_dissoc, toList_dissoc, hn, List.filter_map]
  simp only [Function.comp_def, Renaming.entry, List.any_map,
    hc.equal hground]

end Entries

section Changes

variable {o o' : Object} {items items' : Sequence Value}

theorem object_eq_iff (hc : h.Copies ρ h') (v : Value) :
    ρ.value v = .object h'.objects.size ↔ v = .object h.objects.size := by
  have hnext : ρ.value (.object h.objects.size) = .object h'.objects.size :=
    congrArg Value.object (hc.nextObject 0)
  rw [← hnext, ρ.value_inj]

theorem cell_eq_iff (hc : h.Copies ρ h') (cell : CellId) :
    ρ.cell cell = h'.cells.size ↔ cell = h.cells.size := by
  have hnext : ρ.cell h.cells.size = h'.cells.size := hc.nextCell 0
  rw [← hnext, ρ.cell_injective.eq_iff]

theorem cell_lt_iff (hc : h.Copies ρ h') (cell : CellId) :
    ρ.cell cell < h'.cells.size ↔ cell < h.cells.size := by
  refine ⟨fun hlt => ?_, lt_of_aligned ρ.cell_injective hc.nextCell⟩
  by_contra hge
  obtain ⟨n, rfl⟩ := Nat.exists_eq_add_of_le (Nat.le_of_not_lt hge)
  rw [hc.nextCell n] at hlt
  exact absurd hlt (Nat.not_lt.mpr (Nat.le_add_right ..))

theorem alloc_fst (hc : h.Copies ρ h') (o o' : Object) :
    (h'.alloc o').1 = ρ.value (h.alloc o).1 :=
  ((hc.object_eq_iff _).mpr rfl).symm

theorem alloc (hc : h.Copies ρ h') (hcontent : o.content.Mirrors ρ o'.content)
    (hmetadata : o'.metadata = o.metadata.map ρ.value) :
    (h.alloc o).2.Copies ρ (h'.alloc o').2 where
  content v := by
    rw [content_alloc, content_alloc]
    by_cases hv : v = .object h.objects.size
    · rwa [if_pos hv, if_pos ((hc.object_eq_iff v).mpr hv)]
    · rw [if_neg hv, if_neg (mt (hc.object_eq_iff v).mp hv)]
      exact hc.content v
  metadata v := by
    rw [metadata?_alloc, metadata?_alloc]
    by_cases hv : v = .object h.objects.size
    · rwa [if_pos hv, if_pos ((hc.object_eq_iff v).mpr hv)]
    · rw [if_neg hv, if_neg (mt (hc.object_eq_iff v).mp hv)]
      exact hc.metadata v
  items := hc.items
  nextObject n := by
    have hnext := hc.nextObject (1 + n)
    simp only [Heap.alloc, Array.size_push]
    rwa [Nat.add_assoc, Nat.add_assoc]
  nextCell := hc.nextCell

theorem pushCell (hc : h.Copies ρ h') (hitems : items'.toList = items.toList.map ρ.value) :
    Copies ρ { h with cells := h.cells.push items } { h' with cells := h'.cells.push items' } where
  content := hc.content
  metadata := hc.metadata
  items cell := by
    rw [items_push, items_push]
    by_cases hcell : cell = h.cells.size
    · rwa [if_pos hcell, if_pos ((hc.cell_eq_iff cell).mpr hcell)]
    · rw [if_neg hcell, if_neg (mt (hc.cell_eq_iff cell).mp hcell)]
      exact hc.items cell
  nextObject := hc.nextObject
  nextCell n := by
    have hnext := hc.nextCell (1 + n)
    simp only [Array.size_push]
    rwa [Nat.add_assoc, Nat.add_assoc]

theorem append (hc : h.Copies ρ h') (cell : CellId) (vs : List Value) :
    (h.append cell vs).Copies ρ (h'.append (ρ.cell cell) (vs.map ρ.value)) where
  content := hc.content
  metadata := hc.metadata
  items other := by
    rw [items_append, items_append]
    by_cases hother : other = cell ∧ cell < h.cells.size
    · rw [if_pos hother, if_pos ⟨congrArg ρ.cell hother.1, (hc.cell_lt_iff cell).mpr hother.2⟩,
        hc.items, List.map_append]
    · rw [if_neg hother, if_neg fun hsame =>
        hother ⟨ρ.cell_injective hsame.1, (hc.cell_lt_iff cell).mp hsame.2⟩]
      exact hc.items other
  nextObject := hc.nextObject
  nextCell n := by simpa [Heap.append] using hc.nextCell n

end Changes

end Copies

/-- A copy with the same functions, natives and atoms. -/
structure Mirrors (ρ : Renaming) (h h' : Heap) : Prop extends Copies ρ h h' where
  atoms : h'.atoms = h.atoms.map ρ.value
  closures : h'.closures = h.closures.map ρ.closure
  natives : h'.natives = h.natives

namespace Mirrors

variable {ρ : Renaming} {h h' : Heap} (hm : h.Mirrors ρ h')
include hm

theorem deref (atom : AtomId) : h'.deref atom = ρ.value (h.deref atom) := by
  simp only [Heap.deref, hm.atoms, Array.getD_eq_getD_getElem?, Array.getElem?_map]
  cases h.atoms[atom]? <;> rfl

theorem native (id : NativeId) : h'.native id = h.native id := by
  rw [Heap.native, Heap.native, hm.natives]

theorem closure (id : ClosureId) : h'.closure id = ρ.closure (h.closure id) := by
  simp only [Heap.closure, hm.closures, Array.getD_eq_getD_getElem?, Array.getElem?_map]
  cases h.closures[id]? with
  | none => simp [Renaming.closure, ρ.frame_zero]
  | some c => rfl

theorem functionText (id : ClosureId) : h'.functionText id = h.functionText id := by
  simp only [Heap.functionText, hm.closure, Renaming.closure]

theorem isMacro (v : Value) : h'.isMacro (ρ.value v) = h.isMacro v := by
  have hv := hm.content v
  unfold Heap.isMacro
  generalize h.content v = x at hv ⊢
  generalize h'.content (ρ.value v) = y at hv ⊢
  cases hv with
  | closure id => simp only [hm.closure, Renaming.closure]
  | _ => rfl

theorem renderWithin {style : Style} (fuel : Nat) {opened opened' : Trail}
    (hopened : ∀ p, opened'.contains (ρ.place p).mark = opened.contains p.mark) (v : Value) :
    h'.renderWithin style fuel opened' (ρ.value v) = h.renderWithin style fuel opened v := by
  induction fuel generalizing opened opened' v with
  | zero => rfl
  | succ fuel ih =>
    have htexts : ∀ {inner inner' : Trail},
        (∀ p, inner'.contains (ρ.place p).mark = inner.contains p.mark) → ∀ vs : List Value,
        (vs.map ρ.value).map (h'.renderWithin style fuel inner') =
          vs.map (h.renderWithin style fuel inner) := by
      intro inner inner' hinner vs
      rw [List.map_map]
      simp only [Function.comp_def, ih hinner]
    have hadded : ∀ p q, (opened'.add (ρ.place p).mark).contains (ρ.place q).mark =
        (opened.add p.mark).contains q.mark := by
      intro p q
      rw [Trail.contains_add, Trail.contains_add, hopened]
      congr 1
      rw [Bool.eq_iff_iff, beq_iff_eq, beq_iff_eq, ρ.mark_place_eq_iff]
    have hcells : ∀ cell, opened'.contains (Place.sequence (ρ.cell cell)).mark =
        opened.contains (Place.sequence cell).mark := fun cell => hopened (.sequence cell)
    have hatoms : ∀ atom, opened'.contains (Place.atom atom).mark =
        opened.contains (Place.atom atom).mark := fun atom => hopened (.atom atom)
    have hsequence : ∀ left right cell,
        h'.sequenceText left right (ρ.cell cell) opened' (h'.renderWithin style fuel) =
          h.sequenceText left right cell opened (h.renderWithin style fuel) := by
      intro left right cell
      have hitems := htexts (hadded (.sequence cell)) (h.items cell)
      simp only [Renaming.place] at hitems
      simp only [sequenceText, hcells, hm.items, hitems]
    have hv := hm.content v
    unfold Heap.renderWithin
    generalize h.content v = x at hv ⊢
    generalize h'.content (ρ.value v) = y at hv ⊢
    cases hv with
    | list cell => exact hsequence 40 41 cell
    | vector cell => exact hsequence 91 93 cell
    | map hn =>
      simp only [hn, List.flatMap_map, Renaming.entry]
      rw [← htexts hopened]
      simp only [List.map_flatMap, List.map_cons, List.map_nil]
    | atom atom =>
      have hinner := ih (hadded (.atom atom)) (h.deref atom)
      simp only [Renaming.place] at hinner
      simp only [hatoms, hm.deref, hinner]
    | error payload => simp only [ih hopened]
    | string hs => simp only [hs]
    | native id => simp only [hm.native]
    | closure id => exact hm.functionText id
    | _ => rfl

theorem render (hground : h.IsGrounded) (style : Style) (v : Value) :
    h'.render style (ρ.value v) = h.render style v := by
  have hatoms : h'.atoms.size = h.atoms.size := by rw [hm.atoms, Array.size_map]
  have hdepth : h.renderingDepth ≤ h'.renderingDepth := by
    have hcells := hm.cells_le
    have hobjects := hm.objects_le
    exact Nat.mul_le_mul (by omega) (by omega)
  have hopened : ∀ p, ({} : Trail).contains (ρ.place p).mark = ({} : Trail).contains p.mark := by
    simp
  rw [render_eq, hm.renderWithin h'.renderingDepth hopened, renderWithin_of_le hground hdepth]

theorem renderAll (hground : h.IsGrounded) (style : Style) (separator : Text) (vs : List Value) :
    (h'.renderAll style separator (vs.map ρ.value)).toList =
      (h.renderAll style separator vs).toList := by
  rw [toList_renderAll, toList_renderAll, List.map_map]
  simp only [Function.comp_def, hm.render hground]

end Mirrors

/-- A mirror that has kept what else was in `base`. -/
structure MirrorsOver (ρ : Renaming) (base h h' : Heap) : Prop extends Mirrors ρ h h' where
  old : ∀ (address : Nat) o, base.objects[address]? = some o → h'.objects[address]? = some o
  oldCells : base.cells.size ≤ h'.cells.size
  kept : ∀ cell < base.cells.size, (∀ c, ρ.cell c ≠ cell) → h'.items cell = base.items cell

namespace MirrorsOver

variable {ρ : Renaming} {base h h' : Heap} {o o' : Object} {items items' : Sequence Value}

theorem alloc (hm : MirrorsOver ρ base h h') (hcontent : o.content.Mirrors ρ o'.content)
    (hmetadata : o'.metadata = o.metadata.map ρ.value) :
    MirrorsOver ρ base (h.alloc o).2 (h'.alloc o').2 where
  toCopies := hm.toCopies.alloc hcontent hmetadata
  atoms := hm.atoms
  closures := hm.closures
  natives := hm.natives
  old address o ho := (h'.precedes_alloc o').objects address o (hm.old address o ho)
  oldCells := hm.oldCells
  kept := hm.kept

theorem pushCell (hm : MirrorsOver ρ base h h')
    (hitems : items'.toList = items.toList.map ρ.value) :
    MirrorsOver ρ base { h with cells := h.cells.push items }
      { h' with cells := h'.cells.push items' } where
  toCopies := hm.toCopies.pushCell hitems
  atoms := hm.atoms
  closures := hm.closures
  natives := hm.natives
  old := hm.old
  oldCells := by simpa using Nat.le_succ_of_le hm.oldCells
  kept cell hcell hfree := by
    rw [items_push, if_neg (Nat.ne_of_lt (Nat.lt_of_lt_of_le hcell hm.oldCells))]
    exact hm.kept cell hcell hfree

theorem append (hm : MirrorsOver ρ base h h') (cell : CellId) (vs : List Value) :
    MirrorsOver ρ base (h.append cell vs) (h'.append (ρ.cell cell) (vs.map ρ.value)) where
  toCopies := hm.toCopies.append cell vs
  atoms := hm.atoms
  closures := hm.closures
  natives := hm.natives
  old := hm.old
  oldCells := by simpa [Heap.append] using hm.oldCells
  kept other hother hfree := by
    rw [items_append, if_neg fun hsame => hfree cell hsame.1.symm]
    exact hm.kept other hother hfree

theorem reset (hm : MirrorsOver ρ base h h') (atom : AtomId) (v : Value) :
    MirrorsOver ρ base (h.reset atom v) (h'.reset atom (ρ.value v)) :=
  { hm with
    toCopies := { hm.toCopies with }
    atoms := by simp [Heap.reset, hm.atoms] }

theorem makeAtom (hm : MirrorsOver ρ base h h') (v : Value) :
    (h'.makeAtom (ρ.value v)).1 = ρ.value (h.makeAtom v).1 ∧
      MirrorsOver ρ base (h.makeAtom v).2 (h'.makeAtom (ρ.value v)).2 := by
  have hpushed : MirrorsOver ρ base { h with atoms := h.atoms.push v }
      { h' with atoms := h'.atoms.push (ρ.value v) } :=
    { hm with
      toCopies := { hm.toCopies with }
      atoms := by simp [hm.atoms] }
  have hsize : h'.atoms.size = h.atoms.size := by rw [hm.atoms, Array.size_map]
  refine ⟨hpushed.alloc_fst _ _, hpushed.alloc ?_ rfl⟩
  rw [hsize]
  exact .atom _

theorem makeClosure (hm : MirrorsOver ρ base h h') (c : Closure) (metadata : Option Value) :
    (h'.makeClosure (ρ.closure c) (metadata.map ρ.value)).1 =
        ρ.value (h.makeClosure c metadata).1 ∧
      MirrorsOver ρ base (h.makeClosure c metadata).2
        (h'.makeClosure (ρ.closure c) (metadata.map ρ.value)).2 := by
  have hpushed : MirrorsOver ρ base { h with closures := h.closures.push c }
      { h' with closures := h'.closures.push (ρ.closure c) } :=
    { hm with
      toCopies := { hm.toCopies with }
      closures := by simp [hm.closures] }
  have hsize : h'.closures.size = h.closures.size := by rw [hm.closures, Array.size_map]
  refine ⟨hpushed.alloc_fst _ _, hpushed.alloc ?_ rfl⟩
  rw [hsize]
  exact .closure _

end MirrorsOver

/-- A relation between copies that making objects and cells on both sides keeps. -/
structure IsKept (ρ : Renaming) (R : Heap → Heap → Prop) : Prop where
  copies : ∀ {h h'}, R h h' → h.Copies ρ h'
  alloc : ∀ {h h' o o'}, R h h' → o.content.Mirrors ρ o'.content →
    o'.metadata = o.metadata.map ρ.value → R (h.alloc o).2 (h'.alloc o').2
  pushCell : ∀ {h h' items items'}, R h h' → items'.toList = items.toList.map ρ.value →
    R { h with cells := h.cells.push items } { h' with cells := h'.cells.push items' }

theorem isKept_mirrorsOver (ρ : Renaming) (base : Heap) : IsKept ρ (MirrorsOver ρ base) where
  copies hm := hm.toCopies
  alloc hm := hm.alloc
  pushCell hm := hm.pushCell

namespace IsKept

variable {ρ : Renaming} {R : Heap → Heap → Prop} (hR : IsKept ρ R) {h h' : Heap}
include hR

theorem make (hrel : R h h') {c c' : Content} (hc : c.Mirrors ρ c') :
    (h'.make c').1 = ρ.value (h.make c).1 ∧ R (h.make c).2 (h'.make c').2 :=
  ⟨(hR.copies hrel).alloc_fst _ _, hR.alloc hrel hc rfl⟩

theorem makeSequence (hrel : R h h') {shape : CellId → Content}
    (hshape : ∀ cell, (shape cell).Mirrors ρ (shape (ρ.cell cell))) {items items' : Sequence Value}
    (hitems : items'.toList = items.toList.map ρ.value) (metadata : Option Value) :
    (h'.makeSequence shape items' (metadata.map ρ.value)).1 =
        ρ.value (h.makeSequence shape items metadata).1 ∧
      R (h.makeSequence shape items metadata).2
        (h'.makeSequence shape items' (metadata.map ρ.value)).2 := by
  have hpushed := hR.pushCell hrel hitems
  refine ⟨(hR.copies hpushed).alloc_fst _ _, hR.alloc hpushed ?_ rfl⟩
  have hcell : ρ.cell h.cells.size = h'.cells.size := (hR.copies hrel).nextCell 0
  exact hcell ▸ hshape h.cells.size

theorem makeList (hrel : R h h') (vs : List Value) :
    (h'.makeList (vs.map ρ.value)).1 = ρ.value (h.makeList vs).1 ∧
      R (h.makeList vs).2 (h'.makeList (vs.map ρ.value)).2 :=
  hR.makeSequence hrel .list (by simp) none

theorem makeVector (hrel : R h h') (vs : List Value) :
    (h'.makeVector (vs.map ρ.value)).1 = ρ.value (h.makeVector vs).1 ∧
      R (h.makeVector vs).2 (h'.makeVector (vs.map ρ.value)).2 :=
  hR.makeSequence hrel .vector (by simp) none

theorem withMetadata (hrel : R h h') (v metadata : Value) :
    (h'.withMetadata (ρ.value v) (ρ.value metadata)).1 = ρ.value (h.withMetadata v metadata).1 ∧
      R (h.withMetadata v metadata).2 (h'.withMetadata (ρ.value v) (ρ.value metadata)).2 := by
  have hc := hR.copies hrel
  have hv := hc.content v
  unfold Heap.withMetadata
  generalize h.content v = x at hv ⊢
  generalize h'.content (ρ.value v) = y at hv ⊢
  cases hv with
  | list cell => exact hR.makeSequence hrel .list (hc.items cell) (some metadata)
  | vector cell => exact hR.makeSequence hrel .vector (hc.items cell) (some metadata)
  | nil => exact ⟨hc.alloc_fst _ _, hR.alloc hrel .nil rfl⟩
  | bool b => exact ⟨hc.alloc_fst _ _, hR.alloc hrel (.bool b) rfl⟩
  | int n => exact ⟨hc.alloc_fst _ _, hR.alloc hrel (.int n) rfl⟩
  | float x => exact ⟨hc.alloc_fst _ _, hR.alloc hrel (.float x) rfl⟩
  | string hs => exact ⟨hc.alloc_fst _ _, hR.alloc hrel (.string hs) rfl⟩
  | symbol name => exact ⟨hc.alloc_fst _ _, hR.alloc hrel (.symbol name) rfl⟩
  | keyword name => exact ⟨hc.alloc_fst _ _, hR.alloc hrel (.keyword name) rfl⟩
  | map hn => exact ⟨hc.alloc_fst _ _, hR.alloc hrel (.map hn) rfl⟩
  | atom atom => exact ⟨hc.alloc_fst _ _, hR.alloc hrel (.atom atom) rfl⟩
  | native id => exact ⟨hc.alloc_fst _ _, hR.alloc hrel (.native id) rfl⟩
  | closure id => exact ⟨hc.alloc_fst _ _, hR.alloc hrel (.closure id) rfl⟩
  | error payload => exact ⟨hc.alloc_fst _ _, hR.alloc hrel (.error payload) rfl⟩

omit hR in
theorem buildAll {items : List Datum}
    (hitems : ∀ d ∈ items, ∀ {h h' : Heap}, R h h' → (h.build d).2.IsGrounded →
      (h'.build d).1 = ρ.value (h.build d).1 ∧ R (h.build d).2 (h'.build d).2)
    (hrel : R h h') (hground : (h.buildAll items).2.IsGrounded) :
    (h'.buildAll items).1 = (h.buildAll items).1.map ρ.value ∧
      R (h.buildAll items).2 (h'.buildAll items).2 := by
  induction items generalizing h h' with
  | nil => exact ⟨rfl, hrel⟩
  | cons d rest ih =>
    simp only [Heap.buildAll] at hground ⊢
    have hgrown : (h.build d).2.Precedes ((h.build d).2.buildAll rest).2 :=
      (grows_buildAll _ fun e _ h => h.grows_build e).precedes
    obtain ⟨hvalue, hbuilt⟩ := hitems d List.mem_cons_self hrel (hgrown.isGrounded hground)
    obtain ⟨hvalues, hrest⟩ :=
      ih (fun e he => hitems e (List.mem_cons_of_mem d he)) hbuilt hground
    exact ⟨by simp [hvalue, hvalues], hrest⟩

/-- The same data become copies of each other. -/
theorem build (d : Datum) {h h' : Heap} (hrel : R h h') (hground : (h.build d).2.IsGrounded) :
    (h'.build d).1 = ρ.value (h.build d).1 ∧ R (h.build d).2 (h'.build d).2 := by
  induction d generalizing h h' with
  | nil => exact ⟨rfl, hrel⟩
  | bool b => exact ⟨rfl, hrel⟩
  | symbol name => exact ⟨rfl, hrel⟩
  | int n => exact hR.make hrel (.int n)
  | float x => exact hR.make hrel (.float x)
  | string s => exact hR.make hrel (.string rfl)
  | keyword name => exact hR.make hrel (.keyword name)
  | group b items ih =>
    simp only [Heap.build] at hground ⊢
    have hbefore : (h.buildAll items).2.IsGrounded := by
      refine Precedes.isGrounded ?_ hground
      cases b with
      | round => exact precedes_makeSequence ..
      | square => exact precedes_makeSequence ..
      | curly => exact precedes_alloc ..
    obtain ⟨hvalues, hbuilt⟩ := IsKept.buildAll ih hrel hbefore
    cases b with
    | round => simpa only [hvalues] using hR.makeList hbuilt _
    | square => simpa only [hvalues] using hR.makeVector hbuilt _
    | curly =>
      have hentries := (hR.copies hbuilt).entriesOf hbefore (h.buildAll items).1
      simpa only [hvalues] using hR.make hbuilt (.map hentries)

end IsKept

end Heap

end Lisp
