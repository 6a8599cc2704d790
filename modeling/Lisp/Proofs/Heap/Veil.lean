import Lisp.Proofs.Heap.Soundness

/-!
Objects that nothing leads to. Some objects and cells are kept behind a veil: no value in sight
leads to them, through no element, key, metadata, atom or function. All ways to make a value of
values in sight, and to change a list or an atom in sight, leave it so, and what is behind the veil
stays as it is.
-/
namespace Lisp

/-- The objects and cells that are kept out of sight. -/
structure Veil where
  object : Nat → Prop
  cell : CellId → Prop

namespace Veil

/-- The value is not behind the veil. -/
def Sees (veil : Veil) : Value → Prop
  | .object address => ¬ veil.object address
  | _ => True

def addObject (veil : Veil) (address : Nat) : Veil :=
  { veil with object := fun other => veil.object other ∨ other = address }

def addCell (veil : Veil) (cell : CellId) : Veil :=
  { veil with cell := fun other => veil.cell other ∨ other = cell }

theorem sees_addObject {veil : Veil} {v : Value} {address : Nat} :
    (veil.addObject address).Sees v ↔ veil.Sees v ∧ v ≠ .object address := by
  cases v with
  | object other => simp [Sees, addObject]
  | _ => simp [Sees]

end Veil

namespace Heap

/-- Nothing in sight leads behind the veil. -/
structure Hides (veil : Veil) (h : Heap) : Prop where
  object_lt : ∀ address, veil.object address → address < h.objects.size
  cell_lt : ∀ cell, veil.cell cell → cell < h.cells.size
  enclosed : ∀ v, veil.Sees v → ∀ x ∈ (h.content v).enclosed, veil.Sees x
  cell : ∀ v cell, veil.Sees v → (h.content v).cell? = some cell → ¬ veil.cell cell
  items : ∀ cell, ¬ veil.cell cell → ∀ x ∈ h.items cell, veil.Sees x
  metadata : ∀ v m, veil.Sees v → h.metadata? v = some m → veil.Sees m
  deref : ∀ atom, veil.Sees (h.deref atom)
  body : ∀ id, veil.Sees (h.closure id).body

/-- Something has happened that did not reach behind the veil. -/
structure Spares (veil : Veil) (h h' : Heap) : Prop where
  hides : h'.Hides veil
  items : ∀ cell, veil.cell cell → h'.items cell = h.items cell

variable {veil : Veil} {h h' : Heap}

theorem Hides.isClosed (hh : h.Hides veil) : h.IsClosed veil.Sees where
  constant v hv := by
    cases v with
    | object address => exact absurd rfl (hv address)
    | _ => trivial
  enclosed := hh.enclosed
  items v cell hv hcell := hh.items cell (hh.cell v cell hv hcell)
  metadata := hh.metadata
  deref := hh.deref
  body := hh.body

theorem Hides.sees_new (hh : h.Hides veil) : veil.Sees (.object h.objects.size) :=
  fun hhidden => Nat.lt_irrefl _ (hh.object_lt _ hhidden)

theorem Spares.refl (hh : h.Hides veil) : h.Spares veil h := ⟨hh, fun _ _ => rfl⟩

theorem Spares.trans {h'' : Heap} (hab : h.Spares veil h') (hbc : h'.Spares veil h'') :
    h.Spares veil h'' :=
  ⟨hbc.hides, fun cell hcell => (hbc.items cell hcell).trans (hab.items cell hcell)⟩

section Changes

variable (hh : h.Hides veil)
include hh

theorem Hides.spares_alloc {o : Object} (henclosed : ∀ x ∈ o.content.enclosed, veil.Sees x)
    (hcell : ∀ cell, o.content.cell? = some cell → ¬ veil.cell cell)
    (hmetadata : ∀ m, o.metadata = some m → veil.Sees m) : h.Spares veil (h.alloc o).2 := by
  refine ⟨{ hh with object_lt := ?_, enclosed := ?_, cell := ?_, metadata := ?_ }, fun _ _ => rfl⟩
  · intro address hhidden
    exact Nat.lt_trans (hh.object_lt address hhidden) (by simp [alloc])
  · intro v hv
    rw [content_alloc]
    split
    · exact henclosed
    · exact hh.enclosed v hv
  · intro v cell hv
    rw [content_alloc]
    split
    · exact hcell cell
    · exact hh.cell v cell hv
  · intro v m hv
    rw [metadata?_alloc]
    split
    · exact hmetadata m
    · exact hh.metadata v m hv

theorem Hides.spares_pushCell {items : Sequence Value} (hitems : ∀ v ∈ items.toList, veil.Sees v) :
    h.Spares veil { h with cells := h.cells.push items } := by
  refine ⟨{ hh with cell_lt := ?_, items := ?_ }, fun cell hcell => ?_⟩
  · intro cell hhidden
    exact Nat.lt_trans (hh.cell_lt cell hhidden) (by simp)
  · intro cell hcell
    rw [items_push]
    split
    · exact hitems
    · exact hh.items cell hcell
  · rw [items_push, if_neg (Nat.ne_of_lt (hh.cell_lt cell hcell))]

theorem Hides.spares_pushAtom {v : Value} (hv : veil.Sees v) :
    h.Spares veil { h with atoms := h.atoms.push v } := by
  refine ⟨{ hh with deref := fun atom => ?_ }, fun _ _ => rfl⟩
  rw [deref_push]
  split
  · exact hv
  · exact hh.deref atom

theorem Hides.spares_pushClosure {c : Closure} (hbody : veil.Sees c.body) :
    h.Spares veil { h with closures := h.closures.push c } := by
  refine ⟨{ hh with body := fun id => ?_ }, fun _ _ => rfl⟩
  rw [closure_push]
  split
  · exact hbody
  · exact hh.body id

theorem Hides.spares_append {cell : CellId} (hcell : ¬ veil.cell cell) {vs : List Value}
    (hvs : ∀ v ∈ vs, veil.Sees v) : h.Spares veil (h.append cell vs) := by
  refine ⟨{ hh with cell_lt := ?_, items := ?_ }, fun other hhidden => ?_⟩
  · intro other hhidden
    simpa [append] using hh.cell_lt other hhidden
  · intro other hother v hv
    rw [items_append] at hv
    split at hv
    · rcases List.mem_append.mp hv with hold | hnew
      · exact hh.items cell hcell v hold
      · exact hvs v hnew
    · exact hh.items other hother v hv
  · have hne : other ≠ cell := by
      rintro rfl
      exact hcell hhidden
    rw [items_append, if_neg fun heq => hne heq.1]

theorem Hides.spares_reset (atom : AtomId) {v : Value} (hv : veil.Sees v) :
    h.Spares veil (h.reset atom v) := by
  refine ⟨{ hh with deref := fun other => ?_ }, fun _ _ => rfl⟩
  rw [deref_reset]
  split
  · exact hv
  · exact hh.deref other

end Changes

section Covering

variable (hh : h.Hides veil) (hsound : h.IsSound)
include hh hsound

/-- A new cell that nothing leads to yet can be kept out of sight. -/
theorem Hides.addCell (items : Sequence Value) :
    ({ h with cells := h.cells.push items } : Heap).Hides (veil.addCell h.cells.size) := by
  refine { hh with cell_lt := ?_, cell := ?_, items := ?_ }
  · rintro cell (hhidden | rfl)
    · exact Nat.lt_trans (hh.cell_lt cell hhidden) (by simp)
    · simp
  · rintro v cell hv hcell (hhidden | rfl)
    · exact hh.cell v cell hv hcell hhidden
    · exact Nat.lt_irrefl _ ((hsound.content v).cell_lt hcell)
  · intro cell hcell
    obtain ⟨hold, hne⟩ := not_or.mp hcell
    rw [items_push, if_neg hne]
    exact hh.items cell hold

/-- A new object that nothing leads to yet can be kept out of sight. -/
theorem Hides.addObject (o : Object) :
    (h.alloc o).2.Hides (veil.addObject h.objects.size) := by
  -- What is there is not the new object.
  have hold : ∀ {x : Value}, h.Has x → veil.Sees x →
      (veil.addObject h.objects.size).Sees x := by
    intro x hx hsees
    refine Veil.sees_addObject.mpr ⟨hsees, ?_⟩
    rintro rfl
    exact Nat.lt_irrefl _ hx
  refine ⟨?_, hh.cell_lt, ?_, ?_, ?_, ?_, ?_, ?_⟩
  · rintro address (hhidden | rfl)
    · exact Nat.lt_trans (hh.object_lt address hhidden) (by simp [alloc])
    · simp [alloc]
  · intro v hv x hx
    obtain ⟨hsees, hne⟩ := Veil.sees_addObject.mp hv
    rw [content_alloc, if_neg hne] at hx
    exact hold ((hsound.content v).enclosed hx) (hh.enclosed v hsees x hx)
  · intro v cell hv hcell
    obtain ⟨hsees, hne⟩ := Veil.sees_addObject.mp hv
    rw [content_alloc, if_neg hne] at hcell
    exact hh.cell v cell hsees hcell
  · exact fun cell hcell x hx => hold (hsound.items cell x hx) (hh.items cell hcell x hx)
  · intro v m hv hm
    obtain ⟨hsees, hne⟩ := Veil.sees_addObject.mp hv
    rw [metadata?_alloc, if_neg hne] at hm
    exact hold (hsound.metadata v m hm) (hh.metadata v m hsees hm)
  · exact fun atom => hold (hsound.deref atom) (hh.deref atom)
  · exact fun id => hold (hsound.body id) (hh.body id)

end Covering

/-- A value in sight, made without reaching behind the veil. -/
def MakesSeen (veil : Veil) (h : Heap) (made : Value × Heap) : Prop :=
  h.Spares veil made.2 ∧ veil.Sees made.1

theorem MakesSeen.after {made : Value × Heap} (hmade : h'.MakesSeen veil made)
    (hspares : h.Spares veil h') : h.MakesSeen veil made :=
  ⟨hspares.trans hmade.1, hmade.2⟩

section Makers

variable (hh : h.Hides veil)
include hh

theorem Hides.make {c : Content} (hc : c.IsOver veil.Sees) : h.MakesSeen veil (h.make c) := by
  refine ⟨hh.spares_alloc (fun x hx => hc.enclosed hx) (fun cell hcell => ?_)
    (fun _ hm => by cases hm), hh.sees_new⟩
  rw [hc.cell?_eq_none] at hcell
  cases hcell

theorem Hides.makeSequence {shape : CellId → Content} (hshape : shape = .list ∨ shape = .vector)
    {items : Sequence Value} (hitems : ∀ v ∈ items.toList, veil.Sees v) {metadata : Option Value}
    (hmetadata : ∀ m, metadata = some m → veil.Sees m) :
    h.MakesSeen veil (h.makeSequence shape items metadata) := by
  have hpushed := hh.spares_pushCell hitems
  refine ⟨hpushed.trans (hpushed.hides.spares_alloc ?_ ?_ hmetadata), hh.sees_new⟩
  · rcases hshape with rfl | rfl <;> exact fun _ hx => by cases hx
  · have hnew : ¬ veil.cell h.cells.size := fun hhidden => Nat.lt_irrefl _ (hh.cell_lt _ hhidden)
    rcases hshape with rfl | rfl <;> rintro cell ⟨⟩ <;> exact hnew

theorem Hides.makeList {items : List Value} (hitems : ∀ v ∈ items, veil.Sees v) :
    h.MakesSeen veil (h.makeList items) :=
  hh.makeSequence (.inl rfl) (by simpa using hitems) fun _ hm => by cases hm

theorem Hides.makeVector {items : List Value} (hitems : ∀ v ∈ items, veil.Sees v) :
    h.MakesSeen veil (h.makeVector items) :=
  hh.makeSequence (.inr rfl) (by simpa using hitems) fun _ hm => by cases hm

theorem Hides.makeAtom {v : Value} (hv : veil.Sees v) : h.MakesSeen veil (h.makeAtom v) := by
  have hpushed := hh.spares_pushAtom hv
  exact ⟨hpushed.trans (hpushed.hides.spares_alloc (fun _ hx => by cases hx)
    (fun _ hcell => by cases hcell) (fun _ hm => by cases hm)), hh.sees_new⟩

theorem Hides.makeClosure {c : Closure} (hbody : veil.Sees c.body) {metadata : Option Value}
    (hmetadata : ∀ m, metadata = some m → veil.Sees m) :
    h.MakesSeen veil (h.makeClosure c metadata) := by
  have hpushed := hh.spares_pushClosure hbody
  exact ⟨hpushed.trans (hpushed.hides.spares_alloc (fun _ hx => by cases hx)
    (fun _ hcell => by cases hcell) hmetadata), hh.sees_new⟩

theorem Hides.withMetadata {v m : Value} (hv : veil.Sees v) (hm : veil.Sees m) :
    h.MakesSeen veil (h.withMetadata v m) := by
  have hmetadata : ∀ other, some m = some other → veil.Sees other := by
    rintro _ ⟨⟩
    exact hm
  have henclosed := hh.enclosed v hv
  have hcell := hh.cell v
  unfold Heap.withMetadata
  split
  · rename_i cell hlist
    exact hh.makeSequence (.inl rfl) (hh.items cell (hcell cell hv (by rw [hlist]; rfl))) hmetadata
  · rename_i cell hvector
    exact hh.makeSequence (.inr rfl) (hh.items cell (hcell cell hv (by rw [hvector]; rfl)))
      hmetadata
  · exact ⟨hh.spares_alloc henclosed (fun cell => hcell cell hv) hmetadata, hh.sees_new⟩

end Makers

theorem Hides.buildAll {items : List Datum}
    (hitems : ∀ d ∈ items, ∀ h : Heap, h.Hides veil → h.MakesSeen veil (h.build d)) {h : Heap}
    (hh : h.Hides veil) :
    h.Spares veil (h.buildAll items).2 ∧ ∀ v ∈ (h.buildAll items).1, veil.Sees v := by
  induction items generalizing h with
  | nil => exact ⟨.refl hh, fun v hv => by cases hv⟩
  | cons d rest ih =>
    obtain ⟨hfirst, hvalue⟩ := hitems d List.mem_cons_self h hh
    obtain ⟨hmore, hvalues⟩ :=
      ih (fun e he => hitems e (List.mem_cons_of_mem d he)) hfirst.hides
    rw [Heap.buildAll]
    exact ⟨hfirst.trans hmore, List.forall_mem_cons.mpr ⟨hvalue, hvalues⟩⟩

theorem Hides.build (d : Datum) (hh : h.Hides veil) : h.MakesSeen veil (h.build d) := by
  induction d generalizing h with
  | nil => exact ⟨.refl hh, trivial⟩
  | bool b => exact ⟨.refl hh, trivial⟩
  | symbol name => exact ⟨.refl hh, trivial⟩
  | int n => exact hh.make trivial
  | float x => exact hh.make trivial
  | keyword name => exact hh.make trivial
  | string s => exact hh.make trivial
  | group b items ih =>
    obtain ⟨hspares, hvalues⟩ := Hides.buildAll (fun d hd h hh => ih d hd hh) hh
    rw [Heap.build]
    cases b with
    | round => exact (hspares.hides.makeList hvalues).after hspares
    | square => exact (hspares.hides.makeVector hvalues).after hspares
    | curly =>
      refine MakesSeen.after (hspares.hides.make ?_) hspares
      exact EntriesIn.entriesOf hvalues

end Heap

end Lisp
