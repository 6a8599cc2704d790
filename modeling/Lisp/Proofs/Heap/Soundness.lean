import Lisp.Heap.Equality
import Lisp.Proofs.Heap.Termination

/-!
What can happen to a heap. Every change is one of a few steps: a new object, cell, atom or function,
more elements at the end of a list, another value in an atom. A heap is sound when all that it
refers to is there, when maps and errors hold only what is older than they are, and when no two
objects share a cell. Steps keep heaps sound, and all ways to make a value are made of steps.
-/
namespace Lisp

/-- A constant, a symbol, or an object with an address below the bound. -/
def Value.IsBelow (bound : Nat) : Value → Prop
  | .object address => address < bound
  | _ => True

instance Value.decidableIsBelow (bound : Nat) : (v : Value) → Decidable (v.IsBelow bound)
  | .object address => inferInstanceAs (Decidable (address < bound))
  | .nil | .bool _ | .symbol _ => .isTrue trivial

theorem Value.IsBelow.mono {v : Value} {m n : Nat} (hv : v.IsBelow m) (hmn : m ≤ n) :
    v.IsBelow n := by
  cases v with
  | object address => exact Nat.lt_of_lt_of_le hv hmn
  | _ => trivial

/-- The cell of a list or vector. -/
def Content.cell? : Content → Option CellId
  | .list cell | .vector cell => some cell
  | _ => none

namespace Heap

/-- The value is one that the heap has handed out. -/
def Has (h : Heap) (v : Value) : Prop := v.IsBelow h.objects.size

instance (h : Heap) (v : Value) : Decidable (h.Has v) :=
  inferInstanceAs (Decidable (v.IsBelow h.objects.size))

theorem has_of_content_ne_nil {h : Heap} {v : Value} (hv : h.content v ≠ .nil) : h.Has v := by
  cases v with
  | object address =>
    by_contra hlt
    refine hv ?_
    have hge : ¬ address < h.objects.size := hlt
    simp [content, object, Array.getD, hge]
  | _ => trivial

/-- What a content refers to is there. -/
def HasContent (h : Heap) : Content → Prop
  | .list cell | .vector cell => cell < h.cells.size
  | .map entries => ∀ entry ∈ entries.toList, h.Has entry.1 ∧ h.Has entry.2
  | .atom cell => cell < h.atoms.size
  | .native id => id < h.natives.size
  | .closure id => id < h.closures.size
  | .error payload => h.Has payload
  | _ => True

/-- Two keys stand in one map, in this order. -/
def Joined (h : Heap) (key later : Value) : Prop :=
  ∃ v entries, h.content v = .map entries ∧ [key, later].Sublist (entries.toList.map (·.1))

/-- Any two keys of a map are different, or stand in a map that is there already. -/
def IsKeyed (h : Heap) : Content → Prop
  | .map entries => (entries.toList.map (·.1)).Pairwise fun key later =>
      h.equal key later = false ∨ h.Joined key later
  | _ => True

theorem isKeyed_map {h : Heap} {entries : Entries} :
    h.IsKeyed (.map entries) ↔ (entries.toList.map (·.1)).Pairwise fun key later =>
      h.equal key later = false ∨ h.Joined key later :=
  Iff.rfl

structure IsSound (h : Heap) : Prop where
  content : ∀ v, h.HasContent (h.content v)
  metadata : ∀ v m, h.metadata? v = some m → h.Has m
  items : ∀ cell, ∀ v ∈ h.items cell, h.Has v
  deref : ∀ atom, h.Has (h.deref atom)
  body : ∀ id, h.Has (h.closure id).body
  older : ∀ address, ∀ v ∈ (h.content (.object address)).enclosed, v.IsBelow address
  owner : ∀ u v cell, (h.content u).cell? = some cell → (h.content v).cell? = some cell → u = v

/-- A set of values that no way through the heap leads out of. -/
structure IsClosed (h : Heap) (S : Value → Prop) : Prop where
  constant : ∀ v, (∀ address, v ≠ .object address) → S v
  enclosed : ∀ v, S v → ∀ x ∈ (h.content v).enclosed, S x
  items : ∀ v cell, S v → (h.content v).cell? = some cell → ∀ x ∈ h.items cell, S x
  metadata : ∀ v m, S v → h.metadata? v = some m → S m
  deref : ∀ atom, S (h.deref atom)
  body : ∀ id, S (h.closure id).body

/-- The changes to a heap. Functions are made in one of `frames` frames; `grow` says which lists may
grow. -/
inductive Step (grow : Heap → Value → Prop) (frames : Nat) : Heap → Heap → Prop
  | object {h : Heap} (o : Object) :
    o.content.cell? = none → h.HasContent o.content → (∀ m, o.metadata = some m → h.Has m) →
    h.IsKeyed o.content → Step grow frames h (h.alloc o).2
  | sequence {h : Heap} {shape : CellId → Content} (items : Sequence Value)
    (metadata : Option Value) :
    shape = .list ∨ shape = .vector → (∀ v ∈ items.toList, h.Has v) →
    (∀ m, metadata = some m → h.Has m) → Step grow frames h (h.makeSequence shape items metadata).2
  | atom {h : Heap} (v : Value) : h.Has v → Step grow frames h { h with atoms := h.atoms.push v }
  | closure {h : Heap} (c : Closure) :
    h.Has c.body → c.scope < frames → Step grow frames h { h with closures := h.closures.push c }
  | native {h : Heap} (n : Native) : Step grow frames h { h with natives := h.natives.push n }
  | append {h : Heap} {list : Value} {cell : CellId} (vs : List Value) :
    grow h list → h.content list = .list cell → (∀ v ∈ vs, h.Has v) →
    Step grow frames h (h.append cell vs)
  | reset {h : Heap} (atom : AtomId) (v : Value) : h.Has v → Step grow frames h (h.reset atom v)

section Primitives

variable (h : Heap)

theorem object_alloc (o : Object) (v : Value) :
    (h.alloc o).2.object v = if v = .object h.objects.size then o else h.object v := by
  cases v with
  | object address =>
    simp only [object, alloc, Array.getD_eq_getD_getElem?, Array.getElem?_push, Value.object.injEq]
    split <;> rfl
  | _ => rfl

theorem content_alloc (o : Object) (v : Value) :
    (h.alloc o).2.content v = if v = .object h.objects.size then o.content else h.content v := by
  rw [content, object_alloc]
  split <;> rfl

theorem metadata?_alloc (o : Object) (v : Value) :
    (h.alloc o).2.metadata? v =
      if v = .object h.objects.size then o.metadata else h.metadata? v := by
  rw [metadata?, object_alloc]
  split <;> rfl

theorem items_push (items : Sequence Value) (cell : CellId) :
    ({ h with cells := h.cells.push items } : Heap).items cell =
      if cell = h.cells.size then items.toList else h.items cell := by
  simp only [Heap.items, sequence, Array.getD_eq_getD_getElem?, Array.getElem?_push]
  split <;> rfl

theorem items_append (cell other : CellId) (vs : List Value) :
    (h.append cell vs).items other =
      if other = cell ∧ cell < h.cells.size then h.items cell ++ vs else h.items other := by
  simp only [Heap.items, sequence, append, Array.getD_eq_getD_getElem?, Array.getElem?_modify]
  by_cases hcell : cell = other
  · subst hcell
    by_cases hlt : cell < h.cells.size <;> simp [hlt]
  · simp [hcell, Ne.symm hcell]

theorem deref_push (v : Value) (atom : AtomId) :
    ({ h with atoms := h.atoms.push v } : Heap).deref atom =
      if atom = h.atoms.size then v else h.deref atom := by
  simp only [deref, Array.getD_eq_getD_getElem?, Array.getElem?_push]
  split <;> rfl

theorem deref_reset (atom other : AtomId) (v : Value) :
    (h.reset atom v).deref other =
      if other = atom ∧ atom < h.atoms.size then v else h.deref other := by
  simp only [deref, reset, Array.getD_eq_getD_getElem?, Array.getElem?_setIfInBounds]
  by_cases hatom : atom = other
  · subst hatom
    by_cases hlt : atom < h.atoms.size <;> simp [hlt]
  · simp [hatom, Ne.symm hatom]

theorem closure_push (c : Closure) (id : ClosureId) :
    ({ h with closures := h.closures.push c } : Heap).closure id =
      if id = h.closures.size then c else h.closure id := by
  simp only [closure, Array.getD_eq_getD_getElem?, Array.getElem?_push]
  split <;> rfl

end Primitives

/-- No table of the second heap is smaller. -/
structure NotSmaller (h h' : Heap) : Prop where
  objects : h.objects.size ≤ h'.objects.size
  cells : h.cells.size ≤ h'.cells.size
  atoms : h.atoms.size ≤ h'.atoms.size
  natives : h.natives.size ≤ h'.natives.size
  closures : h.closures.size ≤ h'.closures.size

theorem NotSmaller.refl (h : Heap) : h.NotSmaller h := by constructor <;> exact Nat.le_refl _

theorem NotSmaller.trans {h h' h'' : Heap} (hab : h.NotSmaller h') (hbc : h'.NotSmaller h'') :
    h.NotSmaller h'' where
  objects := Nat.le_trans hab.objects hbc.objects
  cells := Nat.le_trans hab.cells hbc.cells
  atoms := Nat.le_trans hab.atoms hbc.atoms
  natives := Nat.le_trans hab.natives hbc.natives
  closures := Nat.le_trans hab.closures hbc.closures

theorem Step.notSmaller {grow : Heap → Value → Prop} {frames : Nat} {h h' : Heap}
    (hstep : Step grow frames h h') : h.NotSmaller h' := by
  cases hstep <;> constructor <;> simp [alloc, makeSequence, Heap.append, Heap.reset]

theorem NotSmaller.has {h h' : Heap} (hle : h.NotSmaller h') {v : Value} (hv : h.Has v) :
    h'.Has v :=
  Value.IsBelow.mono hv hle.objects

theorem NotSmaller.hasContent {h h' : Heap} (hle : h.NotSmaller h') {c : Content}
    (hc : h.HasContent c) : h'.HasContent c := by
  cases c with
  | list cell => exact Nat.lt_of_lt_of_le hc hle.cells
  | vector cell => exact Nat.lt_of_lt_of_le hc hle.cells
  | map entries =>
    exact fun entry hentry => (hc entry hentry).imp hle.has hle.has
  | atom cell => exact Nat.lt_of_lt_of_le hc hle.atoms
  | native id => exact Nat.lt_of_lt_of_le hc hle.natives
  | closure id => exact Nat.lt_of_lt_of_le hc hle.closures
  | error payload => exact hle.has hc
  | _ => trivial

theorem HasContent.enclosed {h : Heap} {c : Content} (hc : h.HasContent c) {v : Value}
    (hv : v ∈ c.enclosed) : h.Has v := by
  cases c with
  | map entries =>
    obtain ⟨entry, hentry, rfl | rfl⟩ := mem_alternate.mp hv
    · exact (hc entry hentry).1
    · exact (hc entry hentry).2
  | error payload =>
    obtain rfl := List.mem_singleton.mp hv
    exact hc
  | _ => cases hv

section Closed

variable {h : Heap} {S : Value → Prop} (hclosed : h.IsClosed S)
include hclosed

theorem IsClosed.nil : S .nil := hclosed.constant .nil fun _ heq => by cases heq

theorem IsClosed.bool (b : Bool) : S (.bool b) := hclosed.constant _ fun _ heq => by cases heq

theorem IsClosed.symbol (name : Text) : S (.symbol name) :=
  hclosed.constant _ fun _ heq => by cases heq

theorem IsClosed.holds {v x : Value} (hv : S v) (hx : h.Holds v x) : S x := by
  unfold Holds held at hx
  have henclosed := hclosed.enclosed v hv
  split at hx
  · rename_i cell hlist
    exact hclosed.items v cell hv (by rw [hlist]; rfl) x hx
  · rename_i cell hvector
    exact hclosed.items v cell hv (by rw [hvector]; rfl) x hx
  · exact henclosed x hx

end Closed

theorem IsSound.isClosed {h : Heap} (hsound : h.IsSound) : h.IsClosed h.Has where
  constant v hv := by
    cases v with
    | object address => exact absurd rfl (hv address)
    | _ => trivial
  enclosed v _ _ hx := (hsound.content v).enclosed hx
  items _ cell _ _ := hsound.items cell
  metadata v m _ := hsound.metadata v m
  deref := hsound.deref
  body := hsound.body

theorem HasContent.cell_lt {h : Heap} {c : Content} (hc : h.HasContent c) {cell : CellId}
    (hcell : c.cell? = some cell) : cell < h.cells.size := by
  cases c with
  | list other =>
    cases hcell
    exact hc
  | vector other =>
    cases hcell
    exact hc
  | _ => cases hcell

/-- A new object whose cell, if it has one, is no other's. -/
theorem IsSound.alloc {h : Heap} (hsound : h.IsSound) {o : Object}
    (hcontent : h.HasContent o.content) (hmetadata : ∀ m, o.metadata = some m → h.Has m)
    (hcell : ∀ v cell, o.content.cell? = some cell → (h.content v).cell? ≠ some cell) :
    (h.alloc o).2.IsSound := by
  have hle : h.NotSmaller (h.alloc o).2 := by constructor <;> simp [Heap.alloc]
  constructor
  case content =>
    intro v
    rw [content_alloc]
    split
    · exact hle.hasContent hcontent
    · exact hle.hasContent (hsound.content v)
  case metadata =>
    intro v m hm
    rw [metadata?_alloc] at hm
    split at hm
    · exact hle.has (hmetadata m hm)
    · exact hle.has (hsound.metadata v m hm)
  case items => exact fun cell v hv => hle.has (hsound.items cell v hv)
  case deref => exact fun atom => hle.has (hsound.deref atom)
  case body => exact fun id => hle.has (hsound.body id)
  case older =>
    intro address v hv
    rw [content_alloc] at hv
    split at hv
    · rename_i heq
      cases heq
      exact hcontent.enclosed hv
    · exact hsound.older address v hv
  case owner =>
    intro u v cell hu hv
    rw [content_alloc] at hu hv
    split at hu <;> split at hv
    · simp_all
    · exact absurd hv (hcell v cell hu)
    · exact absurd hu (hcell u cell hv)
    · exact hsound.owner u v cell hu hv

theorem IsSound.pushCell {h : Heap} (hsound : h.IsSound) {items : Sequence Value}
    (hitems : ∀ v ∈ items.toList, h.Has v) :
    ({ h with cells := h.cells.push items } : Heap).IsSound := by
  have hle : h.NotSmaller { h with cells := h.cells.push items } := by constructor <;> simp
  refine { hsound with content := ?_, items := ?_ }
  · exact fun v => hle.hasContent (hsound.content v)
  · intro cell v hv
    rw [items_push] at hv
    split at hv
    · exact hitems v hv
    · exact hsound.items cell v hv

/-- Steps keep heaps sound. -/
theorem IsSound.step {grow : Heap → Value → Prop} {frames : Nat} {h h' : Heap} (hsound : h.IsSound)
    (hstep : Step grow frames h h') : h'.IsSound := by
  have hle := hstep.notSmaller
  cases hstep with
  | object o hcell hcontent hmetadata =>
    exact hsound.alloc hcontent hmetadata fun v cell hsome => by simp [hcell] at hsome
  | @sequence shape items metadata hshape hitems hmetadata =>
    refine (hsound.pushCell hitems).alloc ?_ hmetadata fun v cell hnew hold => ?_
    · rcases hshape with rfl | rfl <;> simp [HasContent]
    · have hlt := (hsound.content v).cell_lt hold
      rcases hshape with rfl | rfl <;> cases hnew <;> exact Nat.lt_irrefl _ hlt
  | atom v hv =>
    refine { hsound with content := fun u => hle.hasContent (hsound.content u), deref := ?_ }
    intro atom
    rw [deref_push]
    split
    · exact hv
    · exact hsound.deref atom
  | closure c hbody hscope =>
    refine { hsound with content := fun u => hle.hasContent (hsound.content u), body := ?_ }
    intro id
    rw [closure_push]
    split
    · exact hbody
    · exact hsound.body id
  | native n => exact { hsound with content := fun u => hle.hasContent (hsound.content u) }
  | @append list cell vs _ hlist hvs =>
    refine { hsound with content := fun u => hle.hasContent (hsound.content u), items := ?_ }
    intro other v hv
    rw [items_append] at hv
    split at hv
    · rcases List.mem_append.mp hv with hold | hnew
      · exact hsound.items cell v hold
      · exact hvs v hnew
    · exact hsound.items other v hv
  | reset atom v hv =>
    refine { hsound with content := fun u => hle.hasContent (hsound.content u), deref := ?_ }
    intro other
    rw [deref_reset]
    split
    · exact hv
    · exact hsound.deref other

/-- In a sound heap the way through maps and errors leads to older objects. -/
theorem IsSound.isGrounded {h : Heap} (hsound : h.IsSound) : h.IsGrounded := by
  have hbelow : ∀ a b, Relation.TransGen h.Encloses a b → ∃ address, a = .object address ∧
      b.IsBelow address := by
    intro a b hab
    induction hab with
    | single hab =>
      obtain ⟨address, _, rfl⟩ := exists_object_of_holds hab.holds
      exact ⟨address, rfl, hsound.older address _ hab⟩
    | tail _ hbc ih =>
      obtain ⟨address, rfl, hb⟩ := ih
      obtain ⟨other, _, rfl⟩ := exists_object_of_holds hbc.holds
      exact ⟨address, rfl, (hsound.older other _ hbc).mono (Nat.le_of_lt hb)⟩
  intro a hloop
  obtain ⟨address, rfl, hlt⟩ := hbelow a a hloop
  exact Nat.lt_irrefl address hlt

theorem isSound_empty : ({} : Heap).IsSound := by
  have hcontent : ∀ v, (({} : Heap).content v).enclosed = [] ∧
      (({} : Heap).content v).cell? = none ∧ ({} : Heap).HasContent (({} : Heap).content v) := by
    intro v
    cases v <;> exact ⟨rfl, rfl, trivial⟩
  constructor
  case content => exact fun v => (hcontent v).2.2
  case metadata =>
    intro v m hm
    cases v <;> cases hm
  case items =>
    intro cell v hv
    cases hv
  case deref => exact fun _ => trivial
  case body => exact fun _ => trivial
  case older =>
    intro address v hv
    rw [(hcontent _).1] at hv
    cases hv
  case owner =>
    intro u v cell hu
    rw [(hcontent u).2.1] at hu
    cases hu

section Makers

variable {grow : Heap → Value → Prop} {frames : Nat} {h : Heap}

/-- What is there is keyed: its keys stand in itself. -/
theorem isKeyed_content (v : Value) : h.IsKeyed (h.content v) := by
  cases hc : h.content v with
  | map entries =>
    refine List.pairwise_iff_forall_sublist.mpr fun hsub => Or.inr ⟨v, entries, hc, hsub⟩
  | _ => trivial

abbrev Steps (grow : Heap → Value → Prop) (frames : Nat) : Heap → Heap → Prop :=
  Relation.ReflTransGen (Step grow frames)

/-- A value and the heap in which it was made. -/
def Makes (grow : Heap → Value → Prop) (frames : Nat) (h : Heap) (made : Value × Heap) : Prop :=
  Steps grow frames h made.2 ∧ made.2.Has made.1

theorem makes_alloc {o : Object} (hstep : Step grow frames h (h.alloc o).2) :
    Makes grow frames h (h.alloc o) :=
  ⟨.single hstep, by simp [alloc, Has, Value.IsBelow]⟩

theorem makes_make {c : Content} (hcell : c.cell? = none) (hc : h.HasContent c)
    (hkeyed : h.IsKeyed c) : Makes grow frames h (h.make c) :=
  makes_alloc (.object _ hcell hc (fun _ hm => by cases hm) hkeyed)

theorem makes_makeSequence {shape : CellId → Content} {items : Sequence Value}
    {metadata : Option Value} (hshape : shape = .list ∨ shape = .vector)
    (hitems : ∀ v ∈ items.toList, h.Has v) (hmetadata : ∀ m, metadata = some m → h.Has m) :
    Makes grow frames h (h.makeSequence shape items metadata) :=
  ⟨.single (.sequence items metadata hshape hitems hmetadata),
    by simp [makeSequence, alloc, Has, Value.IsBelow]⟩

theorem makes_makeList {items : List Value} (hitems : ∀ v ∈ items, h.Has v) :
    Makes grow frames h (h.makeList items) :=
  makes_makeSequence (.inl rfl) (by simpa using hitems) fun _ hm => by cases hm

theorem makes_makeVector {items : List Value} (hitems : ∀ v ∈ items, h.Has v) :
    Makes grow frames h (h.makeVector items) :=
  makes_makeSequence (.inr rfl) (by simpa using hitems) fun _ hm => by cases hm

/-- A new row of a table, and then the object for it. -/
theorem makes_row {h' : Heap} {o : Object} (hrow : Step grow frames h h')
    (hcell : o.content.cell? = none) (hcontent : h'.HasContent o.content)
    (hmetadata : ∀ m, o.metadata = some m → h.Has m) (hkeyed : h'.IsKeyed o.content) :
    Makes grow frames h (h'.alloc o) := by
  have halloc : Makes grow frames h' (h'.alloc o) :=
    makes_alloc
      (.object o hcell hcontent (fun m hm => hrow.notSmaller.has (hmetadata m hm)) hkeyed)
  exact ⟨.head hrow halloc.1, halloc.2⟩

theorem makes_makeAtom {v : Value} (hv : h.Has v) : Makes grow frames h (h.makeAtom v) :=
  makes_row (.atom v hv) rfl (by simp [HasContent]) (fun _ hm => by cases hm) trivial

theorem makes_makeClosure {c : Closure} {metadata : Option Value} (hbody : h.Has c.body)
    (hscope : c.scope < frames) (hmetadata : ∀ m, metadata = some m → h.Has m) :
    Makes grow frames h (h.makeClosure c metadata) :=
  makes_row (.closure c hbody hscope) rfl (by simp [HasContent]) hmetadata trivial

theorem makes_makeNative (n : Native) : Makes grow frames h (h.makeNative n) :=
  makes_row (.native n) rfl (by simp [HasContent]) (fun _ hm => by cases hm) trivial

theorem makes_withMetadata {v m : Value} (hsound : h.IsSound) (hm : h.Has m) :
    Makes grow frames h (h.withMetadata v m) := by
  have hmetadata : ∀ other, some m = some other → h.Has other := fun other hother => by
    cases hother
    exact hm
  have hcontent := hsound.content v
  unfold withMetadata
  split
  · rename_i cell _
    exact makes_makeSequence (.inl rfl) (hsound.items cell) hmetadata
  · rename_i cell _
    exact makes_makeSequence (.inr rfl) (hsound.items cell) hmetadata
  · rename_i hlist hvector
    refine makes_alloc (.object _ ?_ hcontent hmetadata (isKeyed_content v))
    cases hc : h.content v with
    | list cell => exact absurd hc (hlist cell)
    | vector cell => exact absurd hc (hvector cell)
    | _ => rfl

end Makers

section Entries

variable {grow : Heap → Value → Prop} {frames : Nat} {h : Heap}

/-- All keys and values of the entries are in the set. -/
def EntriesIn (S : Value → Prop) (entries : Entries) : Prop :=
  ∀ entry ∈ entries.toList, S entry.1 ∧ S entry.2

theorem hasContent_map {entries : Entries} :
    h.HasContent (.map entries) ↔ EntriesIn h.Has entries :=
  Iff.rfl

variable {S : Value → Prop}

theorem EntriesIn.put {entries : Entries} {key value : Value} (hentries : EntriesIn S entries)
    (hkey : S key) (hvalue : S value) : EntriesIn S (h.put entries key value) := by
  intro entry hentry
  rw [toList_put] at hentry
  split at hentry
  · obtain ⟨j, hj⟩ := List.mem_iff_getElem?.mp hentry
    rw [List.getElem?_modify] at hj
    obtain ⟨old, hold, rfl⟩ := Option.map_eq_some_iff.mp hj
    have hmem := hentries old (List.mem_of_getElem? hold)
    split
    · exact ⟨hmem.1, hvalue⟩
    · exact hmem
  · rcases List.mem_append.mp hentry with hold | hnew
    · exact hentries entry hold
    · obtain rfl := List.mem_singleton.mp hnew
      exact ⟨hkey, hvalue⟩

theorem EntriesIn.assoc {entries : Entries} {vs : List Value} (hentries : EntriesIn S entries)
    (hvs : ∀ v ∈ vs, S v) : EntriesIn S (h.assoc entries vs) := by
  fun_induction Heap.assoc h entries vs with
  | case1 entries key value more ih =>
    have hput := hentries.put (h := h) (hvs key (by simp)) (hvs value (by simp))
    exact ih hput fun v hv => hvs v (by simp [hv])
  | case2 => exact hentries

theorem EntriesIn.entriesOf {vs : List Value} (hvs : ∀ v ∈ vs, S v) :
    EntriesIn S (h.entriesOf vs) := by
  have hempty : EntriesIn S .empty := fun entry hentry => by cases hentry
  exact hempty.assoc hvs

theorem EntriesIn.dissoc {entries : Entries} (hentries : EntriesIn S entries)
    (keys : List Value) : EntriesIn S (h.dissoc entries keys) := by
  intro entry hentry
  rw [toList_dissoc] at hentry
  exact hentries entry (List.mem_filter.mp hentry).1

/-- A key is added only when it differs from all keys before it. -/
theorem IsKeyed.put {entries : Entries} (hentries : h.IsKeyed (.map entries)) (key value : Value) :
    h.IsKeyed (.map (h.put entries key value)) := by
  rw [isKeyed_map] at hentries ⊢
  rw [toList_put]
  split
  · rwa [map_fst_modify]
  · rename_i hnone
    have hfresh := List.findIdx?_eq_none_iff.mp hnone
    rw [List.map_append, List.pairwise_append]
    refine ⟨hentries, List.pairwise_singleton .., ?_⟩
    intro k hk l hl
    obtain ⟨entry, hentry, rfl⟩ := List.mem_map.mp hk
    obtain rfl : l = key := by simpa using hl
    exact Or.inl (hfresh entry hentry)

theorem IsKeyed.assoc {entries : Entries} (hentries : h.IsKeyed (.map entries))
    (vs : List Value) : h.IsKeyed (.map (h.assoc entries vs)) := by
  fun_induction Heap.assoc h entries vs with
  | case1 entries key value more ih => exact ih (hentries.put key value)
  | case2 => exact hentries

theorem isKeyed_empty : h.IsKeyed (.map .empty) := List.Pairwise.nil

theorem isKeyed_entriesOf (vs : List Value) : h.IsKeyed (.map (h.entriesOf vs)) :=
  isKeyed_empty.assoc vs

theorem IsKeyed.dissoc {entries : Entries} (hentries : h.IsKeyed (.map entries))
    (keys : List Value) : h.IsKeyed (.map (h.dissoc entries keys)) := by
  rw [isKeyed_map] at hentries ⊢
  rw [toList_dissoc]
  exact hentries.sublist (List.Sublist.map _ List.filter_sublist)

theorem Steps.notSmaller {h h' : Heap} (hsteps : Steps grow frames h h') : h.NotSmaller h' := by
  induction hsteps with
  | refl => exact .refl h
  | tail _ hstep ih => exact ih.trans hstep.notSmaller

theorem IsSound.steps {h h' : Heap} (hsound : h.IsSound) (hsteps : Steps grow frames h h') :
    h'.IsSound := by
  induction hsteps with
  | refl => exact hsound
  | tail _ hstep ih => exact ih.step hstep

/-- A value made once another computation has run. -/
theorem Makes.after {h' : Heap} {made : Value × Heap} (hmade : Makes grow frames h' made)
    (hsteps : Steps grow frames h h') : Makes grow frames h made :=
  ⟨hsteps.trans hmade.1, hmade.2⟩

theorem makes_buildAll {items : List Datum}
    (hitems : ∀ d ∈ items, ∀ h : Heap, Makes grow frames h (h.build d)) (h : Heap) :
    Steps grow frames h (h.buildAll items).2 ∧
      ∀ v ∈ (h.buildAll items).1, (h.buildAll items).2.Has v := by
  induction items generalizing h with
  | nil => exact ⟨.refl, fun v hv => by cases hv⟩
  | cons d rest ih =>
    obtain ⟨hfirst, hvalue⟩ := hitems d List.mem_cons_self h
    obtain ⟨hmore, hvalues⟩ := ih (fun e he => hitems e (List.mem_cons_of_mem d he)) (h.build d).2
    rw [buildAll]
    refine ⟨hfirst.trans hmore, fun v hv => ?_⟩
    rcases List.mem_cons.mp hv with rfl | hv
    · exact hmore.notSmaller.has hvalue
    · exact hvalues v hv

theorem makes_build (d : Datum) (h : Heap) : Makes grow frames h (h.build d) := by
  induction d generalizing h with
  | nil => exact ⟨.refl, trivial⟩
  | bool b => exact ⟨.refl, trivial⟩
  | symbol name => exact ⟨.refl, trivial⟩
  | int n => exact makes_make rfl trivial trivial
  | float x => exact makes_make rfl trivial trivial
  | keyword name => exact makes_make rfl trivial trivial
  | string s => exact makes_make rfl trivial trivial
  | group b items ih =>
    obtain ⟨hsteps, hvalues⟩ := makes_buildAll ih h
    rw [build]
    cases b with
    | round => exact (makes_makeList hvalues).after hsteps
    | square => exact (makes_makeVector hvalues).after hsteps
    | curly =>
      refine Makes.after (makes_make rfl (hasContent_map.mpr ?_) (isKeyed_entriesOf _)) hsteps
      exact EntriesIn.entriesOf hvalues

end Entries

end Heap

/-- A content that refers to no row of a table, and to no value outside the set. -/
def Content.IsOver (S : Value → Prop) : Content → Prop
  | .map entries => Heap.EntriesIn S entries
  | .error payload => S payload
  | .list _ | .vector _ | .atom _ | .native _ | .closure _ => False
  | _ => True

theorem Content.IsOver.hasContent {h : Heap} {c : Content} (hc : c.IsOver h.Has) :
    h.HasContent c := by
  cases c with
  | map entries => exact hc
  | error payload => exact hc
  | list cell => cases hc
  | vector cell => cases hc
  | atom cell => cases hc
  | native id => cases hc
  | closure id => cases hc
  | _ => trivial

theorem Content.IsOver.cell?_eq_none {S : Value → Prop} {c : Content} (hc : c.IsOver S) :
    c.cell? = none := by
  cases c with
  | list cell => cases hc
  | vector cell => cases hc
  | _ => rfl

theorem Content.IsOver.enclosed {S : Value → Prop} {c : Content} (hc : c.IsOver S) {v : Value}
    (hv : v ∈ c.enclosed) : S v := by
  cases c with
  | map entries =>
    obtain ⟨entry, hentry, rfl | rfl⟩ := mem_alternate.mp hv
    · exact (hc entry hentry).1
    · exact (hc entry hentry).2
  | error payload =>
    obtain rfl := List.mem_singleton.mp hv
    exact hc
  | _ => cases hv

end Lisp
