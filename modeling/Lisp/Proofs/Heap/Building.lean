import Lisp.Proofs.Heap.Equality

/-!
What is built of a datum unfolds to the settled datum, in a heap that has grown: a map keeps the
first of several equal keys and the last of their values.
-/
namespace Lisp.Heap

theorem grows_alloc (h : Heap) (o : Object) : h.Grows (h.alloc o).2 := by
  refine ⟨fun address o' ho => ?_, fun _ _ hcell => hcell⟩
  obtain ⟨hlt, _⟩ := Array.getElem?_eq_some_iff.mp ho
  simp only [alloc, Array.getElem?_push]
  rw [if_neg (by omega)]
  exact ho

theorem content?_alloc (h : Heap) (o : Object) :
    (h.alloc o).2.content? (h.alloc o).1 = some o.content := by
  simp [alloc, content?]

theorem grows_make (h : Heap) (c : Content) : h.Grows (h.make c).2 := h.grows_alloc _

theorem content?_make (h : Heap) (c : Content) :
    (h.make c).2.content? (h.make c).1 = some c :=
  h.content?_alloc _

theorem grows_push_cell (h : Heap) (items : Sequence Value) :
    h.Grows { h with cells := h.cells.push items } := by
  refine ⟨fun _ _ ho => ho, fun cell items' hcell => ?_⟩
  obtain ⟨hlt, _⟩ := Array.getElem?_eq_some_iff.mp hcell
  simp only [Array.getElem?_push]
  rw [if_neg (by omega)]
  exact hcell

theorem grows_makeSequence (h : Heap) (shape : CellId → Content) (items : Sequence Value)
    (metadata : Option Value) : h.Grows (h.makeSequence shape items metadata).2 :=
  (h.grows_push_cell items).trans (grows_alloc _ _)

theorem grows_makeClosure (h : Heap) (c : Closure) (metadata : Option Value) :
    h.Grows (h.makeClosure c metadata).2 :=
  ⟨(grows_alloc { h with closures := h.closures.push c } _).objects, fun _ _ hcell => hcell⟩

theorem content?_makeSequence (h : Heap) (shape : CellId → Content) (items : Sequence Value)
    (metadata : Option Value) :
    (h.makeSequence shape items metadata).2.content? (h.makeSequence shape items metadata).1 =
      some (shape h.cells.size) :=
  content?_alloc _ _

theorem cells_makeSequence (h : Heap) (shape : CellId → Content) (items : Sequence Value)
    (metadata : Option Value) :
    (h.makeSequence shape items metadata).2.cells[h.cells.size]? = some items := by
  simp [makeSequence, alloc]

theorem parts?_makeList (h : Heap) (items : List Value) :
    (h.makeList items).2.parts? (h.makeList items).1 = some (.round, items) := by
  have hcontent := h.content?_makeSequence .list (.ofList items) none
  have hcell := h.cells_makeSequence .list (.ofList items) none
  rw [makeList, parts?, hcontent]
  simp [hcell]

theorem parts?_makeVector (h : Heap) (items : List Value) :
    (h.makeVector items).2.parts? (h.makeVector items).1 = some (.square, items) := by
  have hcontent := h.content?_makeSequence .vector (.ofList items) none
  have hcell := h.cells_makeSequence .vector (.ofList items) none
  rw [makeVector, parts?, hcontent]
  simp [hcell]

theorem parts?_make_map (h : Heap) (entries : Entries) :
    (h.make (.map entries)).2.parts? (h.make (.map entries)).1 =
      some (.curly, alternate entries.toList) := by
  rw [parts?, content?_make]

section Growth

variable (h : Heap)

theorem grows_buildAll {items : List Datum}
    (hitems : ∀ d ∈ items, ∀ h : Heap, h.Grows (h.build d).2) : h.Grows (h.buildAll items).2 := by
  induction items generalizing h with
  | nil => exact .refl h
  | cons d rest ih =>
    rw [buildAll]
    exact (hitems d List.mem_cons_self h).trans
      (ih (h.build d).2 fun e he => hitems e (List.mem_cons_of_mem d he))

theorem grows_build (d : Datum) : h.Grows (h.build d).2 := by
  induction d generalizing h with
  | group b items ih =>
    have hitems := h.grows_buildAll ih
    rw [build]
    cases b with
    | round => exact hitems.trans (grows_makeSequence ..)
    | square => exact hitems.trans (grows_makeSequence ..)
    | curly => exact hitems.trans (grows_make ..)
  | nil => exact .refl h
  | bool b => exact .refl h
  | symbol name => exact .refl h
  | _ => exact h.grows_make _

end Growth

/-- An entry of a map unfolds to a pair of data. -/
def UnfoldsEntry (h : Heap) (entry : Value × Value) (pair : Datum × Datum) : Prop :=
  h.Unfolds entry.1 pair.1 ∧ h.Unfolds entry.2 pair.2

theorem findIdx?_eq_findIdx? {α β : Type} {R : α → β → Prop} {xs : List α} {ys : List β}
    {f : α → Bool} {g : β → Bool} (hxs : List.Forall₂ R xs ys)
    (heq : ∀ x, ∀ y ∈ ys, R x y → f x = g y) : xs.findIdx? f = ys.findIdx? g := by
  induction hxs with
  | nil => rfl
  | cons hxy _ ih =>
    rw [List.findIdx?_cons, List.findIdx?_cons, heq _ _ List.mem_cons_self hxy,
      ih fun x y hy => heq x y (List.mem_cons_of_mem _ hy)]

theorem forall₂_modify {α β : Type} {R : α → β → Prop} {xs : List α} {ys : List β} {f : α → α}
    {g : β → β} (hxs : List.Forall₂ R xs ys) (i : Nat) (hfg : ∀ x y, R x y → R (f x) (g y)) :
    List.Forall₂ R (xs.modify i f) (ys.modify i g) := by
  induction hxs generalizing i with
  | nil => simp
  | cons hxy hrest ih =>
    cases i with
    | zero => exact .cons (hfg _ _ hxy) hrest
    | succ i => exact .cons hxy (ih i)

theorem unfolds_put {h : Heap} {entries : Entries} {es : List (Datum × Datum)} {key value : Value}
    {k v : Datum} (hentries : List.Forall₂ h.UnfoldsEntry entries.toList es)
    (hkey : h.Unfolds key k) (hvalue : h.Unfolds value v) (htidy : k.Each Datum.IsTidy)
    (hkeys : ∀ e ∈ es, e.1.Each Datum.IsTidy) :
    List.Forall₂ h.UnfoldsEntry (h.put entries key value).toList (Datum.put es k v) := by
  have hindex : (entries.toList.findIdx? fun entry => h.equal entry.1 key) =
      es.findIdx? fun e => e.1.same k :=
    findIdx?_eq_findIdx? hentries fun entry e he hentry =>
      equal_eq_same hentry.1 hkey (hkeys e he) htidy
  rw [toList_put, Datum.put, hindex]
  cases es.findIdx? fun e => e.1.same k with
  | none => exact List.rel_append hentries (.cons ⟨hkey, hvalue⟩ .nil)
  | some i => exact forall₂_modify hentries i fun entry e hentry => ⟨hentry.1, hvalue⟩

theorem unfolds_assoc {h : Heap} {entries : Entries} {es : List (Datum × Datum)}
    {values : List Value} {items : List Datum}
    (hentries : List.Forall₂ h.UnfoldsEntry entries.toList es)
    (hitems : List.Forall₂ h.Unfolds values items)
    (hes : ∀ e ∈ es, e.1.Each Datum.IsTidy ∧ e.2.Each Datum.IsTidy)
    (htidy : ∀ d ∈ items, d.Each Datum.IsTidy) :
    List.Forall₂ h.UnfoldsEntry (h.assoc entries values).toList (Datum.assoc es items) := by
  induction es, items using Datum.assoc.induct generalizing entries values with
  | case1 es k v more ih =>
    obtain ⟨key, values, hkey, hvalues, rfl⟩ := List.forall₂_cons_right_iff.mp hitems
    obtain ⟨value, rest, hvalue, hrest, rfl⟩ := List.forall₂_cons_right_iff.mp hvalues
    have htidyKey : k.Each Datum.IsTidy := htidy k (by simp)
    have htidyValue : v.Each Datum.IsTidy := htidy v (by simp)
    rw [assoc, Datum.assoc]
    exact ih (unfolds_put hentries hkey hvalue htidyKey fun e he => (hes e he).1) hrest
      (Datum.forall_put hes htidyKey htidyValue) fun d hd => htidy d (by simp [hd])
  | case2 es items hshort =>
    have hshort' : ∀ key value more, values ≠ key :: value :: more := by
      rintro key value more rfl
      obtain ⟨k, rest, _, hrest, rfl⟩ := List.forall₂_cons_left_iff.mp hitems
      obtain ⟨v, rest, _, _, rfl⟩ := List.forall₂_cons_left_iff.mp hrest
      exact hshort k v rest rfl
    rw [assoc, Datum.assoc]
    · exact hentries
    · exact hshort
    · exact hshort'

theorem forall₂_alternate {h : Heap} {entries : List (Value × Value)} {es : List (Datum × Datum)}
    (hentries : List.Forall₂ h.UnfoldsEntry entries es) :
    List.Forall₂ h.Unfolds (alternate entries) (alternate es) := by
  induction hentries with
  | nil => exact .nil
  | cons hentry _ ih => exact .cons hentry.1 (.cons hentry.2 ih)

theorem unfolds_entriesOf {h : Heap} {values : List Value} {items : List Datum}
    (hitems : List.Forall₂ h.Unfolds values items) (htidy : ∀ d ∈ items, d.Each Datum.IsTidy) :
    List.Forall₂ h.Unfolds (alternate (h.entriesOf values).toList)
      (alternate (Datum.assoc [] items)) := by
  have hempty : List.Forall₂ h.UnfoldsEntry (Sequence.empty : Entries).toList [] := .nil
  exact forall₂_alternate (unfolds_assoc hempty hitems (fun e he => by cases he) htidy)

theorem buildAll_spec {items : List Datum}
    (hitems : ∀ d ∈ items, ∀ h : Heap,
      h.Grows (h.build d).2 ∧ (h.build d).2.Unfolds (h.build d).1 d.settled) (h : Heap) :
    h.Grows (h.buildAll items).2 ∧
      List.Forall₂ (h.buildAll items).2.Unfolds (h.buildAll items).1
        (items.map Datum.settled) := by
  induction items generalizing h with
  | nil => exact ⟨.refl h, .nil⟩
  | cons d rest ih =>
    obtain ⟨hgrows, hd⟩ := hitems d List.mem_cons_self h
    obtain ⟨hmore, hrest⟩ := ih (fun e he => hitems e (List.mem_cons_of_mem d he)) (h.build d).2
    rw [buildAll, List.map_cons]
    exact ⟨hgrows.trans hmore, .cons (hmore.unfolds hd) hrest⟩

/-- What is built of a datum unfolds to it, once it has settled. -/
theorem build_spec {d : Datum} (hd : d.Each Datum.IsNumber) (h : Heap) :
    h.Grows (h.build d).2 ∧ (h.build d).2.Unfolds (h.build d).1 d.settled := by
  induction d generalizing h with
  | nil => exact ⟨.refl h, rfl⟩
  | bool b => exact ⟨.refl h, rfl⟩
  | symbol name => exact ⟨.refl h, rfl⟩
  | int n => exact ⟨h.grows_make _, h.content?_make _⟩
  | float x => exact ⟨h.grows_make _, h.content?_make _⟩
  | keyword name => exact ⟨h.grows_make _, h.content?_make _⟩
  | string s => exact ⟨h.grows_make _, _, h.content?_make _, Sequence.toList_ofList s⟩
  | group b items ih =>
    obtain ⟨_, hnumbers⟩ := Datum.each_group.mp hd
    obtain ⟨hgrows, hitems⟩ := buildAll_spec (fun d hd h => ih d hd (hnumbers d hd) h) h
    have htidy : ∀ d ∈ items.map Datum.settled, d.Each Datum.IsTidy := by
      intro d hd
      obtain ⟨e, he, rfl⟩ := List.mem_map.mp hd
      exact Datum.tidy_settled (hnumbers e he)
    cases b with
    | round =>
      have hmake :=
        (h.buildAll items).2.grows_makeSequence .list (.ofList (h.buildAll items).1) none
      rw [build, Datum.settled_sequence (by simp)]
      exact ⟨hgrows.trans hmake, unfolds_group.mpr ⟨_, parts?_makeList _ _,
        hitems.imp fun _ _ => hmake.unfolds⟩⟩
    | square =>
      have hmake :=
        (h.buildAll items).2.grows_makeSequence .vector (.ofList (h.buildAll items).1) none
      rw [build, Datum.settled_sequence (by simp)]
      exact ⟨hgrows.trans hmake, unfolds_group.mpr ⟨_, parts?_makeVector _ _,
        hitems.imp fun _ _ => hmake.unfolds⟩⟩
    | curly =>
      have hmake := (h.buildAll items).2.grows_make
        (.map ((h.buildAll items).2.entriesOf (h.buildAll items).1))
      rw [build, Datum.settled_map]
      exact ⟨hgrows.trans hmake, unfolds_group.mpr ⟨_, parts?_make_map _ _,
        (unfolds_entriesOf hitems htidy).imp fun _ _ => hmake.unfolds⟩⟩

end Lisp.Heap
