import Lisp.Proofs.Evaluator.Conduct
import Lisp.Proofs.Heap.Loopless
import Lisp.Proofs.Heap.Mirror

/-!
Templates as trees. A value that is not inside itself is read as a template: lists that start with
`unquote` are holes, elements that are lists starting with `splice-unquote` are holes for several
elements, other lists, vectors and maps are made of templates, and all else is kept as it is. What
is read as the same template before and after is read as that template at any time in between.
-/
namespace Lisp

mutual

inductive Template
  | constant (v : Value)
  | hole (forms : List Value)
  | list (items : TemplateItems)
  | vector (items : TemplateItems)
  | map (entries : TemplateEntries)

inductive TemplateItems
  | nil
  | splice (forms : List Value) (rest : TemplateItems)
  | cons (t : Template) (rest : TemplateItems)

inductive TemplateEntries
  | nil
  | cons (key : Value) (t : Template) (rest : TemplateEntries)

end

/-- A place in a template where forms stand that are to be evaluated. -/
inductive Hole
  | unquote (forms : List Value)
  | splice (forms : List Value)

open Evaluator

/-- The value is no list, vector or map. -/
structure Heap.IsPlain (h : Heap) (v : Value) : Prop where
  list : ∀ cell, h.content v ≠ .list cell
  vector : ∀ cell, h.content v ≠ .vector cell
  map : ∀ entries, h.content v ≠ .map entries

mutual

/-- The value is read as the template. -/
def Template.Describes (h : Heap) : Template → Value → Prop
  | .constant c, v => v = c ∧ h.IsPlain v
  | .hole forms, v => holeForms? .unquote h v = some forms
  | .list items, v => holeForms? .unquote h v = none ∧
      ∃ cell, h.content v = .list cell ∧ items.Describes h (h.items cell)
  | .vector items, v => ∃ cell, h.content v = .vector cell ∧ items.Describes h (h.items cell)
  | .map entries, v => ∃ found, h.content v = .map found ∧ entries.Describes h found.toList

def TemplateItems.Describes (h : Heap) : TemplateItems → List Value → Prop
  | .nil, vs => vs = []
  | .splice forms rest, vs => ∃ v more, vs = v :: more ∧ holeForms? .splice h v = some forms ∧
      rest.Describes h more
  | .cons t rest, vs => ∃ v more, vs = v :: more ∧ holeForms? .splice h v = none ∧
      t.Describes h v ∧ rest.Describes h more

def TemplateEntries.Describes (h : Heap) : TemplateEntries → List (Value × Value) → Prop
  | .nil, found => found = []
  | .cons key t rest, found => ∃ v more, found = (key, v) :: more ∧ t.Describes h v ∧
      rest.Describes h more

end

mutual

/-- The holes of a template, from left to right and inner ones in their places. -/
def Template.holes : Template → List Hole
  | .constant _ => []
  | .hole forms => [.unquote forms]
  | .list items | .vector items => items.holes
  | .map entries => entries.holes

def TemplateItems.holes : TemplateItems → List Hole
  | .nil => []
  | .splice forms rest => .splice forms :: rest.holes
  | .cons t rest => t.holes ++ rest.holes

def TemplateEntries.holes : TemplateEntries → List Hole
  | .nil => []
  | .cons _ t rest => t.holes ++ rest.holes

end

mutual

/-- The keys of all maps of a template. -/
def Template.keys : Template → List Value
  | .constant _ | .hole _ => []
  | .list items | .vector items => items.keys
  | .map entries => entries.keys

def TemplateItems.keys : TemplateItems → List Value
  | .nil => []
  | .splice _ rest => rest.keys
  | .cons t rest => t.keys ++ rest.keys

def TemplateEntries.keys : TemplateEntries → List Value
  | .nil => []
  | .cons key t rest => key :: (t.keys ++ rest.keys)

end

mutual

/-- All values that stand in the template are in the set. -/
def Template.IsOver (S : Value → Prop) : Template → Prop
  | .constant v => S v
  | .hole forms => ∀ form ∈ forms, S form
  | .list items | .vector items => items.IsOver S
  | .map entries => entries.IsOver S

def TemplateItems.IsOver (S : Value → Prop) : TemplateItems → Prop
  | .nil => True
  | .splice forms rest => (∀ form ∈ forms, S form) ∧ rest.IsOver S
  | .cons t rest => t.IsOver S ∧ rest.IsOver S

def TemplateEntries.IsOver (S : Value → Prop) : TemplateEntries → Prop
  | .nil => True
  | .cons key t rest => S key ∧ t.IsOver S ∧ rest.IsOver S

end

section Reading

variable {g h u : Heap} {v : Value} {special : Special} {forms : List Value}

theorem holeForms?_eq_some_iff : holeForms? special h v = some forms ↔
    ∃ cell head, h.content v = .list cell ∧ h.items cell = head :: forms ∧
      h.isSymbol head special.name = true := by
  constructor
  · intro hforms
    unfold holeForms? at hforms
    split at hforms
    · rename_i cell hlist
      split at hforms
      · rename_i head rest hitems
        split at hforms
        · rename_i hhead
          cases hforms
          exact ⟨cell, head, hlist, hitems, hhead⟩
        · cases hforms
      · cases hforms
    · cases hforms
  · rintro ⟨cell, head, hlist, hitems, hhead⟩
    simp [holeForms?, hlist, hitems, hhead]

theorem holeForms?_of_no_list (hv : ∀ cell, h.content v ≠ .list cell) :
    holeForms? special h v = none := by
  refine Option.eq_none_iff_forall_ne_some.mpr fun forms hforms => ?_
  obtain ⟨cell, _, hlist, _⟩ := holeForms?_eq_some_iff.mp hforms
  exact hv cell hlist

/-- Whether a list is a hole depends on its elements and on what its head is. -/
theorem holeForms?_congr (hcontent : g.content v = h.content v)
    (hitems : ∀ cell, h.content v = .list cell → g.items cell = h.items cell)
    (hheld : ∀ x, h.Holds v x → g.content x = h.content x) :
    holeForms? special g v = holeForms? special h v := by
  unfold holeForms?
  rw [hcontent]
  cases hlist : h.content v with
  | list cell =>
    simp only [hitems cell hlist]
    cases hparts : h.items cell with
    | nil => rfl
    | cons head rest =>
      have hhead : g.content head = h.content head :=
        hheld head ((Heap.holds_iff_mem_items (by rw [hlist]; rfl)).mpr (by simp [hparts]))
      have hsymbol : g.isSymbol head special.name = h.isSymbol head special.name := by
        unfold Heap.isSymbol Heap.symbol?
        rw [hhead]
      simp only [hsymbol]
  | _ => rfl

end Reading

section Existence

variable {h : Heap} {v : Value}

theorem exists_templateItems {vs : List Value} (hvs : ∀ v ∈ vs, ∃ t : Template, t.Describes h v) :
    ∃ items : TemplateItems, items.Describes h vs := by
  induction vs with
  | nil => exact ⟨.nil, rfl⟩
  | cons v more ih =>
    obtain ⟨⟨t, ht⟩, hmore⟩ := List.forall_mem_cons.mp hvs
    obtain ⟨rest, hrest⟩ := ih hmore
    cases hhole : holeForms? .splice h v with
    | none => exact ⟨.cons t rest, v, more, rfl, hhole, ht, hrest⟩
    | some forms => exact ⟨.splice forms rest, v, more, rfl, hhole, hrest⟩

theorem exists_templateEntries {found : List (Value × Value)}
    (hfound : ∀ entry ∈ found, ∃ t : Template, t.Describes h entry.2) :
    ∃ entries : TemplateEntries, entries.Describes h found := by
  induction found with
  | nil => exact ⟨.nil, rfl⟩
  | cons entry more ih =>
    obtain ⟨⟨t, ht⟩, hmore⟩ := List.forall_mem_cons.mp hfound
    obtain ⟨rest, hrest⟩ := ih hmore
    exact ⟨.cons entry.1 t rest, entry.2, more, rfl, ht, hrest⟩

/-- Every value without cycles is read as a template. -/
theorem exists_template (hv : h.IsLoopless v) : ∃ t : Template, t.Describes h v := by
  have hacc := hv.acc
  clear hv
  induction hacc with
  | intro v _ ih =>
    cases hhole : holeForms? .unquote h v with
    | some forms => exact ⟨.hole forms, hhole⟩
    | none =>
      cases hcontent : h.content v with
      | list cell =>
        have hinside : ∀ x ∈ h.items cell, ∃ t : Template, t.Describes h x := fun x hx =>
          ih x ((Heap.holds_iff_mem_items (by rw [hcontent]; rfl)).mpr hx)
        obtain ⟨items, hitems⟩ := exists_templateItems hinside
        exact ⟨.list items, hhole, cell, hcontent, hitems⟩
      | vector cell =>
        have hinside : ∀ x ∈ h.items cell, ∃ t : Template, t.Describes h x := fun x hx =>
          ih x ((Heap.holds_iff_mem_items (by rw [hcontent]; rfl)).mpr hx)
        obtain ⟨items, hitems⟩ := exists_templateItems hinside
        exact ⟨.vector items, cell, hcontent, hitems⟩
      | map found =>
        have hinside : ∀ entry ∈ found.toList, ∃ t : Template, t.Describes h entry.2 :=
          fun entry hentry => ih entry.2 (Heap.encloses_entry hcontent hentry).2.holds
        obtain ⟨entries, hentries⟩ := exists_templateEntries hinside
        exact ⟨.map entries, found, hcontent, hentries⟩
      | _ => exact ⟨.constant v, rfl, by constructor <;> simp [hcontent]⟩

end Existence

section Values

variable {h : Heap} {S : Value → Prop}

theorem items_of_hereditary (hS : h.Hereditary S) {v : Value} (hv : S v) {cell : CellId}
    (hcell : (h.content v).cell? = some cell) : ∀ x ∈ h.items cell, S x := fun x hx =>
  hS v x hv ((Heap.holds_iff_mem_items hcell).mpr hx)

theorem entries_of_hereditary (hS : h.Hereditary S) {v : Value} (hv : S v) {entries : Entries}
    (hmap : h.content v = .map entries) : ∀ entry ∈ entries.toList, S entry.1 ∧ S entry.2 :=
  fun entry hentry =>
    have hencloses := Heap.encloses_entry hmap hentry
    ⟨hS v entry.1 hv hencloses.1.holds, hS v entry.2 hv hencloses.2.holds⟩

theorem forms_of_hereditary (hS : h.Hereditary S) {v : Value} (hv : S v) {special : Special}
    {forms : List Value} (hhole : holeForms? special h v = some forms) :
    ∀ form ∈ forms, S form := by
  obtain ⟨cell, head, hlist, hitems, -⟩ := holeForms?_eq_some_iff.mp hhole
  have hcell : (h.content v).cell? = some cell := by rw [hlist]; rfl
  have hall := items_of_hereditary hS hv hcell
  rw [hitems] at hall
  exact (List.forall_mem_cons.mp hall).2

mutual

/-- A set that has with a value all that it holds has all values of the template that the value is
read as. -/
theorem Template.Describes.isOver {t : Template} {v : Value} (ht : t.Describes h v)
    (hS : h.Hereditary S) (hv : S v) : t.IsOver S := by
  cases t with
  | constant c =>
    obtain ⟨rfl, -⟩ := ht
    exact hv
  | hole forms => exact forms_of_hereditary hS hv ht
  | list items =>
    obtain ⟨-, cell, hlist, hitems⟩ := ht
    exact hitems.isOver hS (items_of_hereditary hS hv (by rw [hlist]; rfl))
  | vector items =>
    obtain ⟨cell, hvector, hitems⟩ := ht
    exact hitems.isOver hS (items_of_hereditary hS hv (by rw [hvector]; rfl))
  | map entries =>
    obtain ⟨found, hmap, hentries⟩ := ht
    exact hentries.isOver hS (entries_of_hereditary hS hv hmap)

theorem TemplateItems.Describes.isOver {items : TemplateItems} {vs : List Value}
    (hitems : items.Describes h vs) (hS : h.Hereditary S) (hvs : ∀ v ∈ vs, S v) :
    items.IsOver S := by
  cases items with
  | nil => trivial
  | splice forms rest =>
    obtain ⟨v, more, rfl, hhole, hrest⟩ := hitems
    obtain ⟨hv, hmore⟩ := List.forall_mem_cons.mp hvs
    exact ⟨forms_of_hereditary hS hv hhole, hrest.isOver hS hmore⟩
  | cons t rest =>
    obtain ⟨v, more, rfl, -, ht, hrest⟩ := hitems
    obtain ⟨hv, hmore⟩ := List.forall_mem_cons.mp hvs
    exact ⟨ht.isOver hS hv, hrest.isOver hS hmore⟩

theorem TemplateEntries.Describes.isOver {entries : TemplateEntries}
    {found : List (Value × Value)} (hentries : entries.Describes h found) (hS : h.Hereditary S)
    (hfound : ∀ entry ∈ found, S entry.1 ∧ S entry.2) : entries.IsOver S := by
  cases entries with
  | nil => trivial
  | cons key t rest =>
    obtain ⟨v, more, rfl, ht, hrest⟩ := hentries
    obtain ⟨⟨hkey, hv⟩, hmore⟩ := List.forall_mem_cons.mp hfound
    exact ⟨hkey, ht.isOver hS hv, hrest.isOver hS hmore⟩

end

mutual

theorem Template.IsOver.keys {t : Template} (ht : t.IsOver S) : ∀ key ∈ t.keys, S key := by
  cases t with
  | constant v => exact List.forall_mem_nil _
  | hole forms => exact List.forall_mem_nil _
  | list items =>
    have hitems : items.IsOver S := ht
    exact hitems.keys
  | vector items =>
    have hitems : items.IsOver S := ht
    exact hitems.keys
  | map entries =>
    have hentries : entries.IsOver S := ht
    exact hentries.keys

theorem TemplateItems.IsOver.keys {items : TemplateItems} (hitems : items.IsOver S) :
    ∀ key ∈ items.keys, S key := by
  cases items with
  | nil => exact List.forall_mem_nil _
  | splice forms rest => exact hitems.2.keys
  | cons t rest => exact List.forall_mem_append.mpr ⟨hitems.1.keys, hitems.2.keys⟩

theorem TemplateEntries.IsOver.keys {entries : TemplateEntries} (hentries : entries.IsOver S) :
    ∀ key ∈ entries.keys, S key := by
  cases entries with
  | nil => exact List.forall_mem_nil _
  | cons key t rest =>
    exact List.forall_mem_cons.mpr ⟨hentries.1,
      List.forall_mem_append.mpr ⟨hentries.2.1.keys, hentries.2.2.keys⟩⟩

end

end Values

section Between

/-- How many elements a list or vector has that is read as the template. -/
def TemplateItems.width : TemplateItems → Nat
  | .nil => 0
  | .splice _ rest | .cons _ rest => rest.width + 1

def Template.width : Template → Nat
  | .hole forms => forms.length + 1
  | .list items | .vector items => items.width
  | _ => 0

theorem TemplateItems.Describes.length_eq {h : Heap} {items : TemplateItems} {vs : List Value}
    (hitems : items.Describes h vs) : vs.length = items.width := by
  induction vs generalizing items with
  | nil =>
    cases items with
    | nil => rfl
    | splice forms rest =>
      obtain ⟨_, _, hcons, _⟩ := hitems
      cases hcons
    | cons t rest =>
      obtain ⟨_, _, hcons, _⟩ := hitems
      cases hcons
  | cons v more ih =>
    cases items with
    | nil => cases hitems
    | splice forms rest =>
      obtain ⟨_, _, hcons, _, hrest⟩ := hitems
      cases hcons
      exact congrArg (· + 1) (ih hrest)
    | cons t rest =>
      obtain ⟨_, _, hcons, _, _, hrest⟩ := hitems
      cases hcons
      exact congrArg (· + 1) (ih hrest)

theorem Template.Describes.length_items {h : Heap} {t : Template} {v : Value} {cell : CellId}
    (ht : t.Describes h v) (hcell : (h.content v).cell? = some cell) :
    (h.items cell).length = t.width := by
  cases t with
  | constant c =>
    obtain ⟨-, hplain⟩ := ht
    cases hcontent : h.content v with
    | list other => exact absurd hcontent (hplain.list other)
    | vector other => exact absurd hcontent (hplain.vector other)
    | _ =>
      rw [hcontent] at hcell
      cases hcell
  | hole forms =>
    obtain ⟨other, head, hlist, hitems, -⟩ := holeForms?_eq_some_iff.mp ht
    rw [hlist] at hcell
    cases hcell
    exact congrArg List.length hitems
  | list items =>
    obtain ⟨-, other, hlist, hitems⟩ := ht
    rw [hlist] at hcell
    cases hcell
    exact hitems.length_eq
  | vector items =>
    obtain ⟨other, hvector, hitems⟩ := ht
    rw [hvector] at hcell
    cases hcell
    exact hitems.length_eq
  | map entries =>
    obtain ⟨found, hmap, -⟩ := ht
    rw [hmap] at hcell
    cases hcell

variable {h g u : Heap}

/-- A list that is no longer in the end than it was before has not grown in between. -/
theorem Heap.Precedes.items_eq (hhg : h.Precedes g) (hgu : g.Precedes u) {cell : CellId}
    (hlength : (h.items cell).length = (u.items cell).length) : g.items cell = h.items cell := by
  have hle := (hhg.items cell).length_le
  have hle' := (hgu.items cell).length_le
  exact ((hhg.items cell).eq_of_length (by omega)).symm

theorem holeForms?_between (hhg : h.Precedes g) (hgu : g.Precedes u) (hsound : h.IsSound)
    {special : Special} {v : Value} {forms : List Value} (hv : h.Has v)
    (hbefore : holeForms? special h v = some forms) (hafter : holeForms? special u v = some forms) :
    holeForms? special g v = some forms := by
  obtain ⟨cell, head, hlist, hitems, -⟩ := holeForms?_eq_some_iff.mp hbefore
  obtain ⟨other, last, hother, hothers, -⟩ := holeForms?_eq_some_iff.mp hafter
  rw [(hhg.trans hgu).content_of_has hv, hlist] at hother
  cases hother
  rw [← hbefore]
  refine holeForms?_congr (hhg.content_of_has hv) (fun found hfound => ?_) fun x hx => ?_
  · rw [hlist] at hfound
    cases hfound
    exact hhg.items_eq hgu (by simp [hitems, hothers])
  · exact hhg.content_of_has (hsound.isClosed.holds hv hx)

/-- What keeps its template keeps its elements. -/
theorem Template.Describes.items_between (hhg : h.Precedes g) (hgu : g.Precedes u) {t : Template}
    {v : Value} {cell : CellId} (hv : h.Has v) (hbefore : t.Describes h v)
    (hafter : t.Describes u v) (hcell : (h.content v).cell? = some cell) :
    g.items cell = h.items cell ∧ u.items cell = h.items cell := by
  have hcell' : (u.content v).cell? = some cell := by
    rwa [(hhg.trans hgu).content_of_has hv]
  have hlength : (h.items cell).length = (u.items cell).length :=
    (hbefore.length_items hcell).trans (hafter.length_items hcell').symm
  exact ⟨hhg.items_eq hgu hlength, (hhg.trans hgu).items_eq (.refl u) hlength⟩

theorem Template.Describes.holeForms?_eq (hhg : h.Precedes g) (hgu : g.Precedes u)
    (hsound : h.IsSound) {t : Template} {v : Value} (hv : h.Has v) (hbefore : t.Describes h v)
    (hafter : t.Describes u v) (special : Special) :
    holeForms? special g v = holeForms? special h v := by
  refine holeForms?_congr (hhg.content_of_has hv) (fun cell hlist => ?_) fun x hx => ?_
  · exact (hbefore.items_between hhg hgu hv hafter (by rw [hlist]; rfl)).1
  · exact hhg.content_of_has (hsound.isClosed.holds hv hx)

mutual

/-- What is read as the same template before and after is read so in between. -/
theorem Template.Describes.between {t : Template} {v : Value} (hbefore : t.Describes h v)
    (hafter : t.Describes u v) (hhg : h.Precedes g) (hgu : g.Precedes u) (hsound : h.IsSound)
    (hv : h.Has v) : t.Describes g v := by
  have hcontent := hhg.content_of_has hv
  have hcontent' := (hhg.trans hgu).content_of_has hv
  have hkept : ∀ cell, (h.content v).cell? = some cell →
      g.items cell = h.items cell ∧ u.items cell = h.items cell := fun _ hcell =>
    hbefore.items_between hhg hgu hv hafter hcell
  have hnone := hbefore.holeForms?_eq hhg hgu hsound hv hafter .unquote
  cases t with
  | constant c =>
    obtain ⟨rfl, hplain⟩ := hbefore
    refine ⟨rfl, ?_, ?_, ?_⟩ <;> rw [hcontent]
    exacts [hplain.list, hplain.vector, hplain.map]
  | hole forms => exact hnone.trans hbefore
  | list items =>
    obtain ⟨hhole, cell, hlist, hitems⟩ := hbefore
    obtain ⟨-, other, hlist', hitems'⟩ := hafter
    rw [hcontent', hlist] at hlist'
    cases hlist'
    obtain ⟨hmid, hend⟩ := hkept cell (by rw [hlist]; rfl)
    rw [hend] at hitems'
    refine ⟨hnone.trans hhole, cell, hcontent.trans hlist, ?_⟩
    rw [hmid]
    exact hitems.between hitems' hhg hgu hsound (hsound.items cell)
  | vector items =>
    obtain ⟨cell, hvector, hitems⟩ := hbefore
    obtain ⟨other, hvector', hitems'⟩ := hafter
    rw [hcontent', hvector] at hvector'
    cases hvector'
    obtain ⟨hmid, hend⟩ := hkept cell (by rw [hvector]; rfl)
    rw [hend] at hitems'
    refine ⟨cell, hcontent.trans hvector, ?_⟩
    rw [hmid]
    exact hitems.between hitems' hhg hgu hsound (hsound.items cell)
  | map entries =>
    obtain ⟨found, hmap, hentries⟩ := hbefore
    obtain ⟨other, hmap', hentries'⟩ := hafter
    rw [hcontent', hmap] at hmap'
    cases hmap'
    refine ⟨found, hcontent.trans hmap, ?_⟩
    exact hentries.between hentries' hhg hgu hsound (entries_in hsound.isClosed hv hmap)

theorem TemplateItems.Describes.between {items : TemplateItems} {vs : List Value}
    (hbefore : items.Describes h vs) (hafter : items.Describes u vs) (hhg : h.Precedes g)
    (hgu : g.Precedes u) (hsound : h.IsSound) (hvs : ∀ v ∈ vs, h.Has v) :
    items.Describes g vs := by
  cases items with
  | nil => exact hbefore
  | splice forms rest =>
    obtain ⟨v, more, rfl, hhole, hrest⟩ := hbefore
    obtain ⟨_, _, hcons, hhole', hrest'⟩ := hafter
    cases hcons
    obtain ⟨hv, hmore⟩ := List.forall_mem_cons.mp hvs
    exact ⟨v, more, rfl, holeForms?_between hhg hgu hsound hv hhole hhole',
      hrest.between hrest' hhg hgu hsound hmore⟩
  | cons t rest =>
    obtain ⟨v, more, rfl, hhole, ht, hrest⟩ := hbefore
    obtain ⟨_, _, hcons, -, ht', hrest'⟩ := hafter
    cases hcons
    obtain ⟨hv, hmore⟩ := List.forall_mem_cons.mp hvs
    exact ⟨v, more, rfl, (ht.holeForms?_eq hhg hgu hsound hv ht' .splice).trans hhole,
      ht.between ht' hhg hgu hsound hv, hrest.between hrest' hhg hgu hsound hmore⟩

theorem TemplateEntries.Describes.between {entries : TemplateEntries}
    {found : List (Value × Value)} (hbefore : entries.Describes h found)
    (hafter : entries.Describes u found) (hhg : h.Precedes g) (hgu : g.Precedes u)
    (hsound : h.IsSound) (hfound : ∀ entry ∈ found, h.Has entry.1 ∧ h.Has entry.2) :
    entries.Describes g found := by
  cases entries with
  | nil => exact hbefore
  | cons key t rest =>
    obtain ⟨v, more, rfl, ht, hrest⟩ := hbefore
    obtain ⟨_, _, hcons, ht', hrest'⟩ := hafter
    cases hcons
    obtain ⟨⟨-, hv⟩, hmore⟩ := List.forall_mem_cons.mp hfound
    exact ⟨v, more, rfl, ht.between ht' hhg hgu hsound hv,
      hrest.between hrest' hhg hgu hsound hmore⟩

end

end Between

end Lisp
