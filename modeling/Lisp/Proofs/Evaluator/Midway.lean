import Lisp.Proofs.Evaluator.Confinement
import Lisp.Proofs.Evaluator.Template
import Lisp.Proofs.Evaluator.Unwinding
import Lisp.Proofs.Heap.Copy

/-!
In the middle of the filling of a template. The holes are filled one after the other; a list, vector
or map is made when all its holes have been filled. What has been made is behind a veil until the
whole is done: no form that is evaluated meanwhile leads to it, so it stays as it was made.
-/
namespace Lisp

namespace Heap

/-- What was there is still there, and no table is smaller. -/
structure IsBefore (h u : Heap) : Prop where
  precedes : h.Precedes u
  notSmaller : h.NotSmaller u

variable {g h u : Heap}

theorem content_of_objects {address : Nat} {o : Object} (ho : h.objects[address]? = some o) :
    h.content (.object address) = o.content := by
  simp [content, object, Array.getD_eq_getD_getElem?, ho]

theorem IsBefore.refl (h : Heap) : h.IsBefore h := ⟨.refl h, .refl h⟩

theorem IsBefore.trans (hgh : g.IsBefore h) (hhu : h.IsBefore u) : g.IsBefore u :=
  ⟨hgh.precedes.trans hhu.precedes, hgh.notSmaller.trans hhu.notSmaller⟩

theorem Step.isBefore {grow : Heap → Value → Prop} {frames : Nat} (hstep : Step grow frames h u) :
    h.IsBefore u := by
  refine ⟨?_, hstep.notSmaller⟩
  cases hstep with
  | object o => exact h.precedes_alloc o
  | sequence items metadata => exact h.precedes_makeSequence _ items metadata
  | atom v => exact ⟨fun _ _ ho => ho, fun _ => List.prefix_rfl⟩
  | closure c => exact ⟨fun _ _ ho => ho, fun _ => List.prefix_rfl⟩
  | native n => exact ⟨fun _ _ ho => ho, fun _ => List.prefix_rfl⟩
  | append vs => exact h.precedes_append _ vs
  | reset atom v => exact h.precedes_reset atom v

end Heap

theorem World.Steps.isBefore {may : World.Licence} {w u : World} (hsteps : World.Steps may w u) :
    w.heap.IsBefore u.heap := by
  induction hsteps with
  | refl => exact .refl _
  | tail _ hstep ih =>
    cases hstep with
    | heap hheap => exact ih.trans hheap.isBefore
    | other hheap hscopes => exact hheap ▸ ih
    | _ => exact ih

/-- Nothing was done but that lists, vectors and maps were made. -/
structure World.MakesOnly (w u : World) : Prop where
  world : u = { w with heap := u.heap }
  heap : w.heap.Grows u.heap
  closures : u.heap.closures = w.heap.closures
  natives : u.heap.natives = w.heap.natives
  atoms : u.heap.atoms = w.heap.atoms

theorem World.MakesOnly.refl (w : World) : w.MakesOnly w := ⟨rfl, .refl _, rfl, rfl, rfl⟩

theorem World.MakesOnly.trans {w u x : World} (hwu : w.MakesOnly u) (hux : u.MakesOnly x) :
    w.MakesOnly x where
  world := by
    rw [hux.world, hwu.world]
  heap := hwu.heap.trans hux.heap
  closures := hux.closures.trans hwu.closures
  natives := hux.natives.trans hwu.natives
  atoms := hux.atoms.trans hwu.atoms

open Evaluator Meaning

def Hole.forms : Hole → List Value
  | .unquote forms | .splice forms => forms

/-- One computation after another, where each is given by how it ends. -/
def Follows {α β : Type} (first : World → Ending α → Prop)
    (next : α → World → Ending β → Prop) (w : World) (r : Ending β) : Prop :=
  (∃ a u, first w (.ok a u) ∧ next a u r) ∨ ∃ e u, first w (.error e u) ∧ r = .error e u

/-- The evaluation of the one form that a hole should have. -/
def EvaluatesOnly (frame : FrameId) (special : Special) (forms : List Value) (w : World)
    (r : Ending Value) : Prop :=
  match forms with
  | [form] => Evaluates w form frame r
  | _ => r = .error (.fault (.malformed special .oneForm)) w

/-- How the filling of a hole ends: with the value alone, or with the elements that the value to be
spliced has then. -/
def Hole.Ends (frame : FrameId) : Hole → World → Ending (List Value) → Prop
  | .unquote forms, w, r =>
    Follows (EvaluatesOnly frame .unquote forms) (fun v u r => r = .ok [v] u) w r
  | .splice forms, w, r =>
    Follows (EvaluatesOnly frame .splice forms)
      (fun v u r => r = Run.require (splicedItems · v) u) w r

mutual

/-- How the filling of a template ends. -/
def Template.Ends (frame : FrameId) : Template → World → Ending Value → Prop
  | .constant v, w, r => r = .ok v w
  | .hole forms, w, r => EvaluatesOnly frame .unquote forms w r
  | .list items, w, r => Follows (items.Ends frame) (fun vs u r => r = Run.makeList vs u) w r
  | .vector items, w, r => Follows (items.Ends frame) (fun vs u r => r = Run.makeVector vs u) w r
  | .map entries, w, r => Follows (entries.Ends frame) (fun vs u r => r = Run.makeMap vs u) w r

def TemplateItems.Ends (frame : FrameId) : TemplateItems → World → Ending (List Value) → Prop
  | .nil, w, r => r = .ok [] w
  | .splice forms rest, w, r =>
    Follows ((Hole.splice forms).Ends frame)
      (fun vs => Follows (rest.Ends frame) fun more u r => r = .ok (vs ++ more) u) w r
  | .cons t rest, w, r =>
    Follows (t.Ends frame)
      (fun v => Follows (rest.Ends frame) fun more u r => r = .ok (v :: more) u) w r

def TemplateEntries.Ends (frame : FrameId) : TemplateEntries → World → Ending (List Value) → Prop
  | .nil, w, r => r = .ok [] w
  | .cons key t rest, w, r =>
    Follows (t.Ends frame)
      (fun v => Follows (rest.Ends frame) fun more u r => r = .ok (key :: v :: more) u) w r

end

/-- The holes are filled one after the other, with the answers as given, and between two of them
nothing happens but that values are made. -/
inductive Answered (frame : FrameId) : World → List Hole → List (List Value) → World → Prop
  | nil {w u : World} : w.MakesOnly u → Answered frame w [] [] u
  | cons {w x y u : World} {hole : Hole} {holes : List Hole} {answer : List Value}
    {answers : List (List Value)} :
    w.MakesOnly x → hole.Ends frame x (.ok answer y) → Answered frame y holes answers u →
    Answered frame w (hole :: holes) (answer :: answers) u

/-- All holes before one of them are filled, and of that one something holds there. -/
def Arrives (frame : FrameId) (w : World) (holes : List Hole) (p : Hole → World → Prop) : Prop :=
  ∃ before hole after answers x, holes = before ++ hole :: after ∧
    Answered frame w before answers x ∧ p hole x

mutual

/-- The value is the template with its holes replaced by the answers. What the template is made of
was made anew, at addresses where `p` holds; the entries of a map were put one after the other, with
keys compared in a heap where `q` holds. -/
def Template.IsFilled (q : Heap → Prop) (p : Nat → Prop) (h : Heap) :
    Template → List (List Value) → Value → Prop
  | .constant c, answers, v => answers = [] ∧ v = c
  | .hole _, answers, v => answers = [[v]]
  | .list items, answers, v => ∃ address cell, v = .object address ∧ p address ∧
      h.objects[address]? = some ⟨.list cell, none⟩ ∧ items.IsFilled q p h answers (h.items cell)
  | .vector items, answers, v => ∃ address cell, v = .object address ∧ p address ∧
      h.objects[address]? = some ⟨.vector cell, none⟩ ∧ items.IsFilled q p h answers (h.items cell)
  | .map entries, answers, v => ∃ address g vs, v = .object address ∧ p address ∧ q g ∧
      h.objects[address]? = some ⟨.map (g.entriesOf vs), none⟩ ∧ entries.IsFilled q p h answers vs

def TemplateItems.IsFilled (q : Heap → Prop) (p : Nat → Prop) (h : Heap) :
    TemplateItems → List (List Value) → List Value → Prop
  | .nil, answers, vs => answers = [] ∧ vs = []
  | .splice _ rest, answers, vs => ∃ answer others more, answers = answer :: others ∧
      vs = answer ++ more ∧ rest.IsFilled q p h others more
  | .cons t rest, answers, vs => ∃ mine others v more, answers = mine ++ others ∧ vs = v :: more ∧
      t.IsFilled q p h mine v ∧ rest.IsFilled q p h others more

def TemplateEntries.IsFilled (q : Heap → Prop) (p : Nat → Prop) (h : Heap) :
    TemplateEntries → List (List Value) → List Value → Prop
  | .nil, answers, vs => answers = [] ∧ vs = []
  | .cons key t rest, answers, vs => ∃ mine others v more, answers = mine ++ others ∧
      vs = key :: v :: more ∧ t.IsFilled q p h mine v ∧ rest.IsFilled q p h others more

end

section Order

variable {frame : FrameId} {w u x : World} {holes more : List Hole}
  {answers others : List (List Value)} {p : Hole → World → Prop}

theorem Answered.after (hwx : w.MakesOnly x) (hx : Answered frame x holes answers u) :
    Answered frame w holes answers u := by
  cases hx with
  | nil hxu => exact .nil (hwx.trans hxu)
  | cons hxy hhole hrest => exact .cons (hwx.trans hxy) hhole hrest

theorem Answered.append (hw : Answered frame w holes answers u)
    (hu : Answered frame u more others x) :
    Answered frame w (holes ++ more) (answers ++ others) x := by
  induction hw with
  | nil hwu => exact hu.after hwu
  | cons hwx hhole _ ih => exact .cons hwx hhole (ih hu)

theorem Arrives.left (hw : Arrives frame w holes p) (more : List Hole) :
    Arrives frame w (holes ++ more) p := by
  obtain ⟨before, hole, after, answers, x, rfl, hx⟩ := hw
  exact ⟨before, hole, after ++ more, answers, x, by simp, hx⟩

theorem Arrives.right (hw : Answered frame w holes answers u) (hu : Arrives frame u more p) :
    Arrives frame w (holes ++ more) p := by
  obtain ⟨before, hole, after, others, x, rfl, hx, hp⟩ := hu
  exact ⟨holes ++ before, hole, after, answers ++ others, x, by simp, hw.append hx, hp⟩

/-- The first of the holes is where it is. -/
theorem arrives_first {hole : Hole} (hp : p hole w) : Arrives frame w [hole] p :=
  ⟨[], hole, [], [], w, rfl, .nil (.refl w), hp⟩

end Order

/-- A world in the middle of the filling of a template that was begun with the heap `base`. What has
been made so far is behind the veil. -/
structure Midway (base : Heap) (frame : FrameId) (veil : Veil) (w : World) : Prop where
  ready : w.Ready .all
  frame : w.Opens .all frame
  later : base.IsBefore w.heap
  hides : w.Hides veil
  owns : ∀ address cell, veil.object address →
    (w.heap.content (.object address)).cell? = some cell → veil.cell cell
  new : ∀ address, veil.object address → base.objects.size ≤ address

/-- The veil with nothing behind it. -/
def Veil.none : Veil := ⟨fun _ => False, fun _ => False⟩

theorem Veil.sees_none (v : Value) : Veil.none.Sees v := by
  cases v with
  | object address => exact fun hhidden => hhidden
  | _ => trivial

/-- More is behind the veil than before, and what was there is as it was. -/
structure Deepens (veil veil' : Veil) (w u : World) : Prop where
  before : w.heap.IsBefore u.heap
  object : ∀ address, veil.object address → veil'.object address
  cell : ∀ cell, veil.cell cell → veil'.cell cell
  items : ∀ cell, veil.cell cell → u.heap.items cell = w.heap.items cell

theorem Deepens.refl (veil : Veil) (w : World) : Deepens veil veil w w :=
  ⟨.refl _, fun _ ha => ha, fun _ hc => hc, fun _ _ => rfl⟩

theorem Deepens.trans {veil veil' veil'' : Veil} {w u x : World} (hwu : Deepens veil veil' w u)
    (hux : Deepens veil' veil'' u x) : Deepens veil veil'' w x where
  before := hwu.before.trans hux.before
  object address ha := hux.object address (hwu.object address ha)
  cell cell hc := hux.cell cell (hwu.cell cell hc)
  items cell hc := (hux.items cell (hwu.cell cell hc)).trans (hwu.items cell hc)

/-- What was made is the same in another heap, and equality there is as it was for the keys. -/
structure Carries (K : Value → Prop) (q : Heap → Prop) (p : Nat → Prop) (h : Heap)
    (q' : Heap → Prop) (p' : Nat → Prop) (h' : Heap) : Prop where
  address : ∀ address, p address → p' address
  object : ∀ address o, p address → h.objects[address]? = some o → h'.objects[address]? = some o
  items : ∀ address cell, p address → (h.content (.object address)).cell? = some cell →
    h'.items cell = h.items cell
  equal : ∀ g, q g → ∃ g', q' g' ∧ ∀ k l, K k → K l → g'.equal k l = g.equal k l

section Persisting

variable {K : Value → Prop} {q q' : Heap → Prop} {p p' : Nat → Prop} {h h' : Heap}

theorem TemplateEntries.IsFilled.exists_alternate {entries : TemplateEntries}
    {answers : List (List Value)} {vs : List Value} (hentries : entries.IsFilled q p h answers vs) :
    ∃ made, vs = alternate made ∧ ∀ entry ∈ made, entry.1 ∈ entries.keys := by
  cases entries with
  | nil => exact ⟨[], hentries.2, List.forall_mem_nil _⟩
  | cons key t rest =>
    obtain ⟨_, _, v, _, -, rfl, -, hrest⟩ := hentries
    obtain ⟨made, rfl, hkeys⟩ := hrest.exists_alternate
    refine ⟨(key, v) :: made, rfl, List.forall_mem_cons.mpr ⟨List.mem_cons_self, ?_⟩⟩
    intro entry hentry
    exact List.mem_cons_of_mem _ (List.mem_append_right _ (hkeys entry hentry))

mutual

/-- What has been made stays as it was made. -/
theorem Template.IsFilled.carried {t : Template} {answers : List (List Value)} {v : Value}
    (ht : t.IsFilled q p h answers v) (hcarries : Carries K q p h q' p' h')
    (hkeys : ∀ key ∈ t.keys, K key) : t.IsFilled q' p' h' answers v := by
  cases t with
  | constant c => exact ht
  | hole forms => exact ht
  | list items =>
    obtain ⟨address, cell, rfl, haddress, hobject, hitems⟩ := ht
    have hkept := hcarries.items address cell haddress
      (by rw [Heap.content_of_objects hobject]; rfl)
    refine ⟨address, cell, rfl, hcarries.address address haddress,
      hcarries.object address _ haddress hobject, ?_⟩
    rw [hkept]
    exact hitems.carried hcarries hkeys
  | vector items =>
    obtain ⟨address, cell, rfl, haddress, hobject, hitems⟩ := ht
    have hkept := hcarries.items address cell haddress
      (by rw [Heap.content_of_objects hobject]; rfl)
    refine ⟨address, cell, rfl, hcarries.address address haddress,
      hcarries.object address _ haddress hobject, ?_⟩
    rw [hkept]
    exact hitems.carried hcarries hkeys
  | map entries =>
    obtain ⟨address, g, vs, rfl, haddress, hg, hobject, hentries⟩ := ht
    obtain ⟨g', hg', hequal⟩ := hcarries.equal g hg
    obtain ⟨made, rfl, hmade⟩ := hentries.exists_alternate
    have hsame : g'.entriesOf (alternate made) = g.entriesOf (alternate made) :=
      Heap.entriesOf_congr hequal fun entry hentry => hkeys entry.1 (hmade entry hentry)
    refine ⟨address, g', alternate made, rfl, hcarries.address address haddress, hg', ?_,
      hentries.carried hcarries hkeys⟩
    rw [hsame]
    exact hcarries.object address _ haddress hobject

theorem TemplateItems.IsFilled.carried {items : TemplateItems} {answers : List (List Value)}
    {vs : List Value} (hitems : items.IsFilled q p h answers vs)
    (hcarries : Carries K q p h q' p' h') (hkeys : ∀ key ∈ items.keys, K key) :
    items.IsFilled q' p' h' answers vs := by
  cases items with
  | nil => exact hitems
  | splice forms rest =>
    obtain ⟨answer, others, more, rfl, rfl, hrest⟩ := hitems
    exact ⟨answer, others, more, rfl, rfl, hrest.carried hcarries hkeys⟩
  | cons t rest =>
    obtain ⟨mine, others, v, more, rfl, rfl, ht, hrest⟩ := hitems
    obtain ⟨hmine, hothers⟩ := List.forall_mem_append.mp hkeys
    exact ⟨mine, others, v, more, rfl, rfl, ht.carried hcarries hmine,
      hrest.carried hcarries hothers⟩

theorem TemplateEntries.IsFilled.carried {entries : TemplateEntries} {answers : List (List Value)}
    {vs : List Value} (hentries : entries.IsFilled q p h answers vs)
    (hcarries : Carries K q p h q' p' h') (hkeys : ∀ key ∈ entries.keys, K key) :
    entries.IsFilled q' p' h' answers vs := by
  cases entries with
  | nil => exact hentries
  | cons key t rest =>
    obtain ⟨mine, others, v, more, rfl, rfl, ht, hrest⟩ := hentries
    obtain ⟨-, hkeys⟩ := List.forall_mem_cons.mp hkeys
    obtain ⟨hmine, hothers⟩ := List.forall_mem_append.mp hkeys
    exact ⟨mine, others, v, more, rfl, rfl, ht.carried hcarries hmine,
      hrest.carried hcarries hothers⟩

end

end Persisting

section Steps

variable {base : Heap} {frame : FrameId} {veil veil' : Veil} {w u : World}

/-- When the filling of a template begins, nothing has been made. -/
theorem midway_start (hw : w.Ready .all) (hframe : w.Opens .all frame) :
    Midway w.heap frame Veil.none w where
  ready := hw
  frame := hframe
  later := .refl _
  hides :=
    { heap :=
        { object_lt := fun _ hhidden => hhidden.elim
          cell_lt := fun _ hhidden => hhidden.elim
          enclosed := fun _ _ x _ => Veil.sees_none x
          cell := fun _ _ _ _ hhidden => hhidden
          items := fun _ _ x _ => Veil.sees_none x
          metadata := fun _ m _ _ => Veil.sees_none m
          deref := fun _ => Veil.sees_none _
          body := fun _ => Veil.sees_none _ }
      bound := fun _ _ v _ => Veil.sees_none v }
  owns _ _ hhidden := hhidden.elim
  new _ hhidden := hhidden.elim

theorem Midway.has (hw : Midway base frame veil w) {v : Value}
    (hv : v.IsBelow base.objects.size) : w.heap.Has v :=
  hw.later.notSmaller.has hv

theorem Midway.sees (hw : Midway base frame veil w) {v : Value}
    (hv : v.IsBelow base.objects.size) : veil.Sees v := by
  cases v with
  | object address => exact fun hhidden => Nat.not_lt.mpr (hw.new address hhidden) hv
  | _ => trivial

/-- What is behind the veil keeps its content. -/
theorem Midway.owns_of_isBefore (hw : Midway base frame veil w)
    (hbefore : w.heap.IsBefore u.heap) {address : Nat} {cell : CellId}
    (hhidden : veil.object address)
    (hcell : (u.heap.content (.object address)).cell? = some cell) : veil.cell cell := by
  have hlt : w.heap.Has (.object address) := hw.hides.heap.object_lt address hhidden
  rw [hbefore.precedes.content_of_has hlt] at hcell
  exact hw.owns address cell hhidden hcell

/-- Evaluation comes upon nothing that is behind the veil. -/
theorem Midway.evaluates (hw : Midway base frame veil w) {form : Value}
    (hform : form.IsBelow base.objects.size) {r : Ending Value}
    (heval : Evaluates w form frame r) :
    w.heap.IsBefore r.world.heap ∧
      ∀ v u, r = .ok v u → Midway base frame veil u ∧ Deepens veil veil w u ∧ u.heap.Has v := by
  obtain ⟨n, hn⟩ := heval.exists_eval
  have hbehaves : Behaves .all (eval n n) := behaves_eval (Library.behaves_standard trivial) n n
  have hleads := hbehaves w form frame hw.ready (hw.has hform) hw.frame
  have hstays := confines_eval n n form frame (hw.sees hform) w hw.hides
  rw [hn] at hleads hstays
  cases r with
  | error e u => exact ⟨World.Steps.isBefore hleads.1, fun v u hu => by cases hu⟩
  | ok v u =>
    have hbefore := World.Steps.isBefore hleads.1
    refine ⟨hbefore, fun v u hu => ?_⟩
    cases hu
    refine ⟨⟨hw.ready.steps hleads.1, World.Steps.opens hleads.1 hw.frame, hw.later.trans hbefore,
      hstays.1.hides, fun _ _ => hw.owns_of_isBefore hbefore, hw.new⟩, ?_, hleads.2⟩
    exact ⟨hbefore, fun _ ha => ha, fun _ hc => hc, hstays.1.items⟩

/-- A new object goes behind the veil. -/
theorem Midway.cover (hw : Midway base frame veil w) {h : Heap}
    (hsteps : World.Steps .all w { w with heap := h }) (hhides : h.Hides veil')
    (hobject : ∀ address, veil'.object address ↔
      veil.object address ∨ address = w.heap.objects.size)
    (hcell : ∀ cell, veil.cell cell → veil'.cell cell)
    (hitems : ∀ cell, veil.cell cell → h.items cell = w.heap.items cell)
    (howns : ∀ cell, (h.content (.object w.heap.objects.size)).cell? = some cell →
      veil'.cell cell) :
    Midway base frame veil' { w with heap := h } ∧ Deepens veil veil' w { w with heap := h } := by
  have hbefore : w.heap.IsBefore h := hsteps.isBefore
  refine ⟨⟨hw.ready.steps hsteps, hsteps.opens hw.frame, hw.later.trans hbefore, ⟨hhides, ?_⟩, ?_,
    ?_⟩, hbefore, fun address ha => (hobject address).mpr (.inl ha), hcell, hitems⟩
  · intro f name v hv
    have hsees := hw.hides.bound f name v hv
    have hhas := hw.ready.sound.bound f name v hv
    cases v with
    | object address =>
      intro hhidden
      rcases (hobject address).mp hhidden with hold | rfl
      · exact hsees hold
      · exact Nat.lt_irrefl _ hhas
    | _ => trivial
  · intro address cell hhidden hfound
    rcases (hobject address).mp hhidden with hold | rfl
    · exact hcell cell (hw.owns_of_isBefore (u := { w with heap := h }) hbefore hold hfound)
    · exact howns cell hfound
  · intro address hhidden
    rcases (hobject address).mp hhidden with hold | rfl
    · exact hw.new address hold
    · exact hw.later.notSmaller.objects

/-- A new list or vector goes behind the veil, and so does its cell. -/
theorem Midway.addSequence (hw : Midway base frame veil w) {shape : CellId → Content}
    (hshape : shape = .list ∨ shape = .vector) {items : Sequence Value}
    (hitems : ∀ v ∈ items.toList, w.heap.Has v) :
    ∃ address cell u veil', Run.onHeap (·.makeSequence shape items none) w =
        .ok (.object address) u ∧ w.MakesOnly u ∧ Midway base frame veil' u ∧
      Deepens veil veil' w u ∧ veil'.object address ∧
      u.heap.objects[address]? = some ⟨shape cell, none⟩ ∧ u.heap.items cell = items.toList := by
  have hmakes : Heap.Makes World.Licence.all.Allows w.scopes.frames.size w.heap
      (w.heap.makeSequence shape items none) :=
    Heap.makes_makeSequence hshape hitems fun _ hm => by cases hm
  have hadds : w.MakesOnly { w with heap := (w.heap.makeSequence shape items none).2 } :=
    ⟨rfl, w.heap.grows_makeSequence shape _ none, rfl, rfl, rfl⟩
  have hsound := hw.ready.sound.heap
  have hhides := (hw.hides.heap.addCell hsound items).addObject (hsound.pushCell hitems)
    ⟨shape w.heap.cells.size, none⟩
  have hkept : ∀ cell, veil.cell cell →
      (w.heap.makeSequence shape items none).2.items cell = w.heap.items cell := by
    intro cell hcell
    have hlt := hw.hides.heap.cell_lt cell hcell
    exact (Heap.items_push w.heap _ cell).trans (if_neg (Nat.ne_of_lt hlt))
  have howns : ∀ cell, ((w.heap.makeSequence shape items none).2.content
      (.object w.heap.objects.size)).cell? = some cell →
      veil.cell cell ∨ cell = w.heap.cells.size := by
    intro cell hcell
    rw [Heap.makeSequence, Heap.content_alloc, if_pos rfl] at hcell
    rcases hshape with rfl | rfl <;> cases hcell <;> exact .inr rfl
  obtain ⟨hmidway, hdeepens⟩ := hw.cover (.ofHeap hmakes.1) hhides (fun _ => Iff.rfl)
    (fun _ hcell => .inl hcell) hkept howns
  refine ⟨w.heap.objects.size, w.heap.cells.size, _, _, rfl, hadds, hmidway, hdeepens, .inr rfl,
    ?_, ?_⟩
  · simp
  · exact (Heap.items_push w.heap _ _).trans (if_pos rfl)

theorem Midway.makeSequence (hw : Midway base frame veil w) {shape : CellId → Content}
    (hshape : shape = .list ∨ shape = .vector) {vs : List Value} (hvs : ∀ v ∈ vs, w.heap.Has v) :
    ∃ address cell u veil', Run.onHeap (·.makeSequence shape (.ofList vs) none) w =
        .ok (.object address) u ∧ w.MakesOnly u ∧ Midway base frame veil' u ∧
      Deepens veil veil' w u ∧ veil'.object address ∧
      u.heap.objects[address]? = some ⟨shape cell, none⟩ ∧ u.heap.items cell = vs := by
  have hitems : ∀ v ∈ (Sequence.ofList vs).toList, w.heap.Has v := by simpa using hvs
  have hmade := hw.addSequence hshape hitems
  rw [Sequence.toList_ofList] at hmade
  exact hmade

/-- A new map goes behind the veil. -/
theorem Midway.makeMap (hw : Midway base frame veil w) {vs : List Value}
    (hvs : ∀ v ∈ vs, w.heap.Has v) :
    ∃ address u veil', Run.makeMap vs w = .ok (.object address) u ∧ w.MakesOnly u ∧
      Midway base frame veil' u ∧ Deepens veil veil' w u ∧ veil'.object address ∧
      u.heap.objects[address]? = some ⟨.map (w.heap.entriesOf vs), none⟩ := by
  have hmakes : Heap.Makes World.Licence.all.Allows w.scopes.frames.size w.heap
      (w.heap.make (.map (w.heap.entriesOf vs))) :=
    Heap.makes_make rfl (Heap.hasContent_map.mpr (Heap.EntriesIn.entriesOf hvs))
      (Heap.isKeyed_entriesOf vs)
  have hadds : w.MakesOnly { w with heap := (w.heap.make (.map (w.heap.entriesOf vs))).2 } :=
    ⟨rfl, w.heap.grows_alloc _, rfl, rfl, rfl⟩
  have howns : ∀ cell, ((w.heap.make (.map (w.heap.entriesOf vs))).2.content
      (.object w.heap.objects.size)).cell? = some cell → veil.cell cell := by
    intro cell hcell
    rw [Heap.make, Heap.content_alloc, if_pos rfl] at hcell
    cases hcell
  obtain ⟨hmidway, hdeepens⟩ := hw.cover (.ofHeap hmakes.1)
    (hw.hides.heap.addObject hw.ready.sound.heap _) (fun _ => Iff.rfl) (fun _ hcell => hcell)
    (fun _ _ => rfl) howns
  exact ⟨w.heap.objects.size, _, _, rfl, hadds, hmidway, hdeepens, .inr rfl, by simp⟩

end Steps

end Lisp
