import Lisp.Proofs.Evaluator.Midway

/-!
How the filling of a template ends. Each hole is evaluated once and in its place, and the outcome is
the template with the holes replaced by what they gave; or one of the holes fails, after those
before it have been filled.
-/
namespace Lisp

open Evaluator Meaning

/-- Where the filling of holes gets to: it fills all of them, with the answers for which `good`
holds, or fills those before one of them, which fails. -/
def Outcome (base : Heap) (frame : FrameId) (veil : Veil) (w : World) (holes : List Hole)
    {α : Type} (good : List (List Value) → Veil → World → α → Prop) : Ending α → Prop
  | .ok a u => ∃ answers veil', Answered frame w holes answers u ∧ Midway base frame veil' u ∧
      Deepens veil veil' w u ∧ good answers veil' u a
  | .error e u => w.heap.IsBefore u.heap ∧
      Arrives frame w holes fun hole x => hole.Ends frame x (.error e u)

section Outcomes

variable {base : Heap} {frame : FrameId} {veil : Veil} {w : World} {α β : Type}
  {holes more : List Hole} {good : List (List Value) → Veil → World → α → Prop}
  {next : List (List Value) → Veil → World → β → Prop} {first : World → Ending α → Prop}
  {second : α → World → Ending β → Prop} {r : Ending β}

/-- The holes of one computation come before those of the computation that follows it. -/
theorem Outcome.follows (hfollows : Follows first second w r)
    (hfirst : ∀ r, first w r → Outcome base frame veil w holes good r)
    (hsecond : ∀ answers veil' a u, Midway base frame veil' u → Deepens veil veil' w u →
      good answers veil' u a → second a u r →
      Outcome base frame veil' u more (fun others => next (answers ++ others)) r) :
    Outcome base frame veil w (holes ++ more) next r := by
  rcases hfollows with ⟨a, u, ha, hr⟩ | ⟨e, u, he, rfl⟩
  · obtain ⟨answers, veil', hanswered, hu, hdeep, hgood⟩ := hfirst _ ha
    have hnext := hsecond answers veil' a u hu hdeep hgood hr
    cases r with
    | ok b x =>
      obtain ⟨others, veil'', hothers, hx, hdeeper, hnext⟩ := hnext
      exact ⟨answers ++ others, veil'', hanswered.append hothers, hx, hdeep.trans hdeeper, hnext⟩
    | error e x => exact ⟨hdeep.before.trans hnext.1, .right hanswered hnext.2⟩
  · obtain ⟨hbefore, harrives⟩ := hfirst _ he
    exact ⟨hbefore, harrives.left more⟩

/-- What follows may have no holes. -/
theorem Outcome.follows_making (hfollows : Follows first second w r)
    (hfirst : ∀ r, first w r → Outcome base frame veil w holes good r)
    (hsecond : ∀ answers veil' a u, Midway base frame veil' u → Deepens veil veil' w u →
      good answers veil' u a → second a u r →
      ∃ b x veil'', r = .ok b x ∧ u.MakesOnly x ∧ Midway base frame veil'' x ∧
        Deepens veil' veil'' u x ∧ next answers veil'' x b) :
    Outcome base frame veil w holes next r := by
  rw [← List.append_nil holes]
  refine Outcome.follows hfollows hfirst fun answers veil' a u hu hdeep hgood hr => ?_
  obtain ⟨b, x, veil'', rfl, hux, hx, hdeeper, hnext⟩ := hsecond answers veil' a u hu hdeep hgood hr
  refine ⟨[], veil'', .nil hux, hx, hdeeper, ?_⟩
  rwa [← List.append_nil answers] at hnext

variable {special : Special} {forms : List Value} {hole : Hole} {v : Value} {vs : List Value}

theorem Midway.evaluatesOnly (hw : Midway base frame veil w)
    (hforms : ∀ form ∈ forms, form.IsBelow base.objects.size) {r : Ending Value}
    (heval : EvaluatesOnly frame special forms w r) :
    w.heap.IsBefore r.world.heap ∧
      ∀ v u, r = .ok v u → Midway base frame veil u ∧ Deepens veil veil w u ∧ u.heap.Has v := by
  match forms with
  | [form] => exact hw.evaluates (hforms form (by simp)) heval
  | [] =>
    cases heval
    exact ⟨.refl _, fun v u hr => by cases hr⟩
  | _ :: _ :: _ =>
    cases heval
    exact ⟨.refl _, fun v u hr => by cases hr⟩

theorem Midway.holeEnds (hw : Midway base frame veil w)
    (hforms : ∀ form ∈ hole.forms, form.IsBelow base.objects.size) {r : Ending (List Value)}
    (hends : hole.Ends frame w r) :
    w.heap.IsBefore r.world.heap ∧ ∀ vs u, r = .ok vs u →
      Midway base frame veil u ∧ Deepens veil veil w u ∧ ∀ v ∈ vs, u.heap.Has v := by
  cases hole with
  | unquote forms =>
    rcases hends with ⟨v, u, hv, rfl⟩ | ⟨e, u, he, rfl⟩
    · obtain ⟨hbefore, hok⟩ := hw.evaluatesOnly hforms hv
      obtain ⟨hu, hdeep, hhas⟩ := hok v u rfl
      refine ⟨hbefore, fun vs x hr => ?_⟩
      cases hr
      exact ⟨hu, hdeep, by simpa using hhas⟩
    · exact ⟨(hw.evaluatesOnly hforms he).1, fun vs x hr => by cases hr⟩
  | splice forms =>
    rcases hends with ⟨v, u, hv, rfl⟩ | ⟨e, u, he, rfl⟩
    · obtain ⟨hbefore, hok⟩ := hw.evaluatesOnly hforms hv
      obtain ⟨hu, hdeep, hhas⟩ := hok v u rfl
      rw [run_require]
      cases hitems : splicedItems u.heap v with
      | error f => exact ⟨hbefore, fun vs x hr => by cases hr⟩
      | ok items =>
        refine ⟨hbefore, fun vs x hr => ?_⟩
        cases hr
        exact ⟨hu, hdeep, splicedItems_in hu.ready.sound.heap.isClosed hhas hitems⟩
    · exact ⟨(hw.evaluatesOnly hforms he).1, fun vs x hr => by cases hr⟩

/-- A hole by itself. -/
theorem Hole.Ends.outcome {r : Ending (List Value)} (hends : hole.Ends frame w r)
    (hw : Midway base frame veil w)
    (hforms : ∀ form ∈ hole.forms, form.IsBelow base.objects.size) :
    Outcome base frame veil w [hole]
      (fun answers _ u vs => answers = [vs] ∧ ∀ v ∈ vs, u.heap.Has v) r := by
  obtain ⟨hbefore, hok⟩ := hw.holeEnds hforms hends
  cases r with
  | ok vs u =>
    obtain ⟨hu, hdeep, hhas⟩ := hok vs u rfl
    exact ⟨[vs], veil, .cons (.refl w) hends (.nil (.refl u)), hu, hdeep, rfl, hhas⟩
  | error e u => exact ⟨hbefore, arrives_first hends⟩

/-- A heap on the way from the one to the other. -/
def Heap.IsBetween (base u g : Heap) : Prop := base.IsBefore g ∧ g.IsBefore u

/-- The value is there, and is the template with its holes replaced by the answers. -/
abbrev Template.FillsTo (base : Heap) (t : Template) (answers : List (List Value)) (veil : Veil)
    (u : World) (v : Value) : Prop :=
  u.heap.Has v ∧ t.IsFilled (base.IsBetween u.heap) veil.object u.heap answers v

abbrev TemplateItems.FillsTo (base : Heap) (items : TemplateItems) (answers : List (List Value))
    (veil : Veil) (u : World) (vs : List Value) : Prop :=
  (∀ v ∈ vs, u.heap.Has v) ∧ items.IsFilled (base.IsBetween u.heap) veil.object u.heap answers vs

abbrev TemplateEntries.FillsTo (base : Heap) (entries : TemplateEntries)
    (answers : List (List Value)) (veil : Veil) (u : World) (vs : List Value) : Prop :=
  (∀ v ∈ vs, u.heap.Has v) ∧ entries.IsFilled (base.IsBetween u.heap) veil.object u.heap answers vs

/-- What is behind the veil stays as it was made. -/
theorem Midway.carries (hw : Midway base frame veil w) {veil' : Veil} {u : World}
    (hdeep : Deepens veil veil' w u) :
    Carries (fun _ => True) (base.IsBetween w.heap) veil.object w.heap (base.IsBetween u.heap)
      veil'.object u.heap where
  address := hdeep.object
  object address o _ ho := hdeep.before.precedes.objects address o ho
  items address cell hhidden hcell := hdeep.items cell (hw.owns address cell hhidden hcell)
  equal g hg := ⟨g, ⟨hg.1, hg.2.trans hdeep.before⟩, fun _ _ _ _ => rfl⟩

/-- Elements that are filled make a list or vector that is filled. -/
theorem Midway.makeFilled (hw : Midway base frame veil w) {shape : CellId → Content}
    (hshape : shape = .list ∨ shape = .vector) {items : TemplateItems}
    {answers : List (List Value)} {vs : List Value}
    (hfilled : items.FillsTo base answers veil w vs) :
    ∃ v u veil', Run.onHeap (·.makeSequence shape (.ofList vs) none) w = .ok v u ∧
      w.MakesOnly u ∧ Midway base frame veil' u ∧ Deepens veil veil' w u ∧ u.heap.Has v ∧
      ∃ address cell, v = .object address ∧ veil'.object address ∧
        u.heap.objects[address]? = some ⟨shape cell, none⟩ ∧
        items.IsFilled (base.IsBetween u.heap) veil'.object u.heap answers (u.heap.items cell) := by
  obtain ⟨address, cell, u, veil', hmade, hwu, hu, hdeep, hhidden, hobject, hitems⟩ :=
    hw.makeSequence hshape hfilled.1
  refine ⟨.object address, u, veil', hmade, hwu, hu, hdeep,
    hu.hides.heap.object_lt address hhidden, address, cell, rfl, hhidden, hobject, ?_⟩
  rw [hitems]
  exact hfilled.2.carried (hw.carries hdeep) fun _ _ => trivial

mutual

/-- The filling of a template fills its holes in turn, and gives the template with the holes
replaced by the answers or ends with the first hole that fails. -/
theorem Template.Ends.outcome {t : Template} {veil : Veil} {w : World} {r : Ending Value}
    (hends : t.Ends frame w r) (hw : Midway base frame veil w)
    (ht : t.IsOver (Value.IsBelow base.objects.size)) :
    Outcome base frame veil w t.holes (t.FillsTo base) r := by
  cases t with
  | constant c =>
    cases hends
    exact ⟨[], veil, .nil (.refl w), hw, .refl veil w, hw.has ht, rfl, rfl⟩
  | hole forms =>
    obtain ⟨hbefore, hok⟩ := hw.evaluatesOnly ht hends
    cases r with
    | ok v u =>
      obtain ⟨hu, hdeep, hhas⟩ := hok v u rfl
      have hhole : (Hole.unquote forms).Ends frame w (.ok [v] u) := .inl ⟨v, u, hends, rfl⟩
      exact ⟨[[v]], veil, .cons (.refl w) hhole (.nil (.refl u)), hu, hdeep, hhas, rfl⟩
    | error e u =>
      have hhole : (Hole.unquote forms).Ends frame w (.error e u) := .inr ⟨e, u, hends, rfl⟩
      exact ⟨hbefore, arrives_first hhole⟩
  | list items =>
    have hfollows : Follows (items.Ends frame) (fun vs u r => r = Run.makeList vs u) w r := hends
    refine Outcome.follows_making hfollows (fun r hr => hr.outcome hw ht)
      fun answers veil' vs u hu _ hgood hr => ?_
    obtain ⟨v, x, veil'', hmade, hfilled⟩ := hu.makeFilled (.inl rfl) hgood
    exact ⟨v, x, veil'', hr.trans hmade, hfilled⟩
  | vector items =>
    have hfollows : Follows (items.Ends frame) (fun vs u r => r = Run.makeVector vs u) w r := hends
    refine Outcome.follows_making hfollows (fun r hr => hr.outcome hw ht)
      fun answers veil' vs u hu _ hgood hr => ?_
    obtain ⟨v, x, veil'', hmade, hfilled⟩ := hu.makeFilled (.inr rfl) hgood
    exact ⟨v, x, veil'', hr.trans hmade, hfilled⟩
  | map entries =>
    have hfollows : Follows (entries.Ends frame) (fun vs u r => r = Run.makeMap vs u) w r := hends
    refine Outcome.follows_making hfollows (fun r hr => hr.outcome hw ht)
      fun answers veil' vs u hu _ hgood hr => ?_
    obtain ⟨address, x, veil'', hmade, hux, hx, hdeep, hhidden, hobject⟩ := hu.makeMap hgood.1
    refine ⟨.object address, x, veil'', hr.trans hmade, hux, hx, hdeep, ?_, ?_⟩
    · exact hx.hides.heap.object_lt address hhidden
    · exact ⟨address, u.heap, vs, rfl, hhidden, ⟨hu.later, hdeep.before⟩, hobject,
        hgood.2.carried (hu.carries hdeep) fun _ _ => trivial⟩

theorem TemplateItems.Ends.outcome {items : TemplateItems} {veil : Veil} {w : World}
    {r : Ending (List Value)} (hends : items.Ends frame w r) (hw : Midway base frame veil w)
    (hitems : items.IsOver (Value.IsBelow base.objects.size)) :
    Outcome base frame veil w items.holes (items.FillsTo base) r := by
  cases items with
  | nil =>
    cases hends
    exact ⟨[], veil, .nil (.refl w), hw, .refl veil w, List.forall_mem_nil _, rfl, rfl⟩
  | splice forms rest =>
    have hfollows : Follows ((Hole.splice forms).Ends frame)
      (fun vs => Follows (rest.Ends frame) fun more u r => r = .ok (vs ++ more) u) w r := hends
    refine Outcome.follows hfollows (fun r hr => hr.outcome hw hitems.1)
      fun answers veil' vs u hu _ hgood hr => ?_
    refine Outcome.follows_making hr (fun r hr => hr.outcome hu hitems.2)
      fun others veil'' more x hx hdeep hmore hr => ?_
    refine ⟨vs ++ more, x, veil'', hr, .refl x, hx, .refl veil'' x, ?_, ?_⟩
    · exact List.forall_mem_append.mpr ⟨fun v hv => hdeep.before.notSmaller.has (hgood.2 v hv),
        hmore.1⟩
    · exact ⟨vs, others, more, by rw [hgood.1]; rfl, rfl, hmore.2⟩
  | cons t rest =>
    have hfollows : Follows (t.Ends frame)
      (fun v => Follows (rest.Ends frame) fun more u r => r = .ok (v :: more) u) w r := hends
    refine Outcome.follows hfollows (fun r hr => hr.outcome hw hitems.1)
      fun answers veil' v u hu _ hgood hr => ?_
    refine Outcome.follows_making hr (fun r hr => hr.outcome hu hitems.2)
      fun others veil'' more x hx hdeep hmore hr => ?_
    refine ⟨v :: more, x, veil'', hr, .refl x, hx, .refl veil'' x, ?_, ?_⟩
    · exact List.forall_mem_cons.mpr ⟨hdeep.before.notSmaller.has hgood.1, hmore.1⟩
    · exact ⟨answers, others, v, more, rfl, rfl,
        hgood.2.carried (hu.carries hdeep) fun _ _ => trivial, hmore.2⟩

theorem TemplateEntries.Ends.outcome {entries : TemplateEntries} {veil : Veil} {w : World}
    {r : Ending (List Value)} (hends : entries.Ends frame w r) (hw : Midway base frame veil w)
    (hentries : entries.IsOver (Value.IsBelow base.objects.size)) :
    Outcome base frame veil w entries.holes (entries.FillsTo base) r := by
  cases entries with
  | nil =>
    cases hends
    exact ⟨[], veil, .nil (.refl w), hw, .refl veil w, List.forall_mem_nil _, rfl, rfl⟩
  | cons key t rest =>
    have hfollows : Follows (t.Ends frame)
      (fun v => Follows (rest.Ends frame) fun more u r => r = .ok (key :: v :: more) u) w r := hends
    refine Outcome.follows hfollows (fun r hr => hr.outcome hw hentries.2.1)
      fun answers veil' v u hu _ hgood hr => ?_
    refine Outcome.follows_making hr (fun r hr => hr.outcome hu hentries.2.2)
      fun others veil'' more x hx hdeep hmore hr => ?_
    refine ⟨key :: v :: more, x, veil'', hr, .refl x, hx, .refl veil'' x, ?_, ?_⟩
    · exact List.forall_mem_cons.mpr ⟨hx.has hentries.1,
        List.forall_mem_cons.mpr ⟨hdeep.before.notSmaller.has hgood.1, hmore.1⟩⟩
    · exact ⟨answers, others, v, more, rfl, rfl,
        hgood.2.carried (hu.carries hdeep) fun _ _ => trivial, hmore.2⟩

end

end Outcomes

/-- One of the holes is come to that is never filled. -/
def GetsStuck (frame : FrameId) (w : World) (holes : List Hole) : Prop :=
  Arrives frame w holes fun hole x => ¬ ∃ r, hole.Ends frame x r

section Progress

variable {base : Heap} {frame : FrameId} {veil : Veil} {w : World} {α β : Type}
  {holes more : List Hole} {good : List (List Value) → Veil → World → α → Prop}
  {first : World → Ending α → Prop} {second : α → World → Ending β → Prop}

theorem exists_follows (hfirst : (∃ r, first w r) ∨ GetsStuck frame w holes)
    (houtcome : ∀ r, first w r → Outcome base frame veil w holes good r)
    (hsecond : ∀ a u veil', Midway base frame veil' u →
      (∃ r, second a u r) ∨ GetsStuck frame u more) :
    (∃ r, Follows first second w r) ∨ GetsStuck frame w (holes ++ more) := by
  rcases hfirst with ⟨r, hr⟩ | hstuck
  · cases r with
    | error e u => exact .inl ⟨.error e u, .inr ⟨e, u, hr, rfl⟩⟩
    | ok a u =>
      obtain ⟨answers, veil', hanswered, hu, -⟩ := houtcome _ hr
      rcases hsecond a u veil' hu with ⟨r', hr'⟩ | hstuck
      · exact .inl ⟨r', .inl ⟨a, u, hr, hr'⟩⟩
      · exact .inr (.right hanswered hstuck)
  · exact .inr (hstuck.left more)

/-- What follows may end at once. -/
theorem exists_follows_making {f : α → World → Ending β}
    (hfirst : (∃ r, first w r) ∨ GetsStuck frame w holes) :
    (∃ r, Follows first (fun a u r => r = f a u) w r) ∨ GetsStuck frame w holes := by
  refine hfirst.imp_left fun ⟨r, hr⟩ => ?_
  cases r with
  | error e u => exact ⟨.error e u, .inr ⟨e, u, hr, rfl⟩⟩
  | ok a u => exact ⟨f a u, .inl ⟨a, u, hr, rfl⟩⟩

theorem Hole.exists_ends (hole : Hole) (frame : FrameId) (w : World) :
    (∃ r, hole.Ends frame w r) ∨ GetsStuck frame w [hole] := by
  by_cases hends : ∃ r, hole.Ends frame w r
  · exact .inl hends
  · exact .inr (arrives_first hends)

mutual

/-- The filling of a template ends, unless it comes to a hole that is never filled. -/
theorem Template.exists_ends {t : Template} {veil : Veil} {w : World}
    (hw : Midway base frame veil w) (ht : t.IsOver (Value.IsBelow base.objects.size)) :
    (∃ r, t.Ends frame w r) ∨ GetsStuck frame w t.holes := by
  cases t with
  | constant c => exact .inl ⟨_, rfl⟩
  | hole forms =>
    refine ((Hole.unquote forms).exists_ends frame w).imp_left fun ⟨r, hr⟩ => ?_
    rcases hr with ⟨v, u, hv, -⟩ | ⟨e, u, he, -⟩
    · exact ⟨_, hv⟩
    · exact ⟨_, he⟩
  | list items => exact exists_follows_making (TemplateItems.exists_ends hw ht)
  | vector items => exact exists_follows_making (TemplateItems.exists_ends hw ht)
  | map entries => exact exists_follows_making (TemplateEntries.exists_ends hw ht)

theorem TemplateItems.exists_ends {items : TemplateItems} {veil : Veil} {w : World}
    (hw : Midway base frame veil w) (hitems : items.IsOver (Value.IsBelow base.objects.size)) :
    (∃ r, items.Ends frame w r) ∨ GetsStuck frame w items.holes := by
  cases items with
  | nil => exact .inl ⟨_, rfl⟩
  | splice forms rest =>
    exact exists_follows ((Hole.splice forms).exists_ends frame w)
      (fun r hr => hr.outcome hw hitems.1)
      fun vs u veil' hu => exists_follows_making (TemplateItems.exists_ends hu hitems.2)
  | cons t rest =>
    exact exists_follows (Template.exists_ends hw hitems.1) (fun r hr => hr.outcome hw hitems.1)
      fun v u veil' hu => exists_follows_making (TemplateItems.exists_ends hu hitems.2)

theorem TemplateEntries.exists_ends {entries : TemplateEntries} {veil : Veil} {w : World}
    (hw : Midway base frame veil w)
    (hentries : entries.IsOver (Value.IsBelow base.objects.size)) :
    (∃ r, entries.Ends frame w r) ∨ GetsStuck frame w entries.holes := by
  cases entries with
  | nil => exact .inl ⟨_, rfl⟩
  | cons key t rest =>
    exact exists_follows (Template.exists_ends hw hentries.2.1)
      (fun r hr => hr.outcome hw hentries.2.1)
      fun v u veil' hu => exists_follows_making (TemplateEntries.exists_ends hu hentries.2.2)

end

end Progress

end Lisp
