import Lisp.Proofs.Evaluator.Filling
import Lisp.Proofs.Session.Macros
import Lisp.Proofs.Session.Reachable

/-!
Macros that are expanded again and again. A call stands for a form in which the macro is called on
fewer forms, so it goes from stage to stage, where a stage has forms still to come. What a call
stands for is new, and no form that is evaluated meanwhile leads to it.
-/
namespace Lisp

section Hiding

variable {base : Heap} {frame inner : FrameId} {veil veil' : Veil} {w u : World} {v : Value}
  {vs : List Value}

/-- A new list goes behind the veil. -/
theorem Midway.addList {items : Sequence Value} (hw : Midway base frame veil w)
    (hmake : Run.onHeap (·.makeSequence .list items none) w = .ok v u)
    (hitems : GivesAll w items.toList) :
    ∃ address veil', v = .object address ∧ veil'.object address ∧ Midway base frame veil' u ∧
      Deepens veil veil' w u := by
  obtain ⟨address, _, _, veil', hmade, -, hmidway, hdeepens, hhidden, -⟩ :=
    hw.addSequence (.inl rfl) hitems
  cases hmake.symm.trans hmade
  exact ⟨address, veil', rfl, hhidden, hmidway, hdeepens⟩

theorem Midway.makeList (hw : Midway base frame veil w) (hmake : Run.makeList vs w = .ok v u)
    (hvs : GivesAll w vs) :
    ∃ address veil', v = .object address ∧ veil'.object address ∧ Midway base frame veil' u ∧
      Deepens veil veil' w u :=
  hw.addList hmake (by rwa [Sequence.toList_ofList])

/-- The veil is about values and frames, not about the rest of the world. -/
theorem Midway.congr (hw : Midway base frame veil w) (hheap : u.heap = w.heap)
    (hscopes : u.scopes = w.scopes) : Midway base frame veil u := by
  have hstep : World.Step .all w u := .other hheap hscopes
  refine ⟨hw.ready.steps (.single hstep), World.Steps.opens (.single hstep) hw.frame, ?_, ⟨?_, ?_⟩,
    ?_, hw.new⟩
  · rw [hheap]
    exact hw.later
  · rw [hheap]
    exact hw.hides.heap
  · rw [hscopes]
    exact hw.hides.bound
  · rw [hheap]
    exact hw.owns

/-- A frame that binds nothing yet may be entered. -/
theorem Midway.newFrame (hw : Midway base frame veil w)
    (hnew : Run.newFrame (some frame) {} w = .ok inner u) : Midway base inner veil u := by
  have hleads : Leads .all w (World.Opens .all) (Run.newFrame (some frame) {} w) :=
    leads_newFrame hw.ready (fun f hf => by cases hf; exact hw.frame.1) (by simp)
  have hconfined : Confined veil (fun _ => True) (Run.newFrame (some frame) {}) :=
    confined_newFrame _ (by simp)
  have hstays := hconfined w hw.hides
  have hheap : u.heap = w.heap := (World.Adds.newFrame hnew).2.1
  rw [hnew] at hleads hstays
  refine ⟨hw.ready.steps hleads.1, hleads.2, ?_, hstays.1.hides, ?_, hw.new⟩
  · rw [hheap]
    exact hw.later
  · rw [hheap]
    exact hw.owns

/-- A list behind the veil keeps its elements. -/
theorem Midway.parts? (hw : Midway base frame veil w) (hdeepens : Deepens veil veil' w u)
    {address : Nat} (hhidden : veil.object address)
    (hparts : w.heap.parts? (.object address) = some (.round, vs)) :
    u.heap.parts? (.object address) = some (.round, vs) := by
  rcases Heap.parts?_cases hparts with ⟨cell, items, -, hcontent, hcell, rfl⟩ | ⟨_, _, hround, -⟩ |
    ⟨_, hround, -⟩
  · have howned : veil.cell cell :=
      hw.owns address cell hhidden (by rw [Heap.content_of_content? hcontent]; rfl)
    have hlt := Nat.lt_of_lt_of_le (hw.hides.heap.cell_lt cell howned)
      hdeepens.before.notSmaller.cells
    have hthere : u.heap.cells[cell]? = some u.heap.cells[cell] := Array.getElem?_eq_getElem hlt
    have hsame := hdeepens.items cell howned
    rw [Heap.items_eq hcell, Heap.items_eq hthere] at hsame
    obtain ⟨o, ho, hlist⟩ := Option.map_eq_some_iff.mp hcontent
    rw [Heap.parts?, Heap.content?, hdeepens.before.precedes.objects address o ho, Option.map_some,
      hlist]
    simp [hthere, hsame]
  · cases hround
  · cases hround

end Hiding

/-- What a symbol is stays as it is. -/
theorem Heap.Precedes.unfolds_symbol {h u : Heap} {v : Value} {name : Text} (hhu : h.Precedes u)
    (hv : h.Unfolds v (.symbol name)) : u.Unfolds v (.symbol name) := by
  cases v with
  | object address =>
    obtain ⟨o, ho, hsymbol⟩ := Option.map_eq_some_iff.mp hv
    exact Option.map_eq_some_iff.mpr ⟨o, hhu.objects address o ho, hsymbol⟩
  | _ => exact hv

theorem Heap.has_of_unfolds_symbol {h : Heap} {v : Value} {name : Text}
    (hv : h.Unfolds v (.symbol name)) : h.Has v :=
  has_of_content_ne_nil (by simp [content_of_content? hv])

/-- In a sound heap the forms of a call are there. -/
theorem Heap.IsSound.has_of_isForm {h : Heap} {v : Value} {name : Text} {vs : List Value}
    (hsound : h.IsSound) (hv : h.IsForm v name vs) : ∀ x ∈ vs, h.Has x := by
  obtain ⟨head, hparts, -⟩ := hv
  obtain ⟨cell, -, hitems⟩ := elements_of_parts? hparts
  intro x hx
  have hmem : x ∈ h.items cell := by
    rw [Heap.items, hitems]
    exact List.mem_cons_of_mem head hx
  exact hsound.items cell x hmem

/-- A call behind the veil stays the call it is. -/
theorem Midway.isForm {base : Heap} {frame : FrameId} {veil veil' : Veil} {w u : World}
    (hw : Midway base frame veil w) (hdeepens : Deepens veil veil' w u) {address : Nat}
    (hhidden : veil.object address) {name : Text} {vs : List Value}
    (hform : w.heap.IsForm (.object address) name vs) :
    u.heap.IsForm (.object address) name vs := by
  obtain ⟨head, hparts, hhead⟩ := hform
  exact ⟨head, hw.parts? hdeepens hhidden hparts,
    hdeepens.before.precedes.unfolds_symbol hhead⟩

namespace Macro

open Meaning Evaluator Session

/-- Where a macro has got to: it is called in the frame, and these forms are still to come. -/
structure Stage where
  world : World
  frame : FrameId
  forms : List Value

namespace Stage

/-- A call on the forms is expanded: it stands for a value, or the macro fails. -/
def Expands (s : Stage) (name : Text) (r : Ending Value) : Prop :=
  ∃ f c, s.world.scopes.find? s.frame name = some f ∧ s.world.heap.callee f = .closure c ∧
    c.isMacro = true ∧ ExpandsOnce s.world c s.forms r

/-- The stage is in a sound world, and its forms are there. -/
structure IsSound (s : Stage) : Prop where
  ready : s.world.Ready .all
  frame : s.world.Opens .all s.frame
  forms : GivesAll s.world s.forms

variable {s : Stage} {name : Text} {form v : Value} {u : World} {r r' : Ending Value}

theorem Expands.unique (hr : s.Expands name r) (hr' : s.Expands name r') : r' = r := by
  obtain ⟨f, c, hfound, hcallee, -, hexpands⟩ := hr
  obtain ⟨f', c', hfound', hcallee', -, hexpands'⟩ := hr'
  cases hfound.symm.trans hfound'
  cases hcallee.symm.trans hcallee'
  exact hexpands'.runs.eq hexpands.runs

/-- A call ends as what it stands for does. -/
theorem Expands.evaluates_iff (hv : s.Expands name (.ok v u))
    (hform : s.world.heap.IsForm form name s.forms) (hname : Special.ofName? name = none) :
    Evaluates s.world form s.frame r ↔ Evaluates u v s.frame r := by
  obtain ⟨f, c, hfound, hcallee, hmacro, hexpands⟩ := hv
  obtain ⟨head, hcall, hhead⟩ := hform.isCall hname
  exact evaluates_callMacro_iff hcall (evaluates_symbol hhead hfound) hcallee hmacro hexpands

/-- A call of a macro that fails does so too. -/
theorem Expands.evaluates_error {e : Failure} (he : s.Expands name (.error e u))
    (hform : s.world.heap.IsForm form name s.forms) (hname : Special.ofName? name = none) :
    Evaluates s.world form s.frame (.error e u) := by
  obtain ⟨f, c, hfound, hcallee, hmacro, hexpands⟩ := he
  obtain ⟨head, hcall, hhead⟩ := hform.isCall hname
  exact .callMacroFails hcall (evaluates_symbol hhead hfound) hcallee hmacro hexpands

end Stage

section Passing

variable {name : Text} {Pass : Stage → Stage → Prop} {Intact : World → FrameId → Prop}
  {Finishes : Stage → Ending Value → Prop} {s s' : Stage} {form form' : Value}

/-- The form calls the macro on the forms of the stage, and the macro is intact at all stages from
here. -/
structure Stands (name : Text) (Pass : Stage → Stage → Prop) (Intact : World → FrameId → Prop)
    (s : Stage) (form : Value) : Prop where
  sound : s.IsSound
  isForm : s.world.heap.IsForm form name s.forms
  count : s.forms.length < 2 ^ 63
  intact : ∀ s', Relation.ReflTransGen Pass s s' → Intact s'.world s'.frame

theorem Stands.hasPath_root (hs : Stands name Pass Intact s form) :
    s.world.scopes.HasPath World.root :=
  hs.sound.ready.sound.hasPath hs.sound.ready.root.1

/-- A call in a reachable world is a stage with all its forms to come. -/
theorem stands_start {w : World} {frame : FrameId} {forms : List Value} (hw : Reachable w)
    (hframe : frame < w.scopes.frames.size) (hform : w.heap.IsForm form name forms)
    (hcount : forms.length < 2 ^ 63)
    (hintact : ∀ s, Relation.ReflTransGen Pass ⟨w, frame, forms⟩ s → Intact s.world s.frame) :
    Stands name Pass Intact ⟨w, frame, forms⟩ form :=
  ⟨⟨hw.ready, ⟨hframe, trivial⟩, hw.ready.sound.heap.has_of_isForm hform⟩, hform, hcount, hintact⟩

variable (hfewer : ∀ s s', Pass s s' → s'.forms.length < s.forms.length)
include hfewer

/-- The macro stays intact at the stages behind a stage that is passed to. -/
theorem Stands.pass (hs : Stands name Pass Intact s form) (hpass : Pass s s')
    (hsound : s'.IsSound) (hform : s'.world.heap.IsForm form' name s'.forms) :
    Stands name Pass Intact s' form' :=
  ⟨hsound, hform, Nat.lt_trans (hfewer s s' hpass) hs.count,
    fun t ht => hs.intact t (.head hpass ht)⟩

/-- Where a call either finishes at its stage or passes to a stage with fewer forms and ends as the
call there does, it ends as it finishes at the last of the stages it passes to. -/
theorem Stands.evaluates_iff_passes
    (hends : ∀ {s form r}, Stands name Pass Intact s form → Evaluates s.world form s.frame r →
      Finishes s r ∨ ∃ s' form', Pass s s' ∧ Stands name Pass Intact s' form' ∧
        Evaluates s'.world form' s'.frame r)
    (hfinish : ∀ {s form r}, Stands name Pass Intact s form → Finishes s r →
      Evaluates s.world form s.frame r)
    (hpass : ∀ {s s' form}, Stands name Pass Intact s form → Pass s s' →
      ∃ form', Stands name Pass Intact s' form' ∧
        ∀ r, Evaluates s'.world form' s'.frame r → Evaluates s.world form s.frame r)
    (hs : Stands name Pass Intact s form) (r : Ending Value) :
    Evaluates s.world form s.frame r ↔
      ∃ s', Relation.ReflTransGen Pass s s' ∧ Finishes s' r := by
  constructor
  · intro h
    -- The stages have fewer and fewer forms.
    induction hcount : s.forms.length using Nat.strong_induction_on generalizing s form with
    | _ count ih =>
      rcases hends hs h with hdone | ⟨s', form', hstep, hs', h'⟩
      · exact ⟨s, .refl, hdone⟩
      · obtain ⟨t, ht, hdone⟩ := ih _ (hcount ▸ hfewer s s' hstep) hs' h' rfl
        exact ⟨t, .head hstep ht, hdone⟩
  · rintro ⟨t, ht, hdone⟩
    induction ht using Relation.ReflTransGen.head_induction_on generalizing form with
    | refl => exact hfinish hs hdone
    | head hstep _ ih =>
      obtain ⟨form', hs', hback⟩ := hpass hs hstep
      exact hback r (ih hs')

end Passing

end Macro

end Lisp
