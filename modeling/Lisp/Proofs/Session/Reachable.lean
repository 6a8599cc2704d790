import Mathlib.Logic.Relation
import Lisp.Proofs.Session.Requests

/-!
The worlds of sessions. A session is started in an unused world; then requests follow, and between
them the host may do what it likes beside the heap and the frames. Every world on the way is sound,
and each request is a run of steps.
-/
namespace Lisp

/-- What a computation gives. -/
def Run.value? {α : Type} (m : Run α) (w : World) : Option α :=
  match m w with
  | .ok a _ => some a
  | .error _ _ => none

theorem Run.eq_ok_of_value? {α : Type} {m : Run α} {w : World} {a : α}
    (h : m.value? w = some a) : m w = .ok a (w.after m) := by
  unfold Run.value? at h
  unfold World.after
  cases hresult : m w with
  | ok b u =>
    rw [hresult] at h
    cases h
    rfl
  | error e u =>
    rw [hresult] at h
    cases h

namespace Session

open World

/-- What happens in a session, one thing at a time. -/
inductive Action [Library] : World → World → Prop
  | request {w : World} (request : Request) : request.IsFor w →
    Action w (w.after request.perform)
  | host {w w' : World} : w'.heap = w.heap → w'.scopes = w.scopes → Action w w'

/-- One world is another after some actions. -/
def Later [Library] : World → World → Prop := Relation.ReflTransGen Action

/-- The world is one that a session gets to. -/
def Reachable [Library] (w : World) : Prop :=
  ∃ (args : List Text) (withPrelude : Bool) (unused : World),
    unused.heap = {} ∧ unused.scopes = {} ∧ Later (start args withPrelude unused) w

namespace Action

variable [Library] {w : World}

/-- A request for what a computation gives leads where the computation does. -/
theorem of_map {α : Type} {m : Run α} {f : α → Response} (request : Request)
    (hperform : request.perform = f <$> m) (hrequest : request.IsFor w) : Action w (w.after m) := by
  rw [← World.after_map f, ← hperform]
  exact .request request hrequest

theorem run (source : Text) : Action w (w.after (runSource source)) :=
  of_map (.run source) rfl trivial

theorem build (d : Datum) : Action w (w.after (Run.build d)) := of_map (.build d) rfl trivial

theorem nest {outer : FrameId} (houter : outer < w.scopes.frames.size) :
    Action w (w.after (Run.newFrame (some outer) {})) :=
  of_map (.nest outer) rfl houter

end Action

/-- A session that has run a source is one that a session gets to. -/
theorem reachable_run [Library] (withPrelude : Bool) (host : Host) (source : Text) :
    Reachable ((start [] withPrelude { host := host }).after (runSource source)) :=
  ⟨[], withPrelude, { host := host }, rfl, rfl, .single (.run source)⟩

section Starting

variable {may : Licence} {w : World}

theorem leads_install (natives : List Native) (hw : w.Ready may) :
    Leads may w (fun _ _ => True) (install natives w) := by
  induction natives generalizing w with
  | nil => exact leads_pure trivial
  | cons n rest ih =>
    have hmade : Leads may w Gives (Run.onHeap (·.makeNative n) w) :=
      leads_onHeap (Heap.makes_makeNative n)
    refine hmade.bind hw fun v u hu _ hv => ?_
    exact (leads_define hu.root.2 hv).bind hu fun _ x hx _ _ => ih hx

theorem leads_makeStrings (texts : List Text) (hw : w.Ready may) :
    Leads may w GivesAll (makeStrings texts w) := by
  induction texts generalizing w with
  | nil => exact leads_pure Evaluator.givesAll_nil
  | cons s rest ih =>
    have hmade : Leads may w Gives (Run.onHeap (·.makeString s) w) :=
      leads_onHeap (Heap.makes_make rfl trivial trivial)
    refine hmade.bind hw fun v u hu _ hv => ?_
    refine (ih hu).bind hu fun vs x _ hux hvs => ?_
    exact leads_pure (Evaluator.givesAll_cons.mpr ⟨hux.has hv, hvs⟩)

theorem isSound_unused {w : World} (hheap : w.heap = {}) (hscopes : w.scopes = {}) :
    w.IsSound := by
  have hframe : ∀ f, w.scopes.frame f = {} := fun f => by rw [hscopes]; rfl
  constructor
  case heap => exact hheap ▸ Heap.isSound_empty
  case scope =>
    intro id hid
    rw [hheap] at hid
    exact absurd hid (Nat.not_lt_zero id)
  case bound =>
    intro f name v hv
    rw [Scopes.get?, hframe] at hv
    simp at hv
  case nested =>
    intro f o ho
    rw [Scopes.outer?, hframe] at ho
    cases ho

variable [library : Library]

theorem start_eq (args : List Text) (withPrelude : Bool) (w : World) :
    start args withPrelude w = w.after (setUp args withPrelude) := by
  unfold start World.after
  cases setUp args withPrelude w <;> rfl

/-- Once it has its outermost frame, the setting up of a session is a run of steps. -/
theorem exists_steps_start (hlibrary : library.Behaves may) (hbind : ∀ f, may.bind f)
    (args : List Text) (withPrelude : Bool) (hheap : w.heap = {}) (hscopes : w.scopes = {}) :
    ∃ origin : World, origin.heap = {} ∧ origin.Ready may ∧
      World.Steps may origin (start args withPrelude w) ∧
      ∀ e u, setUp args withPrelude w = .error e u → e.IsProper u.heap := by
  have hfirst : { w with scopes := (w.scopes.push none {}).2 }.Ready may := by
    refine ⟨?_, ⟨?_, hbind _⟩, fun f _ => hbind f⟩
    · exact (isSound_unused hheap hscopes).push (fun _ hf => by cases hf) (by simp)
    · rw [Scopes.size_push]
      exact Nat.zero_lt_succ _
  have hframe : Run.newFrame none {} w =
      .ok w.scopes.frames.size { w with scopes := (w.scopes.push none {}).2 } := rfl
  refine ⟨{ w with scopes := (w.scopes.push none {}).2 }, hheap, hfirst, ?_⟩
  rw [start_eq]
  refine Leads.outcome (?_ : Leads may _ (fun _ _ => True) (setUp args withPrelude w))
  rw [setUp, Evaluator.bind_ok hframe]
  -- The lists are long, and the argument is about any.
  generalize Native.all = natives
  generalize Prelude.sources = sources
  refine (leads_install natives hfirst).bind hfirst fun _ u hu _ _ => ?_
  refine (leads_makeStrings args hu).bind hu fun texts x hx _ htexts => ?_
  refine (leads_makeList htexts).bind hx fun argv y hy _ hargv => ?_
  refine (leads_define hy.root.2 hargv).bind hy fun _ z hz _ _ => ?_
  cases withPrelude with
  | true => exact leads_runSources hlibrary sources hz
  | false => exact leads_pure trivial

end Starting

section Running

variable {may : Licence} [library : Library] (hlibrary : library.Behaves may)
  (hbind : ∀ f, may.bind f) {w w' : World}
include hlibrary hbind

theorem Action.steps (hw : w.Ready may) (haction : Action w w') : World.Steps may w w' := by
  cases haction with
  | request request hrequest => exact (leads_perform hlibrary hbind request hw hrequest).steps
  | host hheap hscopes => exact .single (.other hheap hscopes)

theorem Later.steps_of_behaves (hw : w.Ready may) (hlater : Later w w') : World.Steps may w w' := by
  induction hlater with
  | refl => exact .refl
  | tail _ haction ih => exact ih.trans (haction.steps hlibrary hbind (hw.steps ih))

/-- A session is a run of steps that starts with an empty heap. -/
theorem Reachable.exists_origin_of_behaves (hw : Reachable w) :
    ∃ origin : World, origin.heap = {} ∧ origin.Ready may ∧ World.Steps may origin w := by
  obtain ⟨args, withPrelude, unused, hheap, hscopes, hlater⟩ := hw
  obtain ⟨origin, hempty, hready, hsteps, -⟩ :=
    exists_steps_start hlibrary hbind args withPrelude hheap hscopes
  refine ⟨origin, hempty, hready, hsteps.trans ?_⟩
  exact hlater.steps_of_behaves hlibrary hbind (hready.steps hsteps)

end Running

section Standard

variable {w w' : World}

theorem opens_all {frame : FrameId} (hframe : frame < w.scopes.frames.size) :
    w.Opens .all frame :=
  ⟨hframe, trivial⟩

theorem Later.steps (hw : w.Ready .all) (hlater : Later w w') : World.Steps .all w w' :=
  hlater.steps_of_behaves (Library.behaves_standard trivial) (fun _ => trivial) hw

theorem Reachable.exists_origin (hw : Reachable w) :
    ∃ origin : World, origin.heap = {} ∧ origin.Ready .all ∧ World.Steps .all origin w :=
  hw.exists_origin_of_behaves (Library.behaves_standard trivial) fun _ => trivial

theorem Reachable.ready (hw : Reachable w) : w.Ready .all := by
  obtain ⟨origin, _, hready, hsteps⟩ := hw.exists_origin
  exact hready.steps hsteps

end Standard

end Session

end Lisp
