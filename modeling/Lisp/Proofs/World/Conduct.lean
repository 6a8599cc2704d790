import Lisp.Operation.Answer
import Lisp.Proofs.Token.Atoms
import Lisp.Proofs.World.Soundness

/-!
Computations by where they lead. A computation behaves when it gets from where it starts to where it
ends by steps, and when what it gives or raises is there. A sequence of computations that behave
behaves, so each function has one lemma that takes over what is known of the functions it calls.
-/
namespace Lisp

/-- A frame in which a computation may be run: names may be added to it. -/
def World.Opens (may : World.Licence) (w : World) (frame : FrameId) : Prop :=
  frame < w.scopes.frames.size ∧ may.bind frame

/-- A sound world with an outermost frame, which is open like all frames that are yet to come. -/
structure World.Ready (may : World.Licence) (w : World) : Prop where
  sound : w.IsSound
  root : w.Opens may World.root
  fresh : ∀ f, w.scopes.frames.size ≤ f → may.bind f

/-- A failure that a program may end in: a raised value is there, and no index has left its bounds.
-/
def Failure.IsProper (h : Heap) : Failure → Prop
  | .thrown v => h.Has v
  | .loading _ cause => cause.IsProper h
  | .parse e => e.IsProper
  | .crash _ => False
  | .fault _ | .host _ | .unread _ | .exhausted => True

theorem Failure.IsProper.mono {h h' : Heap} {e : Failure} (he : e.IsProper h)
    (hle : h.NotSmaller h') : e.IsProper h' := by
  induction e with
  | thrown v => exact hle.has he
  | loading path cause ih => exact ih he
  | parse e => exact he
  | crash e => cases he
  | _ => trivial

/-- Steps lead to the end, and what is given is good there; a failure is a proper one. -/
def Leads (may : World.Licence) (w : World) {α : Type} (good : World → α → Prop) :
    EStateM.Result Failure World α → Prop
  | .ok a w' => World.Steps may w w' ∧ good w' a
  | .error e w' => World.Steps may w w' ∧ e.IsProper w'.heap

/-- The value is there. -/
def Gives (w : World) (v : Value) : Prop := w.heap.Has v

def GivesAll (w : World) (vs : List Value) : Prop := ∀ v ∈ vs, w.heap.Has v

variable {may : World.Licence} {w w' : World} {α β : Type} {good : World → α → Prop}

theorem World.Steps.opens (hsteps : World.Steps may w w') {frame : FrameId}
    (hframe : w.Opens may frame) : w'.Opens may frame :=
  ⟨Nat.lt_of_lt_of_le hframe.1 hsteps.notSmaller.2, hframe.2⟩

theorem World.Ready.steps (hw : w.Ready may) (hsteps : World.Steps may w w') : w'.Ready may where
  sound := hw.sound.steps hsteps
  root := hsteps.opens hw.root
  fresh f hf := hw.fresh f (Nat.le_trans hsteps.notSmaller.2 hf)

section Combining

theorem leads_pure {a : α} (ha : good w a) : Leads may w good ((pure a : Run α) w) := ⟨.refl, ha⟩

theorem leads_throw {e : Failure} (he : e.IsProper w.heap) :
    Leads may w good ((throw e : Run α) w) :=
  ⟨.refl, he⟩

theorem leads_fault (f : Fault) : Leads may w good ((Run.fault f : Run α) w) :=
  leads_throw trivial

theorem leads_malformed (form : Special) (why : Malformation) :
    Leads may w good ((Run.malformed form why : Run α) w) :=
  leads_fault _

theorem leads_ofParse {e : ParseError} (he : e.IsProper) :
    Leads may w good ((throw (.ofParse e) : Run α) w) := by
  rw [Failure.ofParse_eq he]
  exact leads_throw he

theorem leads_exhausted : Leads may w good ((throw .exhausted : Run α) w) :=
  leads_throw trivial

/-- What has been led to by steps leads on. -/
theorem Leads.after {r : EStateM.Result Failure World α} (hr : Leads may w' good r)
    (hsteps : World.Steps may w w') : Leads may w good r := by
  cases r with
  | ok a u => exact ⟨hsteps.trans hr.1, hr.2⟩
  | error e u => exact ⟨hsteps.trans hr.1, hr.2⟩

theorem Leads.bind {m : Run α} {f : α → Run β} {next : World → β → Prop}
    (hm : Leads may w good (m w)) (hw : w.Ready may)
    (hf : ∀ a u, u.Ready may → World.Steps may w u → good u a → Leads may u next (f a u)) :
    Leads may w next ((m >>= f) w) := by
  change Leads may w next (EStateM.bind m f w)
  unfold EStateM.bind
  cases hresult : m w with
  | ok a u =>
    rw [hresult] at hm
    exact (hf a u (hw.steps hm.1) hm.1 hm.2).after hm.1
  | error e u =>
    rw [hresult] at hm
    exact hm

theorem Leads.map {m : Run α} {f : α → β} {next : World → β → Prop}
    (hm : Leads may w good (m w)) (hf : ∀ a u, good u a → next u (f a)) :
    Leads may w next ((f <$> m) w) := by
  change Leads may w next (EStateM.map f m w)
  unfold EStateM.map
  cases hresult : m w with
  | ok a u =>
    rw [hresult] at hm
    exact ⟨hm.1, hf a u hm.2⟩
  | error e u =>
    rw [hresult] at hm
    exact hm

/-- Reading changes nothing. -/
theorem leads_read {m : Run α} {k : α → Run β} {next : World → β → Prop} {a : α}
    (hread : m w = .ok a w) (hk : Leads may w next (k a w)) : Leads may w next ((m >>= k) w) := by
  change Leads may w next (EStateM.bind m k w)
  rw [EStateM.bind, hread]
  exact hk

theorem leads_look {f : Heap → α} {k : α → Run β} {next : World → β → Prop}
    (hk : Leads may w next (k (f w.heap) w)) : Leads may w next ((Run.look f >>= k) w) :=
  leads_read rfl hk

theorem leads_require {f : Heap → Except Fault α} (hf : ∀ a, f w.heap = .ok a → good w a) :
    Leads may w good (Run.require f w) := by
  unfold Run.require
  refine leads_look ?_
  cases hresult : f w.heap with
  | ok a => exact leads_pure (hf a hresult)
  | error e => exact leads_fault e

theorem leads_settle {f : Heap → Except Failure α} (hf : ∀ a, f w.heap = .ok a → good w a)
    (herror : ∀ e, f w.heap = .error e → ∃ form why, e = .malformed form why) :
    Leads may w good (Run.settle f w) := by
  unfold Run.settle
  refine leads_look ?_
  cases hresult : f w.heap with
  | ok a => exact leads_pure (hf a hresult)
  | error e =>
    obtain ⟨form, why, rfl⟩ := herror e hresult
    exact leads_throw trivial

end Combining

section Values

theorem leads_onHeap {f : Heap → Value × Heap}
    (hmade : Heap.Makes may.Allows w.scopes.frames.size w.heap (f w.heap)) :
    Leads may w Gives (Run.onHeap f w) :=
  ⟨.ofHeap hmade.1, hmade.2⟩

theorem leads_makeList {items : List Value} (hitems : GivesAll w items) :
    Leads may w Gives (Run.makeList items w) :=
  leads_onHeap (Heap.makes_makeList hitems)

theorem leads_makeVector {items : List Value} (hitems : GivesAll w items) :
    Leads may w Gives (Run.makeVector items w) :=
  leads_onHeap (Heap.makes_makeVector hitems)

theorem leads_makeMap {alternating : List Value} (hitems : GivesAll w alternating) :
    Leads may w Gives (Run.makeMap alternating w) :=
  leads_look (leads_onHeap (Heap.makes_make rfl
    (Heap.hasContent_map.mpr (Heap.EntriesIn.entriesOf hitems)) (Heap.isKeyed_entriesOf _)))

theorem leads_build (d : Datum) : Leads may w Gives (Run.build d w) :=
  leads_onHeap (Heap.makes_build d w.heap)

theorem leads_note (line : Heap → Text) :
    Leads may w (fun _ _ => True) (Run.note (fun h => .ok (line h)) w) := by
  unfold Run.note
  split
  · exact ⟨.single (.other rfl rfl), trivial⟩
  · exact ⟨.refl, trivial⟩

theorem leads_print (style : Style) (v : Value) :
    Leads may w (fun _ _ => True) (Run.print style v w) := by
  rw [Run.print_eq]
  exact ⟨.refl, trivial⟩

end Values

section Frames

theorem Bindings.mem_of_get?_ofPairs {pairs : List (Text × Value)} {name : Text} {v : Value}
    (hget : (Bindings.ofPairs pairs).get? name = some v) : (name, v) ∈ pairs := by
  unfold Bindings.ofPairs at hget
  induction pairs using List.reverseRecOn with
  | nil => simp at hget
  | append_singleton pairs pair ih =>
    rw [List.foldl_append, List.foldl_cons, List.foldl_nil, Bindings.get?_put] at hget
    split at hget
    · rename_i hname
      cases hget
      simp [← hname]
    · exact List.mem_append_left _ (ih hget)

theorem leads_newFrame (hw : w.Ready may) {outer : Option FrameId} {bindings : Bindings}
    (houter : ∀ f, outer = some f → f < w.scopes.frames.size)
    (hbindings : ∀ name v, bindings.get? name = some v → w.heap.Has v) :
    Leads may w (World.Opens may) (Run.newFrame outer bindings w) := by
  refine ⟨.single (.frame outer bindings houter hbindings), ?_, hw.fresh _ (Nat.le_refl _)⟩
  change w.scopes.frames.size < (w.scopes.push outer bindings).2.frames.size
  rw [Scopes.size_push]
  exact Nat.lt_succ_self _

theorem leads_define {frame : FrameId} {name : Text} {v : Value} (hframe : may.bind frame)
    (hv : w.heap.Has v) : Leads may w (fun _ _ => True) (Run.define frame name v w) :=
  ⟨.single (.define name hframe hv), trivial⟩

theorem leads_lookup (hsound : w.IsSound) (frame : FrameId) (name : Text) :
    Leads may w Gives (Run.lookup frame name w) := by
  refine leads_read rfl ?_
  dsimp only
  cases hfind : w.scopes.find? frame name with
  | some v =>
    obtain ⟨g, _, hg⟩ := List.exists_of_findSome?_eq_some hfind
    exact leads_pure (hsound.bound g name v hg)
  | none => exact leads_fault _

theorem Scopes.isSome_of_resolve? {s : Scopes} {f g : FrameId} {name : Text}
    (hresolve : s.resolve? f name = some g) : (s.get? g name).isSome := by
  unfold Scopes.resolve? at hresolve
  simpa using List.find?_some hresolve

theorem leads_assign {frame : FrameId} {name : Text} {v : Value} (hv : w.heap.Has v) :
    Leads may w (fun _ _ => True) (Run.assign frame name v w) := by
  refine leads_read rfl ?_
  dsimp only
  cases hresolve : w.scopes.resolve? frame name with
  | some g => exact ⟨.single (.assign (Scopes.isSome_of_resolve? hresolve) hv), trivial⟩
  | none => exact leads_fault _

theorem hasAll_zip {params : List Text} {args : List Value} (hargs : GivesAll w args) {name : Text}
    {v : Value} (hget : (Bindings.ofPairs (params.zip args)).get? name = some v) : w.heap.Has v :=
  hargs v (List.of_mem_zip (Bindings.mem_of_get?_ofPairs hget)).2

theorem leads_bindClosure (hw : w.Ready may) {c : Closure} (hscope : c.scope < w.scopes.frames.size)
    {args : List Value} (hargs : GivesAll w args) :
    Leads may w (World.Opens may) (Run.bindClosure c args w) := by
  have houter : ∀ f, some c.scope = some f → f < w.scopes.frames.size := fun f hf => by
    cases hf
    exact hscope
  unfold Run.bindClosure
  cases c.tail with
  | none =>
    rw [Run.bind_none]
    split
    · exact leads_fault _
    · exact leads_newFrame hw houter fun name v hv => hasAll_zip hargs hv
  | some rest =>
    rw [Run.bind_some]
    split
    · exact leads_fault _
    · have hsurplus : GivesAll w (args.drop c.params.length) :=
        fun v hv => hargs v (List.mem_of_mem_drop hv)
      refine (leads_makeList hsurplus).bind hw fun surplus u hu hwu hgives => ?_
      refine leads_newFrame hu (fun f hf => ?_) fun name v hv => ?_
      · exact Nat.lt_of_lt_of_le (houter f hf) hwu.notSmaller.2
      · rw [Bindings.get?_put] at hv
        split at hv
        · cases hv
          exact hgives
        · exact hwu.has (hasAll_zip hargs hv)

end Frames

end Lisp
