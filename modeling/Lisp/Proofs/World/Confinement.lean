import Lisp.Proofs.Heap.Veil
import Lisp.Proofs.Operation.Conduct

/-!
Computations that stay in sight. Where nothing in sight leads behind a veil, a computation on values
in sight gives or raises a value in sight, and leaves what is behind the veil as it was. What a
computation takes over from the computations it calls is the same for all worlds, so that
computations are put together without looking at worlds again.
-/
namespace Lisp

variable {veil : Veil}

/-- Nothing in sight and nothing that is bound leads behind the veil. -/
structure World.Hides (veil : Veil) (w : World) : Prop where
  heap : w.heap.Hides veil
  bound : ∀ f name v, w.scopes.get? f name = some v → veil.Sees v

/-- Something has happened that did not reach behind the veil. -/
structure World.Spares (veil : Veil) (w w' : World) : Prop where
  hides : w'.Hides veil
  items : ∀ cell, veil.cell cell → w'.heap.items cell = w.heap.items cell

/-- What is raised is in sight. -/
def Failure.IsSeen (veil : Veil) : Failure → Prop
  | .thrown v => veil.Sees v
  | .loading _ cause => cause.IsSeen veil
  | _ => True

/-- The end is reached without reaching behind the veil, and what is given or raised is in sight. -/
def Stays (veil : Veil) (w : World) {α : Type} (p : α → Prop) :
    EStateM.Result Failure World α → Prop
  | .ok a w' => w.Spares veil w' ∧ p a
  | .error e w' => w.Spares veil w' ∧ e.IsSeen veil

/-- A computation that nowhere reaches behind the veil. -/
def Confined (veil : Veil) {α : Type} (p : α → Prop) (m : Run α) : Prop :=
  ∀ w : World, w.Hides veil → Stays veil w p (m w)

/-- All values of a list are in sight. -/
def Veil.SeesAll (veil : Veil) (vs : List Value) : Prop := ∀ v ∈ vs, veil.Sees v

theorem World.Spares.refl {w : World} (hw : w.Hides veil) : w.Spares veil w :=
  ⟨hw, fun _ _ => rfl⟩

theorem World.Spares.trans {w u x : World} (hwu : w.Spares veil u) (hux : u.Spares veil x) :
    w.Spares veil x :=
  ⟨hux.hides, fun cell hcell => (hux.items cell hcell).trans (hwu.items cell hcell)⟩

section Combining

variable {α β : Type} {p : α → Prop} {q : β → Prop}

theorem Stays.after {w u : World} {r : EStateM.Result Failure World α} (hr : Stays veil u p r)
    (hwu : w.Spares veil u) : Stays veil w p r := by
  cases r with
  | ok a x => exact ⟨hwu.trans hr.1, hr.2⟩
  | error e x => exact ⟨hwu.trans hr.1, hr.2⟩

theorem confined_pure {a : α} (ha : p a) : Confined veil p (pure a) :=
  fun _ hw => ⟨.refl hw, ha⟩

theorem confined_throw {e : Failure} (he : e.IsSeen veil) :
    Confined veil p (throw e : Run α) :=
  fun _ hw => ⟨.refl hw, he⟩

theorem confined_fault (f : Fault) : Confined veil p (Run.fault f : Run α) :=
  confined_throw trivial

theorem confined_malformed (form : Special) (why : Malformation) :
    Confined veil p (Run.malformed form why : Run α) :=
  confined_fault _

theorem confined_exhausted : Confined veil p (throw .exhausted : Run α) :=
  confined_throw trivial

theorem Confined.bind {m : Run α} {f : α → Run β} (hm : Confined veil p m)
    (hf : ∀ a, p a → Confined veil q (f a)) : Confined veil q (m >>= f) := by
  intro w hw
  have hstays := hm w hw
  change Stays veil w q (EStateM.bind m f w)
  unfold EStateM.bind
  cases hresult : m w with
  | ok a u =>
    rw [hresult] at hstays
    exact (hf a hstays.2 u hstays.1.hides).after hstays.1
  | error e u =>
    rw [hresult] at hstays
    exact hstays

theorem Confined.map {m : Run α} {f : α → β} (hm : Confined veil p m)
    (hf : ∀ a, p a → q (f a)) : Confined veil q (f <$> m) := by
  intro w hw
  have hstays := hm w hw
  change Stays veil w q (EStateM.map f m w)
  unfold EStateM.map
  cases hresult : m w with
  | ok a u =>
    rw [hresult] at hstays
    exact ⟨hstays.1, hf a hstays.2⟩
  | error e u =>
    rw [hresult] at hstays
    exact hstays

theorem confined_look {f : Heap → α} (hf : ∀ h : Heap, h.Hides veil → p (f h)) :
    Confined veil p (Run.look f) :=
  fun w hw => ⟨.refl hw, hf w.heap hw.heap⟩

theorem confined_require {f : Heap → Except Fault α}
    (hf : ∀ h : Heap, h.Hides veil → ∀ a, f h = .ok a → p a) :
    Confined veil p (Run.require f) := by
  refine (confined_look (p := fun result => ∀ a, result = .ok a → p a) hf).bind
    fun result hresult => ?_
  cases result with
  | ok a => exact confined_pure (hresult a rfl)
  | error e => exact confined_fault e

theorem confined_settle {f : Heap → Except Failure α}
    (hf : ∀ h : Heap, h.Hides veil → ∀ a, f h = .ok a → p a)
    (herror : ∀ h e, f h = .error e → ∃ form why, e = .malformed form why) :
    Confined veil p (Run.settle f) := by
  refine (confined_look (p := fun result => (∀ a, result = .ok a → p a) ∧
    ∀ e, result = .error e → ∃ form why, e = .malformed form why)
    fun h hh => ⟨hf h hh, herror h⟩).bind fun result hresult => ?_
  cases result with
  | ok a => exact confined_pure (hresult.1 a rfl)
  | error e =>
    obtain ⟨form, why, rfl⟩ := hresult.2 e rfl
    exact confined_malformed form why

end Combining

section Values

theorem confined_onHeap {f : Heap → Value × Heap}
    (hmade : ∀ h : Heap, h.Hides veil → h.MakesSeen veil (f h)) :
    Confined veil veil.Sees (Run.onHeap f) := by
  intro w hw
  obtain ⟨hspares, hsees⟩ := hmade w.heap hw.heap
  exact ⟨⟨⟨hspares.hides, hw.bound⟩, hspares.items⟩, hsees⟩

theorem confined_makeList {items : List Value} (hitems : veil.SeesAll items) :
    Confined veil veil.Sees (Run.makeList items) :=
  confined_onHeap fun _ hh => hh.makeList hitems

theorem confined_makeVector {items : List Value} (hitems : veil.SeesAll items) :
    Confined veil veil.Sees (Run.makeVector items) :=
  confined_onHeap fun _ hh => hh.makeVector hitems

theorem confined_makeMap {alternating : List Value} (hitems : veil.SeesAll alternating) :
    Confined veil veil.Sees (Run.makeMap alternating) := by
  refine (confined_look (p := Heap.EntriesIn veil.Sees) fun h _ => ?_).bind
    fun entries hentries => confined_onHeap fun _ hh => hh.make hentries
  exact Heap.EntriesIn.entriesOf hitems

theorem confined_note (line : Heap → Except Crash Text) :
    Confined veil (fun _ => True) (Run.note line) := by
  intro w hw
  unfold Run.note
  split
  · split
    · exact ⟨⟨⟨hw.heap, hw.bound⟩, fun _ _ => rfl⟩, trivial⟩
    · exact ⟨.refl hw, trivial⟩
  · exact ⟨.refl hw, trivial⟩

theorem confined_print (style : Style) (v : Value) :
    Confined veil (fun _ => True) (Run.print style v) := by
  rw [Run.print_eq]
  exact confined_look fun _ _ => trivial

end Values

section Frames

theorem confined_newFrame (outer : Option FrameId) {bindings : Bindings}
    (hbindings : ∀ name v, bindings.get? name = some v → veil.Sees v) :
    Confined veil (fun _ => True) (Run.newFrame outer bindings) := by
  refine fun w hw => ⟨⟨⟨hw.heap, fun f name v hv => ?_⟩, fun _ _ => rfl⟩, trivial⟩
  change (w.scopes.push outer bindings).2.get? f name = some v at hv
  simp only [Scopes.get?, Scopes.frame_push] at hv
  split at hv
  · exact hbindings name v hv
  · exact hw.bound f name v hv

theorem confined_define (frame : FrameId) (name : Text) {v : Value} (hv : veil.Sees v) :
    Confined veil (fun _ => True) (Run.define frame name v) := by
  refine fun w hw => ⟨⟨⟨hw.heap, fun f other u hu => ?_⟩, fun _ _ => rfl⟩, trivial⟩
  change (w.scopes.define frame name v).get? f other = some u at hu
  rw [Scopes.get?_define] at hu
  split at hu
  · cases hu
    exact hv
  · exact hw.bound f other u hu

theorem World.Hides.find? {w : World} (hw : w.Hides veil) {frame : FrameId} {name : Text}
    {v : Value} (hfind : w.scopes.find? frame name = some v) : veil.Sees v := by
  obtain ⟨g, _, hg⟩ := List.exists_of_findSome?_eq_some hfind
  exact hw.bound g name v hg

theorem confined_lookup (frame : FrameId) (name : Text) :
    Confined veil veil.Sees (Run.lookup frame name) := by
  have hfound : Confined veil (fun found? => ∀ v, found? = some v → veil.Sees v)
      (Run.inScopes (·.find? frame name)) :=
    fun w hw => ⟨.refl hw, fun v hv => hw.find? hv⟩
  refine hfound.bind fun found? hsees => ?_
  cases found? with
  | some v => exact confined_pure (hsees v rfl)
  | none => exact confined_fault _

theorem confined_assign (frame : FrameId) (name : Text) {v : Value} (hv : veil.Sees v) :
    Confined veil (fun _ => True) (Run.assign frame name v) := by
  have hfound : Confined veil (fun _ => True) (Run.inScopes (·.resolve? frame name)) :=
    fun w hw => ⟨.refl hw, trivial⟩
  refine hfound.bind fun found? _ => ?_
  cases found? with
  | some g => exact confined_define g name hv
  | none => exact confined_fault _

theorem sees_zip {params : List Text} {args : List Value} (hargs : veil.SeesAll args) {name : Text}
    {v : Value} (hget : (Bindings.ofPairs (params.zip args)).get? name = some v) : veil.Sees v :=
  hargs v (List.of_mem_zip (Bindings.mem_of_get?_ofPairs hget)).2

theorem confined_bindClosure (c : Closure) {args : List Value} (hargs : veil.SeesAll args) :
    Confined veil (fun _ => True) (Run.bindClosure c args) := by
  unfold Run.bindClosure
  cases c.tail with
  | none =>
    rw [Run.bind_none]
    split
    · exact confined_fault _
    · exact confined_newFrame _ fun name v hv => sees_zip hargs hv
  | some rest =>
    rw [Run.bind_some]
    split
    · exact confined_fault _
    · have hsurplus : veil.SeesAll (args.drop c.params.length) :=
        fun v hv => hargs v (List.mem_of_mem_drop hv)
      refine (confined_makeList hsurplus).bind fun surplus hsees => ?_
      refine confined_newFrame _ fun name v hv => ?_
      rw [Bindings.get?_put] at hv
      split at hv
      · cases hv
        exact hsees
      · exact sees_zip hargs hv

end Frames

section Operations

theorem Reply.stays_perform {reply : Reply} {grow : Value → Prop} {w : World}
    (hw : w.Hides veil) (hreply : reply.IsFor veil.Sees grow w.heap) :
    Stays veil w veil.Sees (reply.perform w) := by
  cases reply with
  | give v => exact ⟨.refl hw, hreply⟩
  | make c => exact confined_onHeap (fun _ hh => hh.make hreply.1) w hw
  | makeString s => exact confined_onHeap (f := (·.makeString s)) (fun _ hh => hh.make trivial) w hw
  | makeList items =>
    exact confined_onHeap (f := (·.makeSequence .list items none))
      (fun _ hh => hh.makeSequence (.inl rfl) hreply fun _ hm => by cases hm) w hw
  | makeVector items metadata =>
    exact confined_onHeap (f := (·.makeSequence .vector items metadata))
      (fun _ hh => hh.makeSequence (.inr rfl) hreply.1 hreply.2) w hw
  | makeAtom v => exact confined_onHeap (f := (·.makeAtom v)) (fun _ hh => hh.makeAtom hreply) w hw
  | annotate v metadata =>
    exact confined_onHeap (f := (·.withMetadata v metadata))
      (fun _ hh => hh.withMetadata hreply.1 hreply.2) w hw
  | build d => exact confined_onHeap (fun _ hh => hh.build d) w hw
  | append whole cell vs =>
    obtain ⟨_, hlist, hwhole, hvs⟩ := hreply
    have hcell := hw.heap.cell whole cell hwhole (by rw [hlist]; rfl)
    exact confined_onHeap (f := fun h => (whole, h.append cell vs))
      (fun _ hh => ⟨hh.spares_append hcell hvs, hwhole⟩) w hw
  | reset atom v =>
    exact confined_onHeap (f := fun h => (v, h.reset atom v))
      (fun _ hh => ⟨hh.spares_reset atom hreply, hreply⟩) w hw
  | generate stem => exact ⟨⟨⟨hw.heap, hw.bound⟩, fun _ _ => rfl⟩, trivial⟩
  | print line =>
    unfold Reply.perform
    dsimp only
    split
    · exact ⟨⟨⟨hw.heap, hw.bound⟩, fun _ _ => rfl⟩, trivial⟩
    · exact ⟨.refl hw, trivial⟩
  | raise v => exact ⟨.refl hw, hreply⟩
  | raiseText s =>
    have hmade : Confined veil veil.Sees (Run.onHeap (·.makeString s)) :=
      confined_onHeap fun _ hh => hh.make trivial
    exact hmade.bind (q := veil.Sees) (fun v hv => confined_throw (e := .thrown v) hv) w hw
  | unreadable e =>
    rw [Reply.perform, Failure.ofParse_eq hreply]
    exact ⟨.refl hw, trivial⟩
  | want path => exact ⟨.refl hw, trivial⟩
  | crash e => cases hreply

/-- Operations stay in sight, whatever they do. -/
theorem Operation.confined_call (op : Operation) {args : List Value} (hargs : veil.SeesAll args) :
    Confined veil veil.Sees (op.call args) := by
  intro w hw
  have hfor := isFor_answer w.host hw.heap.isClosed op hargs
  unfold call
  cases hanswer : op.answer w.host w.heap args with
  | error f => exact ⟨.refl hw, trivial⟩
  | ok reply => exact Reply.stays_perform hw (hfor reply hanswer)

end Operations

end Lisp
