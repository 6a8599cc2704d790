import Lisp.Proofs.World.Conduct
import Lisp.Proofs.World.Embedding

/-!
Worlds that are added to. New values and frames leave what was there as it was, so names are found
along the path of a frame as before. A world that was added to in steps is sound where it was.
-/
namespace Lisp

namespace Scopes

variable {s : Scopes} {frame inner outer : FrameId} {name : Text} {b : Bindings}

/-- The frame and all frames around it were made. -/
def HasPath (s : Scopes) (frame : FrameId) : Prop := ∀ f ∈ s.path frame, f < s.frames.size

theorem path_of_frame {outers : List FrameId} (hframe : s.frames[frame]? = some ⟨b, outers⟩) :
    s.path frame = frame :: outers := by
  simp [path, Scopes.frame, Array.getD_eq_getD_getElem?, hframe]

theorem hasPath_of_frame (hframe : s.frames[inner]? = some ⟨b, s.path outer⟩)
    (houter : s.HasPath outer) : s.HasPath inner := by
  intro f hf
  rw [path_of_frame hframe] at hf
  rcases List.mem_cons.mp hf with rfl | hf
  · exact (Array.getElem?_eq_some_iff.mp hframe).1
  · exact houter f hf

/-- What a frame does not bind is looked up from the frame around it. -/
theorem find?_of_frame (hframe : s.frames[inner]? = some ⟨b, s.path outer⟩) :
    s.find? inner name = (b.get? name).or (s.find? outer name) := by
  rw [find?, path_of_frame hframe, List.findSome?_cons, get?_of_frame hframe]
  cases b.get? name <;> rfl

end Scopes

theorem GivesAll.headD {w : World} {vs : List Value} (hvs : GivesAll w vs) :
    w.heap.Has (vs.headD .nil) := by
  cases vs with
  | nil => trivial
  | cons first _ => exact hvs first List.mem_cons_self

namespace World

variable {w u x : World} {frame : FrameId} {name : Text}

/-- The path of a frame stays as it is, with what is bound along it. -/
theorem Adds.path (hadds : w.Adds u) (hpath : w.scopes.HasPath frame) :
    u.scopes.path frame = w.scopes.path frame := by
  have hframe : frame < w.scopes.frames.size := hpath frame List.mem_cons_self
  rw [Scopes.path, hadds.frame hframe, ← Scopes.path]

/-- In a sound world the frames around a frame were made. -/
theorem IsSound.hasPath (hsound : w.IsSound) (hframe : frame < w.scopes.frames.size) :
    w.scopes.HasPath frame := by
  intro f hf
  rcases List.mem_cons.mp hf with rfl | hf
  · exact hframe
  · exact Nat.lt_trans (hsound.outers_lt hf) hframe

theorem Adds.hasPath (hadds : w.Adds u) (hpath : w.scopes.HasPath frame) :
    u.scopes.HasPath frame := by
  intro f hf
  rw [hadds.path hpath] at hf
  exact Nat.lt_of_lt_of_le (hpath f hf) hadds.frames_le

theorem Adds.find? (hadds : w.Adds u) (hpath : w.scopes.HasPath frame) :
    u.scopes.find? frame name = w.scopes.find? frame name := by
  have hget : ∀ f ∈ w.scopes.path frame, u.scopes.get? f name = w.scopes.get? f name := by
    intro f hf
    rw [Scopes.get?, hadds.frame (hpath f hf), ← Scopes.get?]
  rw [Scopes.find?, Scopes.find?, hadds.path hpath]
  generalize w.scopes.path frame = path at hget
  induction path with
  | nil => rfl
  | cons f rest ih =>
    rw [List.findSome?_cons, List.findSome?_cons, hget f List.mem_cons_self,
      ih fun g hg => hget g (List.mem_cons_of_mem f hg)]

/-- What can be called stays what it is. -/
theorem Adds.callee_eq (hadds : w.Adds u) {f : Value} {callee : Callee}
    (hf : w.heap.callee f = callee) (hsome : ∀ got, callee ≠ .nothing got) :
    u.heap.callee f = callee := by
  obtain ⟨c, hc⟩ : ∃ c, w.heap.content? f = some c := by
    cases f with
    | object address =>
      cases ho : w.heap.objects[address]? with
      | some o => exact ⟨o.content, by simp [Heap.content?, ho]⟩
      | none =>
        refine absurd hf.symm (hsome .nil ∘ fun h => h.trans ?_)
        simp [Heap.callee, Heap.content, Heap.object, Array.getD_eq_getD_getElem?, ho, Content.kind]
    | _ => exact ⟨_, rfl⟩
  exact (hadds.callee hc).trans hf

theorem AddsOnly.numbered (hadds : w.AddsOnly u) (generated : Nat) :
    { w with generated := generated }.AddsOnly { u with generated := generated } :=
  ⟨⟨hadds.heap, hadds.closures, hadds.natives, hadds.frames⟩, hadds.atoms, rfl, hadds.console,
    hadds.host⟩

theorem AddsOnly.makeSequence {items : Sequence Value} {metadata : Option Value} {v : Value}
    (h : Run.onHeap (·.makeSequence .list items metadata) w = .ok v u) :
    w.AddsOnly u ∧ u.heap.parts? v = some (.round, items.toList) := by
  have hparts : (w.heap.makeSequence .list items metadata).2.parts?
      (w.heap.makeSequence .list items metadata).1 = some (.round, items.toList) := by
    rw [Heap.parts?, Heap.content?_makeSequence]
    simp [Heap.cells_makeSequence]
  cases h
  exact ⟨⟨⟨w.heap.grows_makeSequence .list items metadata, rfl, rfl, fun _ _ hfr => hfr⟩, rfl, rfl,
    rfl, rfl⟩, hparts⟩

/-- The world with a name bound in a frame. -/
def binding (w : World) (frame : FrameId) (name : Text) (v : Value) : World :=
  { w with scopes := w.scopes.define frame name v }

/-- A name that is bound in a new frame leaves the others as they are. -/
theorem Adds.binding {inner : FrameId} {v : Value} (hadds : w.Adds u)
    (hnew : w.scopes.frames.size ≤ inner) : w.Adds (u.binding inner name v) := by
  refine { hadds with frames := fun frame fr hfr => ?_ }
  have hne : inner ≠ frame := by
    rintro rfl
    exact absurd (Array.getElem?_eq_some_iff.mp hfr).1 (Nat.not_lt.mpr hnew)
  simp only [World.binding, Scopes.define, Array.getElem?_modify, if_neg hne]
  exact hadds.frames frame fr hfr

/-- A frame that was made inside another one and binds one name. -/
structure Binds (u : World) (inner outer : FrameId) (name : Text) (v : Value) : Prop where
  frame : u.scopes.frames[inner]? = some ⟨({} : Bindings).put name v, u.scopes.path outer⟩
  outer : u.scopes.HasPath outer

namespace Binds

variable {inner outer : FrameId} {v : Value}

theorem hasPath (hbinds : u.Binds inner outer name v) : u.scopes.HasPath inner :=
  Scopes.hasPath_of_frame hbinds.frame hbinds.outer

theorem find? (hbinds : u.Binds inner outer name v) (other : Text) :
    u.scopes.find? inner other = if name = other then some v else u.scopes.find? outer other := by
  rw [Scopes.find?_of_frame hbinds.frame, Bindings.get?_put]
  split <;> simp

theorem adds (hbinds : u.Binds inner outer name v) (hadds : u.Adds x) :
    x.Binds inner outer name v where
  frame := by
    rw [hadds.path hbinds.outer]
    exact hadds.frames _ _ hbinds.frame
  outer := hadds.hasPath hbinds.outer

/-- A frame that was made empty, and in which a name was bound later. -/
theorem define {y : World} (hpath : w.scopes.HasPath outer)
    (hnew : Run.newFrame (some outer) {} w = .ok inner y) (hadds : y.AddsOnly u) :
    w.AddsOnly (u.binding inner name v) ∧ (u.binding inner name v).Binds inner outer name v := by
  have honly := (AddsOnly.newFrame hnew).trans hadds
  obtain ⟨-, -, hframe⟩ := Adds.newFrame hnew
  have hnow := hadds.frames _ _ hframe
  have hinner : inner = w.scopes.frames.size := by
    cases hnew
    rfl
  have hwu : w.AddsOnly (u.binding inner name v) :=
    ⟨honly.toAdds.binding hinner.ge, honly.atoms, honly.generated, honly.console, honly.host⟩
  refine ⟨hwu, ?_, hwu.hasPath hpath⟩
  rw [hwu.path hpath]
  simp [binding, Scopes.define, Array.getElem?_modify, hnow]

end Binds

/-- The world was added to and nothing else was done, in steps that keep it sound as long as the
values are there. -/
structure Enlarges (w : World) (vs : List Value) (u : World) : Prop extends AddsOnly w u where
  steps : GivesAll w vs → Steps .all w u

namespace Enlarges

variable {vs : List Value}

theorem trans (hwu : w.Enlarges vs u) (hux : u.Enlarges vs x) : w.Enlarges vs x where
  toAddsOnly := hwu.toAddsOnly.trans hux.toAddsOnly
  steps hvs := (hwu.steps hvs).trans
    (hux.steps fun v hv => (hwu.steps hvs).notSmaller.1.has (hvs v hv))

/-- The number of the symbols generated so far plays no part. -/
theorem numbered (hwu : w.Enlarges vs u) (generated : Nat) :
    { w with generated := generated }.Enlarges vs { u with generated := generated } where
  toAddsOnly := hwu.toAddsOnly.numbered generated
  steps hvs := by
    have hfrom : Step .all { w with generated := generated } w := .other rfl rfl
    have hto : Step .all u { u with generated := generated } := .other rfl rfl
    exact .head hfrom ((hwu.steps hvs).tail hto)

/-- Nor does what was noted in the log. -/
theorem logged (hwu : w.Enlarges vs u) (log : Log) : w.Enlarges vs { u with log := log } where
  toAddsOnly := { hwu.toAddsOnly with }
  steps hvs := (hwu.steps hvs).tail (.other rfl rfl)

theorem makeInt {n : Int64} {v : Value} (h : Run.make (.int n) w = .ok v u) : w.Enlarges vs u where
  toAddsOnly := AddsOnly.make h
  steps _ := by
    have hmakes : Heap.Makes Licence.all.Allows w.scopes.frames.size w.heap
        (w.heap.make (.int n)) := Heap.makes_make rfl trivial trivial
    cases h
    exact .ofHeap hmakes.1

theorem makeSequence {items : Sequence Value} {v : Value}
    (h : Run.onHeap (·.makeSequence .list items none) w = .ok v u)
    (hitems : GivesAll w vs → GivesAll w items.toList) : w.Enlarges vs u where
  toAddsOnly := (AddsOnly.makeSequence h).1
  steps hvs := by
    cases h
    exact .ofHeap (Heap.makes_makeSequence (.inl rfl) (hitems hvs) fun _ hm => by cases hm).1

theorem newFrame {outer inner : FrameId} {b : Bindings}
    (h : Run.newFrame (some outer) b w = .ok inner u) (houter : outer < w.scopes.frames.size)
    (hb : GivesAll w vs → ∀ name v, b.get? name = some v → w.heap.Has v) : w.Enlarges vs u where
  toAddsOnly := AddsOnly.newFrame h
  steps hvs := by
    cases h
    refine .single (.frame (some outer) b (fun f hf => ?_) (hb hvs))
    cases hf
    exact houter

end Enlarges

end World

end Lisp
