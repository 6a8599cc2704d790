import Lisp.Evaluator.Basic
import Lisp.Proofs.Heap.Soundness

/-!
What can happen to a world, and computations by where they lead. A world changes by steps of its
heap, by new frames, and by names that are bound, anew or in a frame that is open to it. A world is
sound when its heap is, when what frames bind and where functions were made is there, and when
frames lie inside older frames.
-/
namespace Lisp

namespace Scopes

variable (s : Scopes)

theorem frame_push (outer : Option FrameId) (bindings : Bindings) (g : FrameId) :
    (s.push outer bindings).2.frame g =
      if g = s.frames.size then ⟨bindings, (outer.map s.path).getD []⟩ else s.frame g := by
  cases outer <;> simp only [frame, push, Array.getD_eq_getD_getElem?, Array.getElem?_push] <;>
    split <;> rfl

theorem outers_define (f g : FrameId) (name : Text) (v : Value) :
    ((s.define f name v).frame g).outers = (s.frame g).outers := by
  simp only [frame, define, Array.getD_eq_getD_getElem?, Array.getElem?_modify]
  split
  · cases s.frames[g]? <;> rfl
  · rfl

theorem get?_define (f g : FrameId) (name other : Text) (v : Value) :
    (s.define f name v).get? g other =
      if g = f ∧ f < s.frames.size ∧ name = other then some v else s.get? g other := by
  simp only [get?, frame, define, Array.getD_eq_getD_getElem?, Array.getElem?_modify]
  by_cases hfg : f = g
  · subst hfg
    by_cases hlt : f < s.frames.size <;> simp [hlt, Bindings.get?_put]
  · simp [hfg, Ne.symm hfg]

@[simp] theorem size_define (f : FrameId) (name : Text) (v : Value) :
    (s.define f name v).frames.size = s.frames.size := by
  simp [define]

@[simp] theorem size_push (outer : Option FrameId) (bindings : Bindings) :
    (s.push outer bindings).2.frames.size = s.frames.size + 1 := by
  simp [push]

/-- Frames lie inside older frames, and know the frames around them. -/
def IsForest : Prop :=
  ∀ f o, s.outer? f = some o → o < f ∧ (s.frame f).outers = s.path o

variable {s}

theorem isForest_empty : IsForest {} := by
  intro f o ho
  cases ho

theorem IsForest.define (hs : s.IsForest) (f : FrameId) (name : Text) (v : Value) :
    (s.define f name v).IsForest := by
  intro g o ho
  simp only [outer?, path, outers_define] at ho ⊢
  exact hs g o ho

theorem IsForest.push (hs : s.IsForest) {outer : Option FrameId}
    (houter : ∀ f, outer = some f → f < s.frames.size) (bindings : Bindings) :
    (s.push outer bindings).2.IsForest := by
  intro g o ho
  simp only [outer?, path, frame_push] at ho ⊢
  split at ho
  · rename_i hg
    cases outer with
    | none => cases ho
    | some f =>
      have hf : f < s.frames.size := houter f rfl
      obtain rfl : f = o := by simpa [path] using ho
      simp [hg, Nat.ne_of_lt hf, hf, path]
  · rename_i hg
    obtain ⟨hlt, houters⟩ := hs g o ho
    have hgsize : g < s.frames.size := by
      by_contra hge
      simp [frame, Array.getD, hge] at ho
    rw [if_neg hg, if_neg (Nat.ne_of_lt (Nat.lt_trans hlt hgsize))]
    exact ⟨hlt, houters⟩

end Scopes

namespace World

structure IsSound (w : World) : Prop where
  heap : w.heap.IsSound
  scope : ∀ id < w.heap.closures.size, (w.heap.closure id).scope < w.scopes.frames.size
  bound : ∀ f name v, w.scopes.get? f name = some v → w.heap.Has v
  nested : ∀ f o, w.scopes.outer? f = some o → o < f ∧ (w.scopes.frame f).outers = w.scopes.path o

/-- What a computation may do beside making new things and binding names anew. -/
structure Licence where
  /-- In which frames it may bind names that are not bound there yet. -/
  bind : FrameId → Prop
  /-- Whether it may add to all lists. -/
  grow : Prop
  /-- To which lists it may add in any case. -/
  extend : Heap → Value → Prop

def Licence.Allows (may : Licence) (h : Heap) (list : Value) : Prop := may.grow ∨ may.extend h list

/-- To bind names in all frames, and to add to lists. -/
def Licence.all : Licence := ⟨fun _ => True, True, fun _ _ => True⟩

/-- The changes to a world that a licence allows. -/
inductive Step (may : Licence) : World → World → Prop
  | heap {w : World} {h : Heap} :
    Heap.Step may.Allows w.scopes.frames.size w.heap h → Step may w { w with heap := h }
  | frame {w : World} (outer : Option FrameId) (bindings : Bindings) :
    (∀ f, outer = some f → f < w.scopes.frames.size) →
    (∀ name v, bindings.get? name = some v → w.heap.Has v) →
    Step may w { w with scopes := (w.scopes.push outer bindings).2 }
  | define {w : World} {f : FrameId} (name : Text) {v : Value} :
    may.bind f → w.heap.Has v → Step may w { w with scopes := w.scopes.define f name v }
  | assign {w : World} {f : FrameId} {name : Text} {v : Value} :
    (w.scopes.get? f name).isSome → w.heap.Has v →
    Step may w { w with scopes := w.scopes.define f name v }
  | other {w w' : World} : w'.heap = w.heap → w'.scopes = w.scopes → Step may w w'

abbrev Steps (may : Licence) : World → World → Prop := Relation.ReflTransGen (Step may)

variable {may : Licence} {w w' : World}

theorem Step.notSmaller (hstep : Step may w w') :
    w.heap.NotSmaller w'.heap ∧ w.scopes.frames.size ≤ w'.scopes.frames.size := by
  cases hstep with
  | heap hheap => exact ⟨hheap.notSmaller, Nat.le_refl _⟩
  | frame outer bindings _ _ => exact ⟨.refl _, by simp⟩
  | define name _ _ => exact ⟨.refl _, by simp⟩
  | assign _ _ => exact ⟨.refl _, by simp⟩
  | other hheap hscopes => exact ⟨hheap ▸ .refl _, hscopes ▸ Nat.le_refl _⟩

theorem Steps.notSmaller (hsteps : Steps may w w') :
    w.heap.NotSmaller w'.heap ∧ w.scopes.frames.size ≤ w'.scopes.frames.size := by
  induction hsteps with
  | refl => exact ⟨.refl _, Nat.le_refl _⟩
  | tail _ hstep ih => exact ⟨ih.1.trans hstep.notSmaller.1, ih.2.trans hstep.notSmaller.2⟩

theorem Steps.trans {u : World} (hwu : Steps may w u) (huw' : Steps may u w') : Steps may w w' :=
  Relation.ReflTransGen.trans hwu huw'

theorem Steps.has (hsteps : Steps may w w') {v : Value} (hv : w.heap.Has v) : w'.heap.Has v :=
  hsteps.notSmaller.1.has hv

theorem Steps.hasAll (hsteps : Steps may w w') {vs : List Value}
    (hvs : ∀ v ∈ vs, w.heap.Has v) : ∀ v ∈ vs, w'.heap.Has v :=
  fun v hv => hsteps.has (hvs v hv)

theorem Steps.ofHeap {h : Heap} (hsteps : Heap.Steps may.Allows w.scopes.frames.size w.heap h) :
    Steps may w { w with heap := h } := by
  induction hsteps with
  | refl => exact .refl
  | tail _ hstep ih => exact ih.tail (.heap hstep)

theorem isSound_heap_step {h : Heap} (hsound : w.IsSound)
    (hstep : Heap.Step may.Allows w.scopes.frames.size w.heap h) :
    { w with heap := h }.IsSound := by
  refine ⟨hsound.heap.step hstep, ?_, fun f name v hv => hstep.notSmaller.has
    (hsound.bound f name v hv), hsound.nested⟩
  intro id hid
  cases hstep with
  | closure c hbody hscope =>
    dsimp only at hid ⊢
    rw [Heap.closure_push]
    split
    · exact hscope
    · rename_i hne
      rw [Array.size_push] at hid
      exact hsound.scope id (Nat.lt_of_le_of_ne (Nat.le_of_lt_succ hid) hne)
  | _ => exact hsound.scope id hid

/-- Binding a name to a value that is there. -/
theorem IsSound.define (hsound : w.IsSound) {f : FrameId} {name : Text} {v : Value}
    (hv : w.heap.Has v) : { w with scopes := w.scopes.define f name v }.IsSound := by
  refine ⟨hsound.heap, fun id hid => ?_, fun g other u hu => ?_,
    Scopes.IsForest.define hsound.nested f name v⟩
  · rw [Scopes.size_define]
    exact hsound.scope id hid
  · dsimp only at hu
    rw [Scopes.get?_define] at hu
    split at hu
    · cases hu
      exact hv
    · exact hsound.bound g other u hu

theorem IsSound.push (hsound : w.IsSound) {outer : Option FrameId} {bindings : Bindings}
    (houter : ∀ f, outer = some f → f < w.scopes.frames.size)
    (hbindings : ∀ name v, bindings.get? name = some v → w.heap.Has v) :
    { w with scopes := (w.scopes.push outer bindings).2 }.IsSound := by
  refine ⟨hsound.heap, fun id hid => ?_, fun g name v hv => ?_,
    Scopes.IsForest.push hsound.nested houter bindings⟩
  · rw [Scopes.size_push]
    exact Nat.lt_succ_of_lt (hsound.scope id hid)
  · simp only [Scopes.get?, Scopes.frame_push] at hv
    split at hv
    · exact hbindings name v hv
    · exact hsound.bound g name v hv

/-- Steps keep worlds sound. -/
theorem IsSound.step (hsound : w.IsSound) (hstep : Step may w w') : w'.IsSound := by
  cases hstep with
  | heap hheap => exact isSound_heap_step hsound hheap
  | frame outer bindings houter hbindings => exact hsound.push houter hbindings
  | define name _ hv => exact hsound.define hv
  | assign _ hv => exact hsound.define hv
  | other hheap hscopes =>
    obtain ⟨heap, scopes, _, _, _, _⟩ := w'
    cases hheap
    cases hscopes
    exact ⟨hsound.heap, hsound.scope, hsound.bound, hsound.nested⟩

theorem IsSound.steps (hsound : w.IsSound) (hsteps : Steps may w w') : w'.IsSound := by
  induction hsteps with
  | refl => exact hsound
  | tail _ hstep ih => exact ih.step hstep

theorem IsSound.callee (hsound : w.IsSound) {f : Value} {c : Closure}
    (hf : w.heap.callee f = .closure c) :
    w.heap.Has c.body ∧ c.scope < w.scopes.frames.size := by
  unfold Heap.callee at hf
  have hcontent := hsound.heap.content f
  split at hf
  · cases hf
  · rename_i id hid
    cases hf
    rw [hid] at hcontent
    exact ⟨hsound.heap.body id, hsound.scope id hcontent⟩
  · cases hf

end World

end Lisp
