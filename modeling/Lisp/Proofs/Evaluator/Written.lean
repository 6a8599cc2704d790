import Lisp.Proofs.Evaluator.Fitting
import Lisp.Proofs.Heap.Building

/-!
Forms as they are written. A form that unfolds to a datum is the special form, the call or the
constant that the datum shows, and stays so while the world is only added to.
-/
namespace Lisp

namespace Heap

variable {h : Heap} {form : Value}

theorem items_of_unfolds {items : List Datum} (hform : h.Unfolds form (.group .round items)) :
    ∃ cell, h.content form = .list cell ∧ List.Forall₂ h.Unfolds (h.items cell) items := by
  obtain ⟨vs, hparts, hitems⟩ := unfolds_group.mp hform
  rcases parts?_cases hparts with ⟨cell, seq, _, hcontent, hcell, rfl⟩ | ⟨_, _, hround, _⟩ |
    ⟨_, hround, _⟩
  · exact ⟨cell, content_of_content? hcontent, by rwa [items_eq hcell]⟩
  · cases hround
  · cases hround

theorem symbol?_of_unfolds {name : Text} (hform : h.Unfolds form (.symbol name)) :
    h.symbol? form = some name := by
  simp [symbol?, content_of_content? hform]

end Heap

namespace Meaning

variable {h : Heap} {form : Value}

/-- A list that starts with a name, as it is written. -/
theorem starts_of_unfolds {name : Text} {items : List Datum}
    (hform : h.Unfolds form (.call name items)) :
    ∃ cell head forms, h.content form = .list cell ∧ h.items cell = head :: forms ∧
      h.Unfolds head (.symbol name) ∧ List.Forall₂ h.Unfolds forms items := by
  obtain ⟨cell, hcontent, hitems⟩ := Heap.items_of_unfolds hform
  obtain ⟨head, forms, hhead, hforms, hcell⟩ := List.forall₂_cons_right_iff.mp hitems
  exact ⟨cell, head, forms, hcontent, hcell, hhead, hforms⟩

theorem isSpecial_of_unfolds {special : Special} {items : List Datum}
    (hform : h.Unfolds form (.call special.name items)) :
    ∃ forms, IsSpecial h form special forms ∧ List.Forall₂ h.Unfolds forms items := by
  obtain ⟨cell, head, forms, hcontent, hcell, hhead, hforms⟩ := starts_of_unfolds hform
  refine ⟨forms, ⟨cell, head, hcontent, hcell, ?_⟩, hforms⟩
  rw [Heap.symbol?_of_unfolds hhead]
  cases special <;> rfl

theorem isCall_of_unfolds {name : Text} {items : List Datum}
    (hform : h.Unfolds form (.call name items)) (hname : Special.ofName? name = none) :
    ∃ head forms, IsCall h form head forms ∧ h.Unfolds head (.symbol name) ∧
      List.Forall₂ h.Unfolds forms items := by
  obtain ⟨cell, head, forms, hcontent, hcell, hhead, hforms⟩ := starts_of_unfolds hform
  refine ⟨head, forms, ⟨cell, hcontent, hcell, ?_⟩, hhead, hforms⟩
  rw [Heap.symbol?_of_unfolds hhead]
  exact hname

variable {w : World} {frame : FrameId}

theorem evaluates_symbol {name : Text} {v : Value} (hform : w.heap.Unfolds form (.symbol name))
    (hfound : w.scopes.find? frame name = some v) : Evaluates w form frame (.ok v w) := by
  have hcontent : w.heap.content form = .symbol name := Heap.content_of_content? hform
  have hlookup : Run.lookup frame name w = .ok v w := by simp [Run.lookup, Run.inScopes, hfound]
  exact hlookup ▸ .symbol hcontent

theorem evaluates_int {n : Int64} (hform : w.heap.Unfolds form (.int n)) :
    Evaluates w form frame (.ok form w) :=
  .constant (by simp [IsConstant, Heap.content_of_content? hform])

theorem evaluates_string {s : Text} (hform : w.heap.Unfolds form (.string s)) :
    Evaluates w form frame (.ok form w) := by
  obtain ⟨rope, hcontent, _⟩ := hform
  exact .constant (by simp [IsConstant, Heap.content_of_content? hcontent])

/-- A call of an operation whose name is bound to it. -/
theorem evaluates_operation {op : Operation} {items : List Datum} {f : Value}
    (hform : w.heap.Unfolds form (.call op.name items)) (hname : Special.ofName? op.name = none)
    (hfound : w.scopes.find? frame op.name = some f)
    (hf : w.heap.callee f = .native (.operation op)) :
    ∃ forms, List.Forall₂ w.heap.Unfolds forms items ∧
      ∀ {args x}, EvaluatesAll w forms frame (.ok args x) →
        Evaluates w form frame (op.call args x) := by
  obtain ⟨head, forms, hcall, hhead, hforms⟩ := isCall_of_unfolds hform hname
  exact ⟨forms, hforms, fun hargs =>
    .callNative hcall (evaluates_symbol hhead hfound) hf hargs .operation⟩

theorem equal_ints {a b : Value} {n m : Int64} (ha : w.heap.Unfolds a (.int n))
    (hb : w.heap.Unfolds b (.int m)) :
    Operation.equal.call [a, b] w = .ok (.bool (n == m)) w := by
  have hequal : w.heap.equal a b = (n == m) := by
    rw [Heap.equal_eq_same ha hb trivial trivial, Datum.same]
  simp [Operation.call, Operation.answer, Answer.variadic_eq, Arithmetic.chain, hequal,
    Answer.perform, Reply.ofBool, Reply.perform]

end Meaning

namespace World

/-- All there was is still there and as it was. -/
structure Adds (w u : World) : Prop where
  heap : w.heap.Grows u.heap
  closures : u.heap.closures = w.heap.closures
  natives : u.heap.natives = w.heap.natives
  frames : ∀ (frame : FrameId) fr, w.scopes.frames[frame]? = some fr →
    u.scopes.frames[frame]? = some fr

namespace Adds

variable {w u x : World}

theorem refl (w : World) : w.Adds w := ⟨.refl _, rfl, rfl, fun _ _ hfr => hfr⟩

theorem trans (hwu : w.Adds u) (hux : u.Adds x) : w.Adds x :=
  ⟨hwu.heap.trans hux.heap, hux.closures.trans hwu.closures, hux.natives.trans hwu.natives,
    fun frame fr hfr => hux.frames frame fr (hwu.frames frame fr hfr)⟩

theorem make {c : Content} {v : Value} (h : Run.make c w = .ok v u) :
    w.Adds u ∧ u.heap.content? v = some c ∧ u.scopes = w.scopes := by
  cases h
  exact ⟨⟨w.heap.grows_make c, rfl, rfl, fun _ _ hfr => hfr⟩, w.heap.content?_make c, rfl⟩

theorem newFrame {outer : Option FrameId} {bindings : Bindings} {inner : FrameId}
    (h : Run.newFrame outer bindings w = .ok inner u) :
    w.Adds u ∧ u.heap = w.heap ∧
      u.scopes.frames[inner]? = some ⟨bindings, (outer.map w.scopes.path).getD []⟩ := by
  cases h
  refine ⟨⟨.refl _, rfl, rfl, fun frame fr hfr => ?_⟩, rfl, ?_⟩
  · obtain ⟨hlt, _⟩ := Array.getElem?_eq_some_iff.mp hfr
    simp only [Array.getElem?_push]
    rw [if_neg (by omega)]
    exact hfr
  · cases outer <;> simp

theorem callee {f : Value} {c : Content} (hadds : w.Adds u) (hf : w.heap.content? f = some c) :
    u.heap.callee f = w.heap.callee f := by
  unfold Heap.callee Heap.native Heap.closure
  rw [Heap.content_of_content? hf, Heap.content_of_content? (hadds.heap.content? hf),
    hadds.closures, hadds.natives]

/-- What a frame binds, it still binds. -/
theorem get? {frame : FrameId} {name : Text} {v : Value} (hadds : w.Adds u)
    (hv : w.scopes.get? frame name = some v) : u.scopes.get? frame name = some v := by
  unfold Scopes.get? Scopes.frame at hv ⊢
  cases hfr : w.scopes.frames[frame]? with
  | none => simp [Array.getD_eq_getD_getElem?, hfr] at hv
  | some fr =>
    rw [Array.getD_eq_getD_getElem?, hadds.frames frame fr hfr]
    rwa [Array.getD_eq_getD_getElem?, hfr] at hv

end Adds

end World

namespace Scopes

variable {s : Scopes} {frame outer : FrameId} {name : Text} {v : Value}

theorem find?_of_get? (hv : s.get? frame name = some v) : s.find? frame name = some v := by
  simp [find?, path, hv]

/-- What the frame does not bind is looked up around it. -/
theorem find?_of_outer {b : Bindings} {more : List FrameId}
    (hframe : s.frames[frame]? = some ⟨b, outer :: more⟩) (hname : b.get? name = none)
    (hv : s.get? outer name = some v) : s.find? frame name = some v := by
  have hfr : s.frame frame = ⟨b, outer :: more⟩ := by
    simp [Scopes.frame, Array.getD_eq_getD_getElem?, hframe]
  have hown : s.get? frame name = none := by rw [Scopes.get?, hfr, hname]
  simp [find?, path, hfr, hown, hv]

theorem get?_of_frame {b : Bindings} {outers : List FrameId}
    (hframe : s.frames[frame]? = some ⟨b, outers⟩) : s.get? frame name = b.get? name := by
  simp [Scopes.get?, Scopes.frame, Array.getD_eq_getD_getElem?, hframe]

end Scopes

end Lisp
