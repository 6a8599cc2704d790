import Lisp.Evaluator.Basic

/-!
How computations end, and those that generate no symbol: whatever else they change and whether or
not they fail, the number of symbols generated so far stays as it was.
-/
namespace Lisp

/-- The world in which a computation ends. -/
def World.after {α : Type} (w : World) (m : Run α) : World :=
  match m w with
  | .ok _ w' => w'
  | .error _ w' => w'

namespace World

open Evaluator

variable {α β : Type} {m : Run α} {f : α → Run β} {w u : World}

theorem after_ok {a : α} (h : m w = .ok a u) : w.after m = u := by
  rw [after, h]

theorem after_error {e : Failure} (h : m w = .error e u) : w.after m = u := by
  rw [after, h]

theorem after_bind_ok {a : α} (h : m w = .ok a u) : w.after (m >>= f) = u.after (f a) := by
  rw [after, after, bind_ok h]

theorem after_bind_error {e : Failure} (h : m w = .error e u) : w.after (m >>= f) = u :=
  after_error (bind_error h)

end World

namespace Run

variable {α β : Type}

class Quiet (m : Run α) : Prop where
  generated_after : ∀ w : World, (w.after m).generated = w.generated

instance quiet_pure (a : α) : Quiet (pure a : Run α) := ⟨fun _ => rfl⟩

instance quiet_throw (e : Failure) : Quiet (throw e : Run α) := ⟨fun _ => rfl⟩

instance quiet_fault (f : Fault) : Quiet (fault f : Run α) := ⟨fun _ => rfl⟩

instance quiet_malformed (form : Special) (why : Malformation) :
    Quiet (malformed form why : Run α) :=
  ⟨fun _ => rfl⟩

instance quiet_get : Quiet (get : Run World) := ⟨fun _ => rfl⟩

instance quiet_look (f : Heap → α) : Quiet (look f) := ⟨fun _ => rfl⟩

instance quiet_inScopes (f : Scopes → α) : Quiet (inScopes f) := ⟨fun _ => rfl⟩

instance quiet_onHeap (f : Heap → α × Heap) : Quiet (onHeap f) := ⟨fun _ => rfl⟩

instance quiet_onScopes (f : Scopes → α × Scopes) : Quiet (onScopes f) := ⟨fun _ => rfl⟩

instance quiet_make (c : Content) : Quiet (make c) := ⟨fun _ => rfl⟩

instance quiet_makeList (items : List Value) : Quiet (makeList items) := ⟨fun _ => rfl⟩

instance quiet_makeVector (items : List Value) : Quiet (makeVector items) := ⟨fun _ => rfl⟩

instance quiet_makeMap (alternating : List Value) : Quiet (makeMap alternating) := ⟨fun _ => rfl⟩

instance quiet_build (d : Datum) : Quiet (build d) := ⟨fun _ => rfl⟩

instance quiet_newFrame (outer : Option FrameId) (bindings : Bindings) :
    Quiet (newFrame outer bindings) :=
  ⟨fun _ => rfl⟩

instance quiet_define (f : FrameId) (name : Text) (v : Value) : Quiet (define f name v) :=
  ⟨fun _ => rfl⟩

instance quiet_note (line : Heap → Except Crash Text) : Quiet (note line) where
  generated_after w := by
    by_cases hlog : w.log.isEnabled <;> cases hline : line w.heap <;>
      simp [World.after, note, hlog, hline]

instance quiet_check (found : Except Crash α) : Quiet (check found) := by
  cases found <;> exact ⟨fun _ => rfl⟩

instance quiet_bind (m : Run α) (f : α → Run β) [hm : Quiet m] [hf : ∀ a, Quiet (f a)] :
    Quiet (m >>= f) where
  generated_after w := by
    have hfirst := hm.generated_after w
    cases hresult : m w with
    | ok a u =>
      rw [World.after_ok hresult] at hfirst
      rw [World.after_bind_ok hresult, (hf a).generated_after, hfirst]
    | error e u =>
      rw [World.after_error hresult] at hfirst
      rw [World.after_bind_error hresult, hfirst]

instance quiet_map (f : α → β) (m : Run α) [Quiet m] : Quiet (f <$> m) := by
  rw [map_eq_pure_bind]
  infer_instance

instance quiet_ite (p : Prop) [Decidable p] (m m' : Run α) [Quiet m] [Quiet m'] :
    Quiet (if p then m else m') := by
  split <;> infer_instance

instance quiet_lookup (f : FrameId) (name : Text) : Quiet (lookup f name) :=
  @quiet_bind _ _ _ _ _ fun found => by cases found <;> infer_instance

instance quiet_assign (f : FrameId) (name : Text) (v : Value) : Quiet (assign f name v) :=
  @quiet_bind _ _ _ _ _ fun found => by cases found <;> infer_instance

instance quiet_require (f : Heap → Except Fault α) : Quiet (require f) :=
  @quiet_bind _ _ _ _ _ fun found => by cases found <;> infer_instance

instance quiet_settle (f : Heap → Except Failure α) : Quiet (settle f) :=
  @quiet_bind _ _ _ _ _ fun found => by cases found <;> infer_instance

instance quiet_print (style : Style) (v : Value) : Quiet (print style v) := quiet_bind ..

instance quiet_bindParameters (outer : Option FrameId) (params : List Text) (tail : Option Text)
    (args : List Value) : Quiet (bind outer params tail args) := by
  cases tail <;> exact quiet_ite ..

instance quiet_bindClosure (c : Closure) (args : List Value) : Quiet (bindClosure c args) :=
  quiet_bindParameters ..

end Run

end Lisp
