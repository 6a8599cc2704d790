import Lisp.Heap.Basic
import Std.Data.ExtTreeMap

/-!
Frames of lexical scope. A frame knows the frames around it, nearest first, so a name is looked up
along a path that is fixed when the frame is made.
-/
namespace Lisp

/-- What names are bound to. -/
structure Bindings where
  values : Std.ExtTreeMap Text Value := {}
  deriving DecidableEq

namespace Bindings

def get? (b : Bindings) (name : Text) : Option Value := b.values[name]?

/-- Binds a name, replacing what it was bound to. -/
def put (b : Bindings) (name : Text) (v : Value) : Bindings := ⟨b.values.insert name v⟩

/-- The pairs put one after the other, so that the last one for a name wins. -/
def ofPairs (pairs : List (Text × Value)) : Bindings :=
  pairs.foldl (fun b (name, v) => put b name v) {}

def names (b : Bindings) : List Text := b.values.keys

@[simp] theorem get?_empty (name : Text) : ({} : Bindings).get? name = none := by simp [get?]

theorem get?_put (b : Bindings) (name other : Text) (v : Value) :
    (b.put name v).get? other = if name = other then some v else b.get? other := by
  simp [get?, put, Std.ExtTreeMap.getElem?_insert]

theorem ext {b c : Bindings} (h : ∀ name, b.get? name = c.get? name) : b = c := by
  obtain ⟨values⟩ := b
  obtain ⟨others⟩ := c
  exact congrArg mk (Std.ExtTreeMap.ext_getElem? h)

theorem mem_names {b : Bindings} {name : Text} : name ∈ b.names ↔ (b.get? name).isSome := by
  simp [names, get?]

end Bindings

structure Frame where
  bindings : Bindings := {}
  outers : List FrameId := []
  deriving DecidableEq

structure Scopes where
  frames : Array Frame := #[]
  deriving DecidableEq

namespace Scopes

def frame (s : Scopes) (f : FrameId) : Frame := s.frames.getD f {}

/-- The frame and those around it, nearest first. -/
def path (s : Scopes) (f : FrameId) : List FrameId := f :: (s.frame f).outers

def outer? (s : Scopes) (f : FrameId) : Option FrameId := (s.frame f).outers.head?

def names (s : Scopes) (f : FrameId) : List Text := (s.frame f).bindings.names

/-- What the frame itself binds a name to. -/
def get? (s : Scopes) (f : FrameId) (name : Text) : Option Value := (s.frame f).bindings.get? name

/-- The nearest frame that binds a name. -/
def resolve? (s : Scopes) (f : FrameId) (name : Text) : Option FrameId :=
  (s.path f).find? fun g => (s.get? g name).isSome

/-- What a name is bound to in the nearest frame that binds it. -/
def find? (s : Scopes) (f : FrameId) (name : Text) : Option Value :=
  (s.path f).findSome? fun g => s.get? g name

/-- A new frame inside `outer`. -/
def push (s : Scopes) (outer : Option FrameId) (bindings : Bindings) : FrameId × Scopes :=
  let outers := match outer with
    | some f => s.path f
    | none => []
  (s.frames.size, { s with frames := s.frames.push ⟨bindings, outers⟩ })

/-- Binds a name in the frame itself. -/
def define (s : Scopes) (f : FrameId) (name : Text) (v : Value) : Scopes :=
  { s with
    frames := s.frames.modify f fun frame => { frame with bindings := frame.bindings.put name v } }

/-- Binds a name anew in the nearest frame that binds it. -/
def set? (s : Scopes) (f : FrameId) (name : Text) (v : Value) : Option Scopes :=
  (s.resolve? f name).map fun g => s.define g name v

end Scopes

end Lisp
