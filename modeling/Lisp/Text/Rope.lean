import Lisp.Sequence
import Lisp.Text.Utf8

/-!
Long texts, kept as sequences of bytes, and texts while they are written.
-/
namespace Lisp

abbrev Rope := Sequence UInt8

/-- The number of characters. Where all bytes are ASCII, it is the number of bytes. -/
def Rope.glyphCount (r : Rope) : Nat :=
  if r.all (· < 0x80) then r.size else Text.glyphCount r.toList

@[simp] theorem Rope.glyphCount_eq (r : Rope) : r.glyphCount = Text.glyphCount r.toList := by
  unfold glyphCount
  split
  · rename_i h
    rw [← Sequence.all_toList] at h
    rw [Text.glyphCount_of_ascii h, Sequence.length_toList]
  · rfl

/-- A text that is being written. -/
structure Script where
  front : Rope
  /-- What was written behind the front, last byte first. -/
  recent : Text

namespace Script

def empty : Script := ⟨.empty, []⟩

def text (s : Script) : Text := s.front.toList ++ s.recent.reverse

def rope (s : Script) : Rope := s.front.append s.recent.reverse

@[inline] def write (s : Script) (t : Text) : Script := ⟨s.front, t.reverseAux s.recent⟩

@[inline] def put (s : Script) (b : UInt8) : Script := ⟨s.front, b :: s.recent⟩

/-- Writes a long text. -/
def writeRope (s : Script) (r : Rope) : Script :=
  if r.size ≤ Tree.chunkSize then s.write r.toList else ⟨s.rope.join r, []⟩

@[simp] theorem text_empty : empty.text = [] := rfl

@[simp] theorem toList_rope (s : Script) : s.rope.toList = s.text := by simp [rope, text]

@[simp] theorem text_write (s : Script) (t : Text) : (s.write t).text = s.text ++ t := by
  simp [write, text]

@[simp] theorem text_put (s : Script) (b : UInt8) : (s.put b).text = s.text ++ [b] := by
  simp [put, text]

@[simp] theorem text_writeRope (s : Script) (r : Rope) :
    (s.writeRope r).text = s.text ++ r.toList := by
  unfold writeRope
  split
  · simp
  · rw [text, Sequence.toList_join, toList_rope, List.reverse_nil, List.append_nil]

end Script

end Lisp
