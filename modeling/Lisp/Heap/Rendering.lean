import Lisp.Bounds
import Lisp.Heap.Basic
import Lisp.Number.Written

/-!
The text of a value. Readable text reads back as an equal value; displayed text writes strings raw.
A list, vector or atom inside itself is cut short with three dots where it is met again. A printer
keeps one set of the places that are open, which it enters and leaves; what it writes is the text
with the places that are open around each value.
-/
namespace Lisp

inductive Style
  | readable
  | displayed
  deriving DecidableEq

/-- Something that can contain itself. -/
inductive Place
  | sequence (cell : CellId)
  | atom (cell : AtomId)
  deriving DecidableEq

/-- The mark of a place on a trail. -/
def Place.mark : Place → Nat × Nat
  | .sequence cell => (0, cell)
  | .atom cell => (1, cell)

theorem Place.mark_injective {p q : Place} (h : p.mark = q.mark) : p = q := by
  cases p <;> cases q <;> simp_all [mark]

namespace Heap

/-- Backslash, newline and quote are escaped. -/
def escape (b : UInt8) : Text :=
  if b = 92 then [92, 92] else if b = 10 then [92, 110] else if b = 34 then [92, 34] else [b]

def stringText (style : Style) (s : Text) : Text :=
  match style with
  | .readable => [34] ++ s.flatMap escape ++ [34]
  | .displayed => s

def functionText (h : Heap) (id : ClosureId) : Text :=
  Text.of (if (h.closure id).isMacro then "#<macro>" else "#<function>")

end Heap

/-- What was written, and the places that are being written. -/
structure Printer where
  script : Script := .empty
  opened : Trail := {}

namespace Printer

@[inline] def put (p : Printer) (b : UInt8) : Printer := { p with script := p.script.put b }

@[inline] def write (p : Printer) (t : Text) : Printer := { p with script := p.script.write t }

@[inline] def writeRope (p : Printer) (r : Rope) : Printer :=
  { p with script := p.script.writeRope r }

def writeString (style : Style) (s : Rope) (p : Printer) : Printer :=
  match style with
  | .readable => ((p.put 34).writeRope (s.flatMap Heap.escape)).put 34
  | .displayed => p.writeRope s

/-- Enters a place, unless it is open already. -/
def enter? (p : Printer) (place : Place) : Option Printer :=
  if p.opened.contains place.mark then none
  else some { p with opened := p.opened.add place.mark }

def leave (p : Printer) (place : Place) : Printer :=
  { p with opened := p.opened.remove place.mark }

/-- Writes values one after the other with `separator` between them. -/
def writeAll (separator : Text) (write : Value → Printer → Except Crash Printer) :
    List Value → Printer → Except Crash Printer
  | [], p => .ok p
  | [v], p => write v p
  | v :: u :: more, p => do
    let p ← write v p
    writeAll separator write (u :: more) (p.write separator)

/-- Writes a list or a vector, cut short where it is open already. -/
def writeSequence (h : Heap) (left right : UInt8) (cell : CellId)
    (write : Value → Printer → Except Crash Printer) (p : Printer) : Except Crash Printer :=
  match (p.put left).enter? (.sequence cell) with
  | none => .ok (((p.put left).write (Text.of "...")).put right)
  | some p => do
    let p ← writeAll [32] write (h.items cell) p
    return (p.leave (.sequence cell)).put right

/-- Writes a value. What there is to write is chosen by its kind; the fuel bounds how deep it goes.
-/
def writeWithin (h : Heap) (style : Style) :
    (fuel : Nat) → Value → Printer → Except Crash Printer
  | 0, _, p => .ok p
  | fuel + 1, v, p =>
    match h.kind v, h.content v with
    | .nil, _ => .ok (p.write (Text.of "nil"))
    | .boolean, .bool b => .ok (p.write (Text.of (if b then "true" else "false")))
    | .integer, .int n => .ok (p.write (Text.ofInt n.toInt))
    | .float, .float x => .ok (p.write (Number.literal x))
    | .string, .string s => .ok (p.writeString style s)
    | .symbol, .symbol name => .ok (p.write name)
    | .keyword, .keyword name => .ok ((p.put 58).write name)
    | .list, .list cell => writeSequence h 40 41 cell (writeWithin h style fuel) p
    | .vector, .vector cell => writeSequence h 91 93 cell (writeWithin h style fuel) p
    | .hashMap, .map entries => do
      let parts := entries.toList.flatMap fun (key, value) => [key, value]
      let p ← writeAll [32] (writeWithin h style fuel) parts (p.put 123)
      return p.put 125
    | .atom, .atom cell =>
      match p.enter? (.atom cell) with
      | none => .ok (p.write (Text.of "(atom ...)"))
      | some p => do
        let p ← writeWithin h style fuel (h.deref cell) (p.write (Text.of "(atom "))
        return (p.put 41).leave (.atom cell)
    | .function, .native id =>
      .ok (((p.write (Text.of "#<native ")).write (h.native id).name).put 62)
    | .function, .closure id => .ok (p.write (h.functionText id))
    | .error, .error payload => do
      let p ← writeWithin h style fuel payload (p.write (Text.of "#<error "))
      return p.put 62
    | kind, _ => .error (.kind kind)

end Printer

namespace Heap

/-- Deep enough for every value: between two openings of a place the objects get older. -/
def renderingDepth (h : Heap) : Nat :=
  (h.cells.size + h.atoms.size + 1) * (h.objects.size + 2)

def print (h : Heap) (style : Style) (v : Value) : Except Crash Text :=
  (Printer.writeWithin h style h.renderingDepth v {}).map (·.script.text)

/-- Prints several values with `separator` between them. -/
def printAll (h : Heap) (style : Style) (separator : Text) (vs : List Value) :
    Except Crash Rope :=
  (Printer.writeAll separator (Printer.writeWithin h style h.renderingDepth) vs {}).map
    (·.script.rope)

/-- The text of a value. -/
def render (h : Heap) (style : Style) (v : Value) : Text :=
  match h.print style v with
  | .ok t => t
  | .error _ => []

/-- The texts of several values with `separator` between them. -/
def renderAll (h : Heap) (style : Style) (separator : Text) (vs : List Value) : Rope :=
  match h.printAll style separator vs with
  | .ok r => r
  | .error _ => .empty

/-- The text of a list or a vector with the places that are open around it. -/
def sequenceText (h : Heap) (left right : UInt8) (cell : CellId) (opened : Trail)
    (text : Trail → Value → Text) : Text :=
  let mark := (Place.sequence cell).mark
  if opened.contains mark then [left] ++ Text.of "..." ++ [right]
  else [left] ++ Text.join [32] ((h.items cell).map (text (opened.add mark))) ++ [right]

/-- The text of a value with the places that are open around it. The fuel bounds how deep it goes.
-/
def renderWithin (h : Heap) (style : Style) : (fuel : Nat) → (opened : Trail) → Value → Text
  | 0, _, _ => []
  | fuel + 1, opened, v =>
    match h.content v with
    | .nil => Text.of "nil"
    | .bool b => Text.of (if b then "true" else "false")
    | .int n => Text.ofInt n.toInt
    | .float x => Number.literal x
    | .string s => stringText style s.toList
    | .symbol name => name
    | .keyword name => [58] ++ name
    | .list cell => h.sequenceText 40 41 cell opened (renderWithin h style fuel)
    | .vector cell => h.sequenceText 91 93 cell opened (renderWithin h style fuel)
    | .map entries =>
      let parts := entries.toList.flatMap fun (key, value) => [key, value]
      [123] ++ Text.join [32] (parts.map (renderWithin h style fuel opened)) ++ [125]
    | .atom cell =>
      let mark := (Place.atom cell).mark
      if opened.contains mark then Text.of "(atom ...)"
      else
        Text.of "(atom " ++ renderWithin h style fuel (opened.add mark) (h.deref cell) ++ [41]
    | .native id => Text.of "#<native " ++ (h.native id).name ++ [62]
    | .closure id => h.functionText id
    | .error payload => Text.of "#<error " ++ renderWithin h style fuel opened payload ++ [62]

end Heap

namespace Printer

/-- A printer that wrote a text and has the same places open as before. -/
structure Wrote (p : Printer) (t : Text) (p' : Printer) : Prop where
  text : p'.script.text = p.script.text ++ t
  opened : p'.opened = p.opened

section Wrote

variable {p p' p'' : Printer} {t u : Text}

theorem Wrote.refl (p : Printer) : Wrote p [] p := ⟨by simp, rfl⟩

theorem Wrote.trans (h : Wrote p t p') (h' : Wrote p' u p'') : Wrote p (t ++ u) p'' :=
  ⟨by rw [h'.text, h.text, List.append_assoc], h'.opened.trans h.opened⟩

theorem wrote_put (p : Printer) (b : UInt8) : Wrote p [b] (p.put b) := ⟨Script.text_put .., rfl⟩

theorem wrote_write (p : Printer) (t : Text) : Wrote p t (p.write t) := ⟨Script.text_write .., rfl⟩

theorem wrote_writeString (style : Style) (s : Rope) (p : Printer) :
    Wrote p (Heap.stringText style s.toList) (p.writeString style s) := by
  cases style with
  | readable => exact ⟨by simp [writeString, put, writeRope, Heap.stringText], rfl⟩
  | displayed => exact ⟨Script.text_writeRope .., rfl⟩

theorem enter?_of_open {place : Place} (h : p.opened.contains place.mark = true) :
    p.enter? place = none := if_pos h

/-- Entering and leaving balance: what is written in between is written inside the place, and
afterwards the places are open that were open before. -/
theorem exists_enter? {place : Place} (h : p.opened.contains place.mark = false) :
    ∃ inner, p.enter? place = some inner ∧ inner.script = p.script ∧
      inner.opened = p.opened.add place.mark ∧
      ∀ t p', Wrote inner t p' → Wrote p t (p'.leave place) := by
  refine ⟨_, if_neg (by simp [h]), rfl, rfl, fun t p' hwrote => ⟨hwrote.text, ?_⟩⟩
  rw [leave, hwrote.opened]
  exact Trail.remove_add h

theorem exists_writeAll {write : Value → Printer → Except Crash Printer} {text : Value → Text}
    {opened : Trail} (separator : Text)
    (hwrite : ∀ v p, p.opened = opened → ∃ p', write v p = .ok p' ∧ Wrote p (text v) p')
    (vs : List Value) (hp : p.opened = opened) :
    ∃ p', writeAll separator write vs p = .ok p' ∧
      Wrote p (Text.join separator (vs.map text)) p' := by
  induction vs generalizing p with
  | nil => exact ⟨p, rfl, .refl p⟩
  | cons v more ih =>
    obtain ⟨q, hq, hwrote⟩ := hwrite v p hp
    cases more with
    | nil => exact ⟨q, hq, by simpa [Text.join] using hwrote⟩
    | cons u more =>
      have hbetween := hwrote.trans (wrote_write q separator)
      obtain ⟨p', hp', hrest⟩ := ih (hbetween.opened.trans hp)
      refine ⟨p', ?_, ?_⟩
      · rw [writeAll, hq]
        exact hp'
      · simpa [Text.join] using hbetween.trans hrest

end Wrote

theorem exists_writeSequence {h : Heap} {write : Value → Printer → Except Crash Printer}
    {text : Trail → Value → Text} (hwrite : ∀ opened v p, p.opened = opened →
      ∃ p', write v p = .ok p' ∧ Wrote p (text opened v) p')
    (left right : UInt8) (cell : CellId) (p : Printer) :
    ∃ p', writeSequence h left right cell write p = .ok p' ∧
      Wrote p (h.sequenceText left right cell p.opened text) p' := by
  cases hopen : p.opened.contains (Place.sequence cell).mark with
  | true =>
    have hentered : (p.put left).enter? (.sequence cell) = none := enter?_of_open hopen
    refine ⟨((p.put left).write (Text.of "...")).put right, ?_, ?_⟩
    · rw [writeSequence, hentered]
    · rw [Heap.sequenceText, if_pos hopen]
      exact ((wrote_put p left).trans (wrote_write ..)).trans (wrote_put ..)
  | false =>
    obtain ⟨inner, hinner, -, hadd, hleave⟩ := exists_enter? (p := p.put left) hopen
    obtain ⟨q, hq, hwrote⟩ := exists_writeAll [32] (hwrite _) (h.items cell) hadd
    refine ⟨(q.leave (.sequence cell)).put right, ?_, ?_⟩
    · rw [writeSequence, hinner]
      exact congrArg (· >>= _) hq
    · rw [Heap.sequenceText, if_neg (Bool.eq_false_iff.mp hopen)]
      exact ((wrote_put p left).trans (hleave _ _ hwrote)).trans (wrote_put ..)

/-- A value of any kind is written, inside the places that are open. -/
theorem exists_writeWithin (h : Heap) (style : Style) (fuel : Nat) (v : Value) (p : Printer) :
    ∃ p', writeWithin h style fuel v p = .ok p' ∧
      Wrote p (h.renderWithin style fuel p.opened v) p' := by
  induction fuel generalizing v p with
  | zero => exact ⟨p, rfl, .refl p⟩
  | succ fuel ih =>
    have hwrite (opened : Trail) (u : Value) (q : Printer) (hq : q.opened = opened) :
        ∃ q', writeWithin h style fuel u q = .ok q' ∧
          Wrote q (h.renderWithin style fuel opened u) q' := hq ▸ ih u q
    rw [writeWithin, Heap.renderWithin, Heap.kind]
    cases h.content v with
    | nil => exact ⟨_, rfl, wrote_write ..⟩
    | bool b => exact ⟨_, rfl, wrote_write ..⟩
    | int n => exact ⟨_, rfl, wrote_write ..⟩
    | float x => exact ⟨_, rfl, wrote_write ..⟩
    | string s => exact ⟨_, rfl, wrote_writeString ..⟩
    | symbol name => exact ⟨_, rfl, wrote_write ..⟩
    | keyword name => exact ⟨_, rfl, (wrote_put ..).trans (wrote_write ..)⟩
    | list cell => exact exists_writeSequence hwrite 40 41 cell p
    | vector cell => exact exists_writeSequence hwrite 91 93 cell p
    | map entries =>
      obtain ⟨q, hq, hwrote⟩ := exists_writeAll (p := p.put 123) [32] (hwrite p.opened)
        (entries.toList.flatMap fun (key, value) => [key, value]) rfl
      exact ⟨q.put 125, congrArg (· >>= _) hq,
        ((wrote_put p 123).trans hwrote).trans (wrote_put q 125)⟩
    | atom cell =>
      cases hopen : p.opened.contains (Place.atom cell).mark with
      | true =>
        exact ⟨p.write (Text.of "(atom ...)"), by simp [Content.kind, enter?_of_open hopen],
          by simpa [hopen] using wrote_write ..⟩
      | false =>
        obtain ⟨inner, hinner, -, hadd, hleave⟩ := exists_enter? hopen
        obtain ⟨q, hq, hwrote⟩ := hwrite _ (h.deref cell) (inner.write (Text.of "(atom ")) hadd
        refine ⟨(q.put 41).leave (.atom cell), ?_, ?_⟩
        · simp only [Content.kind, hinner]
          exact congrArg (· >>= _) hq
        · simpa [hopen] using
            hleave _ _ (((wrote_write inner _).trans hwrote).trans (wrote_put q 41))
    | native id =>
      exact ⟨_, rfl, ((wrote_write ..).trans (wrote_write ..)).trans (wrote_put ..)⟩
    | closure id => exact ⟨_, rfl, wrote_write ..⟩
    | error payload =>
      obtain ⟨q, hq, hwrote⟩ := ih payload (p.write (Text.of "#<error "))
      exact ⟨q.put 62, congrArg (· >>= _) hq, ((wrote_write ..).trans hwrote).trans (wrote_put ..)⟩

end Printer

namespace Heap

variable (h : Heap) (style : Style)

@[simp] theorem print_eq (v : Value) : h.print style v = .ok (h.render style v) := by
  obtain ⟨p, hp, -⟩ := Printer.exists_writeWithin h style h.renderingDepth v {}
  simp [render, print, hp, Except.map]

theorem render_eq (v : Value) : h.render style v = h.renderWithin style h.renderingDepth {} v := by
  obtain ⟨p, hp, hwrote⟩ := Printer.exists_writeWithin h style h.renderingDepth v {}
  simpa [render, print, hp, Except.map] using hwrote.text

theorem exists_printAll (separator : Text) (vs : List Value) :
    ∃ r, h.printAll style separator vs = .ok r ∧
      r.toList = Text.join separator (vs.map (h.render style)) := by
  obtain ⟨p, hp, hwrote⟩ := Printer.exists_writeAll (p := {}) separator
    (fun v p hp => hp ▸ Printer.exists_writeWithin h style h.renderingDepth v p) vs rfl
  refine ⟨p.script.rope, by simp [printAll, hp, Except.map], ?_⟩
  rw [Script.toList_rope, hwrote.text]
  simp [funext (h.render_eq style)]

@[simp] theorem printAll_eq (separator : Text) (vs : List Value) :
    h.printAll style separator vs = .ok (h.renderAll style separator vs) := by
  obtain ⟨r, hr, -⟩ := h.exists_printAll style separator vs
  rw [renderAll, hr]

theorem toList_renderAll (separator : Text) (vs : List Value) :
    (h.renderAll style separator vs).toList = Text.join separator (vs.map (h.render style)) := by
  obtain ⟨r, hr, htext⟩ := h.exists_printAll style separator vs
  rw [renderAll, hr, htext]

end Heap

end Lisp
