import Lisp.Native
import Lisp.Text.Rope
import Std.Data.ExtTreeSet

/-!
Values and the heap that holds them. A value is one of the shared constants and symbols, which are
the same wherever they appear, or the address of an object. Objects never change once made; what
changes is the sequence cell behind a list and the cell behind an atom. Addresses that were never
handed out read as nil, so that every reading is total.
-/
namespace Lisp

/-- Two values are identical when they are equal as values here. -/
inductive Value
  | nil
  | bool (b : Bool)
  | symbol (name : Text)
  | object (address : Nat)
  deriving DecidableEq, Inhabited

/-- The entries of a hash map, in the order in which their keys were put. -/
abbrev Entries := Sequence (Value × Value)

abbrev CellId := Nat

abbrev AtomId := Nat

abbrev ClosureId := Nat

abbrev NativeId := Nat

abbrev FrameId := Nat

/-- What an object is. Constants and symbols appear here as well, for their copies with metadata. -/
inductive Content
  | nil
  | bool (b : Bool)
  | int (n : Int64)
  | float (x : Float)
  | string (s : Rope)
  | symbol (name : Text)
  | keyword (name : Text)
  | list (cell : CellId)
  | vector (cell : CellId)
  | map (entries : Entries)
  | atom (cell : AtomId)
  | native (id : NativeId)
  | closure (id : ClosureId)
  | error (payload : Value)
  deriving DecidableEq

def Content.kind : Content → Kind
  | .nil => .nil
  | .bool _ => .boolean
  | .int _ => .integer
  | .float _ => .float
  | .string _ => .string
  | .symbol _ => .symbol
  | .keyword _ => .keyword
  | .list _ => .list
  | .vector _ => .vector
  | .map _ => .hashMap
  | .atom _ => .atom
  | .native _ | .closure _ => .function
  | .error _ => .error

structure Object where
  content : Content
  metadata : Option Value := none
  deriving DecidableEq

/-- A function of the language. Surplus arguments go to the parameter `tail` if there is one. -/
structure Closure where
  scope : FrameId
  params : List Text
  tail : Option Text
  body : Value
  isMacro : Bool := false
  deriving DecidableEq

structure Heap where
  objects : Array Object := #[]
  cells : Array (Sequence Value) := #[]
  atoms : Array Value := #[]
  closures : Array Closure := #[]
  natives : Array Native := #[]
  deriving DecidableEq

namespace Heap

@[inline] def object (h : Heap) : Value → Object
  | .nil => { content := .nil }
  | .bool b => { content := .bool b }
  | .symbol name => { content := .symbol name }
  | .object address => h.objects.getD address { content := .nil }

@[inline] def content (h : Heap) (v : Value) : Content := (h.object v).content

def metadata? (h : Heap) (v : Value) : Option Value := (h.object v).metadata

@[inline] def kind (h : Heap) (v : Value) : Kind := (h.content v).kind

/-- The sequence in a cell. -/
@[inline] def sequence (h : Heap) (cell : CellId) : Sequence Value := h.cells.getD cell .empty

/-- The elements in a sequence cell. -/
@[inline] def items (h : Heap) (cell : CellId) : List Value := (h.sequence cell).toList

/-- The sequence behind a list or a vector. -/
def sequence? (h : Heap) (v : Value) : Option (Sequence Value) :=
  match h.content v with
  | .list cell | .vector cell => some (h.sequence cell)
  | _ => none

/-- The elements of a list or a vector. -/
def elements? (h : Heap) (v : Value) : Option (List Value) := (h.sequence? v).map (·.toList)

@[inline] def symbol? (h : Heap) (v : Value) : Option Text :=
  match h.content v with
  | .symbol name => some name
  | _ => none

def isSymbol (h : Heap) (v : Value) (name : Text) : Bool := h.symbol? v == some name

/-- Only nil and false are not truthy. -/
@[inline] def isTruthy (h : Heap) (v : Value) : Bool :=
  match h.content v with
  | .nil | .bool false => false
  | _ => true

@[inline] def closure (h : Heap) (id : ClosureId) : Closure :=
  h.closures.getD id ⟨0, [], none, .nil, false⟩

@[inline] def native (h : Heap) (id : NativeId) : Native := h.natives.getD id (.inert [])

def isMacro (h : Heap) (v : Value) : Bool :=
  match h.content v with
  | .closure id => (h.closure id).isMacro
  | _ => false

/-- What an atom holds. -/
def deref (h : Heap) (atom : AtomId) : Value := h.atoms.getD atom .nil

/-- A new object. -/
@[inline] def alloc (h : Heap) (o : Object) : Value × Heap :=
  (.object h.objects.size, { h with objects := h.objects.push o })

@[inline] def make (h : Heap) (c : Content) : Value × Heap := h.alloc { content := c }

/-- A new object over a new cell; `shape` says whether it is a list or a vector. -/
def makeSequence (h : Heap) (shape : CellId → Content) (items : Sequence Value)
    (metadata : Option Value) : Value × Heap :=
  let cell := h.cells.size
  { h with cells := h.cells.push items }.alloc ⟨shape cell, metadata⟩

def makeString (h : Heap) (s : Text) : Value × Heap := h.make (.string (.ofList s))

def makeList (h : Heap) (items : List Value) : Value × Heap :=
  h.makeSequence .list (.ofList items) none

def makeVector (h : Heap) (items : List Value) : Value × Heap :=
  h.makeSequence .vector (.ofList items) none

def makeAtom (h : Heap) (v : Value) : Value × Heap :=
  let cell := h.atoms.size
  { h with atoms := h.atoms.push v }.make (.atom cell)

def makeClosure (h : Heap) (c : Closure) (metadata : Option Value) : Value × Heap :=
  let id := h.closures.size
  { h with closures := h.closures.push c }.alloc ⟨.closure id, metadata⟩

def makeNative (h : Heap) (n : Native) : Value × Heap :=
  let id := h.natives.size
  { h with natives := h.natives.push n }.make (.native id)

/-- Adds elements at the end of a sequence cell, for every holder to see. -/
def append (h : Heap) (cell : CellId) (vs : List Value) : Heap :=
  { h with cells := h.cells.modify cell (·.append vs) }

def reset (h : Heap) (atom : AtomId) (v : Value) : Heap :=
  { h with atoms := h.atoms.setIfInBounds atom v }

/-- A copy with metadata. The copy of a list or vector has a cell of its own; an atom or function
keeps its identity. -/
def withMetadata (h : Heap) (v metadata : Value) : Value × Heap :=
  match h.content v with
  | .list cell => h.makeSequence .list (h.sequence cell) (some metadata)
  | .vector cell => h.makeSequence .vector (h.sequence cell) (some metadata)
  | content => h.alloc ⟨content, some metadata⟩

end Heap

/-- What a walk through the heap is inside of, as a set of pairs of numbers. -/
structure Trail where
  marks : Std.ExtTreeSet (Nat × Nat) (compareLex (compareOn (·.1)) (compareOn (·.2))) := {}

namespace Trail

def contains (t : Trail) (mark : Nat × Nat) : Bool := t.marks.contains mark

def add (t : Trail) (mark : Nat × Nat) : Trail := ⟨t.marks.insert mark⟩

def remove (t : Trail) (mark : Nat × Nat) : Trail := ⟨t.marks.erase mark⟩

theorem eq_of_compare {mark other : Nat × Nat}
    (h : compareLex (compareOn (·.1)) (compareOn (·.2)) mark other = .eq) : mark = other := by
  simpa [compareLex, compareOn, Prod.ext_iff] using h

instance : Std.LawfulEqCmp (α := Nat × Nat) (compareLex (compareOn (·.1)) (compareOn (·.2))) where
  eq_of_compare := eq_of_compare

@[simp] theorem contains_empty (mark : Nat × Nat) : ({} : Trail).contains mark = false := by
  simp [contains]

theorem compare_beq_eq (mark other : Nat × Nat) :
    (compareLex (compareOn (·.1)) (compareOn (·.2)) mark other == .eq) = (mark == other) := by
  rw [Bool.eq_iff_iff, beq_iff_eq, beq_iff_eq, Std.LawfulEqCmp.compare_eq_iff_eq]

@[simp] theorem contains_add (t : Trail) (mark other : Nat × Nat) :
    (t.add mark).contains other = (mark == other || t.contains other) := by
  rw [← compare_beq_eq]
  exact Std.ExtTreeSet.contains_insert

@[simp] theorem contains_remove (t : Trail) (mark other : Nat × Nat) :
    (t.remove mark).contains other = (mark != other && t.contains other) := by
  rw [bne, ← compare_beq_eq]
  exact Std.ExtTreeSet.contains_erase

/-- To leave what was entered is to be where one was. -/
theorem remove_add {t : Trail} {mark : Nat × Nat} (h : t.contains mark = false) :
    (t.add mark).remove mark = t := by
  refine congrArg Trail.mk (Std.ExtTreeSet.ext_contains fun other => ?_)
  change ((t.add mark).remove mark).contains other = t.contains other
  rw [contains_remove, contains_add, bne]
  cases heq : mark == other with
  | true => rw [← eq_of_beq heq, h]; rfl
  | false => rfl

end Trail

end Lisp
