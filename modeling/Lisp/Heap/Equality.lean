import Lisp.Datum.Basic
import Lisp.Heap.Basic
import Lisp.Number.Written

/-!
Structural equality, the entries of hash maps, and the values that are made of data. Two sequences
that are met again while their comparison is open loop back to the same place on both sides, so the
pair holds. Keys are compared afresh. Metadata does not count; atoms and functions are equal by
identity.
-/
namespace Lisp.Heap

/-- What the comparison of two values comes down to. -/
inductive Comparison
  | equal
  | different
  | sequences (c d : CellId)
  | maps (m n : Entries)
  | payloads (p q : Value)

@[inline] def Comparison.ofBool (b : Bool) : Comparison := if b then .equal else .different

def comparison (h : Heap) (a b : Value) : Comparison :=
  if a == b then .equal
  else
    match h.content a, h.content b with
    | .nil, .nil => .equal
    | .bool p, .bool q => .ofBool (p == q)
    | .int m, .int n => .ofBool (m == n)
    | .float x, .float y => .ofBool (Number.same x y)
    | .string s, .string t => .ofBool (s.same t)
    | .symbol s, .symbol t => .ofBool (Text.same s t)
    | .keyword s, .keyword t => .ofBool (Text.same s t)
    | .list c, .list d => .sequences c d
    | .vector c, .vector d => .sequences c d
    | .map m, .map n => .maps m n
    | .atom p, .atom q => .ofBool (p == q)
    | .native p, .native q => .ofBool (p == q)
    | .closure p, .closure q => .ofBool (p == q)
    | .error p, .error q => .payloads p q
    | _, _ => .different

theorem length_items (h : Heap) (c : CellId) : (h.items c).length = (h.sequence c).size :=
  Sequence.length_toList _

/-- One level of a comparison inside pairs of cells that are open, with what it calls for left to
`inner`. Parts are compared in order, and no further than to the first that differ. -/
def equalStep? (h : Heap) (inner : Trail → Value → Value → Option Bool) (opened : Trail)
    (a b : Value) : Option Bool :=
  match h.comparison a b with
  | .equal => some true
  | .different => some false
  | .sequences c d =>
    if opened.contains (c, d) then some true
    else if hsize : (h.sequence c).size = (h.sequence d).size then
      (abreast (h.items c) (h.items d) (by rw [length_items, length_items, hsize])).allM
        fun (x, y) => inner (opened.add (c, d)) x y
    else some false
  | .maps m n =>
    if m.size == n.size then
      let others := n.toList
      m.toList.allM fun (key, value) => do
        match ← others.findM? fun entry => inner {} entry.1 key with
        | some entry => inner opened value entry.2
        | none => some false
    else some false
  | .payloads p q => inner opened p q

theorem equalStep?_eq (h : Heap) (inner : Trail → Value → Value → Option Bool) (opened : Trail)
    (a b : Value) :
    h.equalStep? inner opened a b =
      match h.comparison a b with
      | .equal => some true
      | .different => some false
      | .sequences c d =>
        if opened.contains (c, d) then some true
        else if (h.sequence c).size == (h.sequence d).size then
          ((h.items c).zip (h.items d)).allM fun (x, y) => inner (opened.add (c, d)) x y
        else some false
      | .maps m n =>
        if m.size == n.size then
          let others := n.toList
          m.toList.allM fun (key, value) => do
            match ← others.findM? fun entry => inner {} entry.1 key with
            | some entry => inner opened value entry.2
            | none => some false
        else some false
      | .payloads p q => inner opened p q := by
  simp only [equalStep?, abreast_eq_zip, beq_iff_eq, dite_eq_ite]

/-- The answer of a comparison, or nothing when it goes deeper than the fuel. -/
def equalWithin? (h : Heap) : (fuel : Nat) → (opened : Trail) → Value → Value → Option Bool
  | 0 => fun _ _ _ => none
  | fuel + 1 => h.equalStep? (equalWithin? h fuel)

/-- Deep enough for every comparison that ends: between two openings of a pair of cells the objects
get older, and the comparison of two keys that ends does not call for itself. -/
def equalityDepth (h : Heap) : Nat :=
  (h.cells.size * h.cells.size + 1) * (h.objects.size + 2) *
    (h.objects.size * h.objects.size + 1)

/-- Equality inside the comparison of pairs of cells. A comparison that would not end finds nothing
equal; only a map that is reached from one of its own keys has such comparisons. -/
def equalInside (h : Heap) (opened : Trail) (a b : Value) : Bool :=
  (h.equalWithin? h.equalityDepth opened a b).getD false

def equal (h : Heap) (a b : Value) : Bool :=
  match h.comparison a b with
  | .equal => true
  | .different => false
  | _ => h.equalInside {} a b

theorem equal_eq (h : Heap) (a b : Value) : h.equal a b = h.equalInside {} a b := by
  have hpos : 0 < h.equalityDepth := by simp [equalityDepth]
  obtain ⟨fuel, hfuel⟩ := Nat.exists_eq_succ_of_ne_zero (Nat.ne_of_gt hpos)
  unfold equal
  split
  · rename_i hc
    rw [equalInside, hfuel, equalWithin?, equalStep?, hc]
    rfl
  · rename_i hc
    rw [equalInside, hfuel, equalWithin?, equalStep?, hc]
    rfl
  · rfl

/-- The first entry with an equal key. -/
def entry? (h : Heap) (entries : Entries) (key : Value) : Option (Value × Value) :=
  entries.find? fun entry => h.equal entry.1 key

def get? (h : Heap) (entries : Entries) (key : Value) : Option Value :=
  (h.entry? entries key).map (·.2)

/-- Equality of two maps by their entries alone. -/
def equalEntries (h : Heap) (m n : Entries) : Bool :=
  m.size == n.size &&
    m.all fun (key, value) =>
      match h.get? n key with
      | some other => h.equal value other
      | none => false

/-- Replaces the value of the first entry with an equal key, or adds an entry at the end. -/
def put (h : Heap) (entries : Entries) (key value : Value) : Entries :=
  match entries.findIndex? fun entry => h.equal entry.1 key with
  | some i => entries.modify i fun entry => (entry.1, value)
  | none => entries.append [(key, value)]

theorem toList_put (h : Heap) (entries : Entries) (key value : Value) :
    (h.put entries key value).toList =
      match entries.toList.findIdx? fun entry => h.equal entry.1 key with
      | some i => entries.toList.modify i fun entry => (entry.1, value)
      | none => entries.toList ++ [(key, value)] := by
  rw [put, Sequence.findIdx?_toList]
  split <;> simp

/-- Puts keys and values in turn; a key without a value at the end is left out. -/
def assoc (h : Heap) (entries : Entries) : List Value → Entries
  | key :: value :: more => assoc h (h.put entries key value) more
  | _ => entries

def entriesOf (h : Heap) (alternating : List Value) : Entries := h.assoc .empty alternating

/-- Without the entries whose key equals one of `keys`. -/
def dissoc (h : Heap) (entries : Entries) (keys : List Value) : Entries :=
  .ofList (entries.toList.filter fun entry => !keys.any fun key => h.equal entry.1 key)

theorem toList_dissoc (h : Heap) (entries : Entries) (keys : List Value) :
    (h.dissoc entries keys).toList =
      entries.toList.filter fun entry => !keys.any fun key => h.equal entry.1 key :=
  Sequence.toList_ofList _

/-! Every part of a datum becomes an object of its own, constants and symbols apart. -/

mutual

def build (h : Heap) : Datum → Value × Heap
  | .nil => (.nil, h)
  | .bool b => (.bool b, h)
  | .int n => h.make (.int n)
  | .float x => h.make (.float x)
  | .string s => h.makeString s
  | .symbol name => (.symbol name, h)
  | .keyword name => h.make (.keyword name)
  | .group b items =>
    let (values, h) := buildAll h items
    match b with
    | .round => h.makeList values
    | .square => h.makeVector values
    | .curly => h.make (.map (h.entriesOf values))

def buildAll (h : Heap) : List Datum → List Value × Heap
  | [] => ([], h)
  | d :: rest =>
    let (value, h) := build h d
    let (values, h) := buildAll h rest
    (value :: values, h)

end

end Lisp.Heap
