import Lisp.Kind
import Lisp.Sequence

/-!
Operations that are not defined everywhere: elements and parts of lists and sequences, division and
the choice by a kind. Whoever calls one has to see to it that it is defined; where it is not, the
interpreter itself is wrong and crashes.
-/
namespace Lisp

/-- What an operation was asked for that it is not defined on. -/
inductive Crash
  | index (index : Int) (length : Nat)
  | part (start stop : Int) (length : Nat)
  | sliceStart (index : Int)
  | sliceStop (index : Int)
  | sliceReversed (start stop : Int)
  | divisor
  | kind (k : Kind)
  deriving DecidableEq

namespace Crash

def inBrackets (start stop : Int) : Text :=
  Text.of "[" ++ Text.ofInt start ++ Text.of ":" ++ Text.ofInt stop ++ Text.of "]"

def message : Crash → Text
  | .index i length =>
    Text.of "index out of range [" ++ Text.ofInt i ++ Text.of "] with length " ++ Text.ofNat length
  | .part i j length =>
    Text.of "slice bounds out of range " ++ inBrackets i j ++ Text.of " with length "
      ++ Text.ofNat length
  | .sliceStart i =>
    Text.of "immutable.List.Slice: start index " ++ Text.ofInt i ++ Text.of " out of bounds"
  | .sliceStop i =>
    Text.of "immutable.List.Slice: end index " ++ Text.ofInt i ++ Text.of " out of bounds"
  | .sliceReversed i j => Text.of "immutable.List.Slice: invalid slice index: " ++ inBrackets i j
  | .divisor => Text.of "integer divide by zero"
  | .kind k => Text.of "unknown Data kind " ++ k.name

end Crash

section Lists

variable {α : Type}

/-- The element at an index. -/
def fetch (xs : List α) (i : Int) : Except Crash α :=
  match if 0 ≤ i then xs[i.toNat]? else none with
  | some x => .ok x
  | none => .error (.index i xs.length)

/-- The elements from index `start` up to, but without, index `stop`. -/
def part (xs : List α) (start stop : Int) : Except Crash (List α) :=
  if 0 ≤ start ∧ start ≤ stop ∧ stop ≤ xs.length then
    .ok ((xs.take stop.toNat).drop start.toNat)
  else .error (.part start stop xs.length)

/-- The elements from an index on. -/
def behind (xs : List α) (start : Int) : Except Crash (List α) := part xs start xs.length

@[simp] theorem fetch_zero (x : α) (xs : List α) : fetch (x :: xs) 0 = .ok x := rfl

@[simp] theorem fetch_one (x y : α) (xs : List α) : fetch (x :: y :: xs) 1 = .ok y := rfl

@[simp] theorem fetch_two (x y z : α) (xs : List α) : fetch (x :: y :: z :: xs) 2 = .ok z := rfl

theorem fetch_ofNat {xs : List α} {i : Nat} {x : α} (h : xs[i]? = some x) :
    fetch xs i = .ok x := by
  simp [fetch, h]

@[simp] theorem fetch_last (xs : List α) (x : α) :
    fetch (xs ++ [x]) ((xs ++ [x]).length - 1 : Int) = .ok x := by
  have hindex : ((xs ++ [x]).length - 1 : Int) = xs.length := by simp
  rw [hindex]
  exact fetch_ofNat (by simp)

theorem behind_ofNat {xs : List α} {n : Nat} (h : n ≤ xs.length) :
    behind xs n = .ok (xs.drop n) := by
  simp [behind, part, h]

@[simp] theorem behind_one (x : α) (xs : List α) : behind (x :: xs) 1 = .ok xs :=
  behind_ofNat (n := 1) (by simp)

@[simp] theorem behind_two (x y : α) (xs : List α) : behind (x :: y :: xs) 2 = .ok xs :=
  behind_ofNat (n := 2) (by simp)

/-- What stands between the first and the last element. -/
@[simp] theorem part_inner (x y : α) (xs : List α) :
    part (x :: (xs ++ [y])) 1 ((x :: (xs ++ [y])).length - 1 : Int) = .ok xs := by
  have hstop : ((x :: (xs ++ [y])).length - 1 : Int) = (xs.length + 1 : Nat) := by
    simp
  rw [hstop, part, if_pos]
  · simp
  · simp only [List.length_cons, List.length_append, List.length_nil]
    omega

/-- What stands before the last element. -/
@[simp] theorem part_leading (xs : List α) (x : α) :
    part (xs ++ [x]) 0 ((xs ++ [x]).length - 1 : Int) = .ok xs := by
  have hstop : ((xs ++ [x]).length - 1 : Int) = xs.length := by simp
  rw [hstop, part, if_pos]
  · simp
  · simp only [List.length_append, List.length_cons, List.length_nil]
    omega

/-- The elements of two lists side by side. That there are as many of both is shown beforehand, so
none is missed. -/
def abreast {β : Type} : (xs : List α) → (ys : List β) → xs.length = ys.length → List (α × β)
  | [], _, _ => []
  | x :: xs, y :: ys, h => (x, y) :: abreast xs ys (Nat.succ.inj h)

theorem abreast_eq_zip {β : Type} (xs : List α) (ys : List β) (h : xs.length = ys.length) :
    abreast xs ys h = xs.zip ys := by
  induction xs generalizing ys with
  | nil => rw [abreast, List.zip_nil_left]
  | cons x xs ih =>
    cases ys with
    | nil => cases h
    | cons y ys => rw [abreast, ih, List.zip_cons_cons]

end Lists

/-- The element of a sequence at an index. -/
def Sequence.fetch {α : Type} (xs : Sequence α) (i : Int) : Except Crash α :=
  match if 0 ≤ i then xs.get? i.toNat else none with
  | some x => .ok x
  | none => .error (.index i xs.size)

/-- The element of a sequence at an index, if there is one. -/
def Sequence.nth {α : Type} (xs : Sequence α) (i : Int) : Except Crash (Option α) :=
  if i < 0 ∨ xs.size ≤ i then .ok none else (xs.fetch i).map some

theorem Sequence.nth_eq {α : Type} (xs : Sequence α) (i : Int) :
    xs.nth i = .ok (if 0 ≤ i then xs.get? i.toNat else none) := by
  unfold nth
  split
  · rename_i hout
    rcases hout with hneg | hbig
    · rw [if_neg (by omega)]
    · rw [get?_eq, List.getElem?_eq_none (by rw [length_toList]; omega), ite_self]
  · rename_i hin
    obtain ⟨x, hx⟩ : ∃ x, xs.get? i.toNat = some x := by
      rw [get?_eq]
      exact ⟨_, List.getElem?_eq_getElem (by rw [length_toList]; omega)⟩
    simp [fetch, show 0 ≤ i by omega, hx, Except.map]

/-- The elements of a sequence from index `start` up to, but without, index `stop`. That the bounds
are looked at in this order, and the words for it, are assumed of the lists of the host, which come
with a library. -/
def slice {α : Type} (xs : Sequence α) (start stop : Int) : Except Crash (Sequence α) :=
  if start < 0 ∨ xs.size < start then .error (.sliceStart start)
  else if stop < 0 ∨ xs.size < stop then .error (.sliceStop stop)
  else if stop < start then .error (.sliceReversed start stop)
  else .ok ((xs.take stop.toNat).drop start.toNat)

theorem slice_of_le {α : Type} (xs : Sequence α) {start stop : Nat} (hle : start ≤ stop)
    (hsize : stop ≤ xs.size) : slice xs start stop = .ok ((xs.take stop).drop start) := by
  unfold slice
  rw [if_neg (by omega), if_neg (by omega), if_neg (by omega)]
  simp

/-- The quotient rounded toward zero. -/
def divide (x y : Int64) : Except Crash Int64 := if y = 0 then .error .divisor else .ok (x / y)

/-- The remainder with the sign of the dividend. -/
def remainder (x y : Int64) : Except Crash Int64 := if y = 0 then .error .divisor else .ok (x % y)

theorem divide_of_ne {x y : Int64} (h : y ≠ 0) : divide x y = .ok (x / y) := if_neg h

theorem remainder_of_ne {x y : Int64} (h : y ≠ 0) : remainder x y = .ok (x % y) := if_neg h

end Lisp
