import Lisp.Operation.Reply

/-!
Numbers. Integers have 64 bits and wrap around; one double among the arguments makes the whole
computation one on doubles.
-/
namespace Lisp

inductive Numeral
  | int (n : Int64)
  | float (x : Float)
  deriving DecidableEq

namespace Numeral

def ofValue? (h : Heap) (v : Value) : Option Numeral :=
  match h.content v with
  | .int n => some (.int n)
  | .float x => some (.float x)
  | _ => none

def toFloat : Numeral → Float
  | .int n => n.toFloat
  | .float x => x

/-- The integers of a list without doubles. -/
def integers? : List Numeral → Option (List Int64)
  | [] => some []
  | .int n :: rest => (integers? rest).map (n :: ·)
  | .float _ :: _ => none

/-- Doubles that do not compare, such as NaN with anything, count as equal here. -/
def order (x y : Numeral) : Ordering :=
  match x, y with
  | .int m, .int n => if m < n then .lt else if n < m then .gt else .eq
  | _, _ =>
    if x.toFloat < y.toFloat then .lt else if y.toFloat < x.toFloat then .gt else .eq

end Numeral

namespace Comparison

def holds : Comparison → Ordering → Bool
  | .less, o => o == .lt
  | .atMost, o => o != .gt
  | .greater, o => o == .gt
  | .atLeast, o => o != .lt

end Comparison

namespace Arithmetic

/-- Why a step on integers gives no integer. -/
inductive Break
  | byZero
  | crash (c : Crash)

/-- The quotient rounded toward zero. -/
def quotient (x y : Int64) : Except Break Int64 :=
  if y = 0 then .error .byZero else (divide x y).mapError .crash

/-- The remainder with the sign of the divisor. -/
def modulus (x y : Int64) : Except Break Int64 :=
  if y = 0 then .error .byZero
  else do
    let r ← (remainder x y).mapError .crash
    return if r ≠ 0 ∧ (decide (r < 0) != decide (y < 0)) then r + y else r

theorem quotient_of_ne {x y : Int64} (h : y ≠ 0) : quotient x y = .ok (x / y) := by
  rw [quotient, if_neg h, divide_of_ne h]
  rfl

theorem modulus_of_ne {x y : Int64} (h : y ≠ 0) :
    modulus x y = .ok (let r := x % y
      if r ≠ 0 ∧ (decide (r < 0) != decide (y < 0)) then r + y else r) := by
  rw [modulus, if_neg h, remainder_of_ne h]
  rfl

def divisionByZero : Reply := .raiseText (Text.of "division by zero")

/-- The reply with what integers come to. -/
def settle : Except Break Int64 → Reply
  | .ok n => .make (.int n)
  | .error .byZero => divisionByZero
  | .error (.crash c) => .crash c

/-- All arguments as numbers. -/
def numerals (name : Text) (h : Heap) (args : List Value) : Except Fault (List Numeral) :=
  args.mapM fun v =>
    match Numeral.ofValue? h v with
    | some n => .ok n
    | none => Answer.refuse name h "numbers" v

/-- Combines numbers from the left. -/
def combine (int : Int64 → Int64 → Except Break Int64) (float : Float → Float → Float)
    (first : Numeral) (more : List Numeral) : Reply :=
  match Numeral.integers? (first :: more) with
  | some (n :: rest) => settle (rest.foldlM int n)
  | _ => .make (.float (more.foldl (fun x y => float x y.toFloat) first.toFloat))

/-- Combines numbers, of which there is at least one. -/
def fold (int : Int64 → Int64 → Except Break Int64) (float : Float → Float → Float)
    (numbers : List Numeral) : Answer :=
  Answer.check (fetch numbers 0) fun first =>
    Answer.check (behind numbers 1) fun more => .ok (combine int float first more)

/-- A sum or product: without arguments it is `empty`. -/
def total (name : Text) (h : Heap) (empty : Int64) (int : Int64 → Int64 → Int64)
    (float : Float → Float → Float) (args : List Value) : Answer :=
  if args.length = 0 then .ok (.make (.int empty))
  else do fold (fun x y => .ok (int x y)) float (← numerals name h args)

/-- A difference or quotient: a single argument is combined with `unit` in front of it. -/
def difference (name : Text) (h : Heap) (unit : Int64) (int : Int64 → Int64 → Except Break Int64)
    (float : Float → Float → Float) (args : List Value) : Answer :=
  if args.length < 1 then .error (.argumentsAtLeast name 1 args.length)
  else do
    let numbers ← numerals name h args
    if args.length = 1 then
      Answer.check (fetch numbers 0) fun only => fold int float [.int unit, only]
    else fold int float numbers

theorem length_numerals {name : Text} {h : Heap} {args : List Value} {numbers : List Numeral}
    (hnumbers : numerals name h args = .ok numbers) : numbers.length = args.length := by
  induction args generalizing numbers with
  | nil =>
    cases hnumbers
    rfl
  | cons v rest ih =>
    rw [numerals, List.mapM_cons] at hnumbers
    cases hv : Numeral.ofValue? h v with
    | none => simp [hv, Answer.refuse, bind, Except.bind] at hnumbers
    | some n =>
      cases hrest : numerals name h rest with
      | error e =>
        rw [numerals] at hrest
        simp [hv, hrest, bind, Except.bind] at hnumbers
      | ok more =>
        have hlength := ih hrest
        rw [numerals] at hrest
        simp only [hv, hrest, bind, Except.bind, pure, Except.pure, Except.ok.injEq] at hnumbers
        rw [← hnumbers, List.length_cons, hlength, List.length_cons]

section Folding

variable (name : Text) (h : Heap) (unit : Int64) (float : Float → Float → Float) (args : List Value)

theorem total_eq (int : Int64 → Int64 → Int64) :
    total name h unit int float args = do
      match ← numerals name h args with
      | [] => return .make (.int unit)
      | first :: more => return combine (fun x y => .ok (int x y)) float first more := by
  cases args with
  | nil => rfl
  | cons v rest =>
    rw [total, if_neg (by simp)]
    cases hnumbers : numerals name h (v :: rest) with
    | error e => rfl
    | ok numbers =>
      cases numbers with
      | nil => simpa using length_numerals hnumbers
      | cons first more => simp [bind, Except.bind, fold, pure, Except.pure]

theorem difference_eq (int : Int64 → Int64 → Except Break Int64) :
    difference name h unit int float args = do
      match ← numerals name h args with
      | [] => .error (.argumentsAtLeast name 1 0)
      | [only] => return combine int float (.int unit) [only]
      | first :: more => return combine int float first more := by
  cases args with
  | nil => rfl
  | cons v rest =>
    rw [difference, if_neg (by simp)]
    cases hnumbers : numerals name h (v :: rest) with
    | error e => rfl
    | ok numbers =>
      have hlength := length_numerals hnumbers
      rcases numbers with _ | ⟨first, _ | ⟨second, more⟩⟩
      · simp at hlength
      · simp [bind, Except.bind, fold, pure, Except.pure, ← hlength]
      · simp [bind, Except.bind, fold, pure, Except.pure, ← hlength]

end Folding

def modulo (name : Text) (h : Heap) (x y : Value) : Answer :=
  match h.content x, h.content y with
  | .int m, .int n => .ok (settle (modulus m n))
  | .int _, _ => Answer.refuse name h "integers" y
  | _, _ => Answer.refuse name h "integers" x

/-- Whether a relation holds between all neighbours. -/
def chain {α : Type} (holds : α → α → Bool) : List α → Bool
  | x :: y :: rest => holds x y && chain holds (y :: rest)
  | _ => true

def comparison (name : Text) (h : Heap) (c : Comparison) (args : List Value) : Answer :=
  Answer.variadic name args fun _ _ => do
    let numbers ← numerals name h args
    return .ofBool (chain (fun x y => c.holds (x.order y)) numbers)

end Arithmetic

end Lisp
