import Lisp.Bounds
import Lisp.Number.Decimal

/-!
Number literals. A word that starts like a number is tried as an integer and then as a double; one
that is neither is no number at all. An integer is scanned from the left and found too large as soon
as the digits so far exceed 64 bits, whatever comes after them.
-/
namespace Lisp.Number

inductive Sign
  | plus
  | minus
  deriving DecidableEq

/-- An optional sign and what follows it. -/
def takeSign : Text → Sign × Text
  | 43 :: rest => (.plus, rest)
  | 45 :: rest => (.minus, rest)
  | t => (.plus, t)

/-- A digit at the start, or after a sign, a point, or both. -/
def looksNumeric (word : Text) : Bool :=
  let unsigned := (takeSign word).2
  let digits := if unsigned.head? = some 46 then unsigned.tail else unsigned
  digits.head?.any Text.isDigit

/-- Whether there is a byte of a class at an index. -/
def hasAt (word : Text) (i : Nat) (p : UInt8 → Bool) : Except Crash Bool := do
  if i < word.length then return p (← fetch word i) else return false

/-- Whether a word looks numeric, byte by byte. -/
def startsNumeral (word : Text) : Except Crash Bool := do
  let first ← fetch word 0
  let start := if first = 43 ∨ first = 45 then 1 else 0
  let start := if ← hasAt word start (· = 46) then start + 1 else start
  hasAt word start Text.isDigit

theorem hasAt_eq (word : Text) (i : Nat) (p : UInt8 → Bool) :
    hasAt word i p = .ok ((word.drop i).head?.any p) := by
  rw [hasAt, List.head?_drop]
  split
  · rename_i hi
    have hget := List.getElem?_eq_getElem hi
    rw [fetch_ofNat hget, hget]
    rfl
  · rename_i hi
    rw [List.getElem?_eq_none (by omega)]
    rfl

theorem takeSign_cons (first : UInt8) (rest : Text) :
    (takeSign (first :: rest)).2 =
      (first :: rest).drop (if first = 43 ∨ first = 45 then 1 else 0) := by
  by_cases hplus : first = 43
  · simp [hplus, takeSign]
  · by_cases hminus : first = 45
    · simp [hminus, takeSign]
    · rw [if_neg (by simp [hplus, hminus]), takeSign]
      · rfl
      all_goals grind

theorem startsNumeral_cons (first : UInt8) (rest : Text) :
    startsNumeral (first :: rest) = .ok (looksNumeric (first :: rest)) := by
  rw [startsNumeral, fetch_zero, looksNumeric, takeSign_cons]
  change hasAt _ _ _ >>= _ = _
  rw [hasAt_eq]
  change hasAt _ _ _ = _
  rw [hasAt_eq]
  generalize (if first = 43 ∨ first = 45 then 1 else 0) = start
  cases hpoint : ((first :: rest).drop start).head? with
  | none => simp [hpoint]
  | some b => by_cases hb : b = 46 <;> simp [hb, hpoint, List.tail_drop]

/-- What scanning for an integer ends with. -/
inductive Scan (α : Type)
  | value (a : α)
  | tooLarge
  | notOne
  deriving DecidableEq

def scanDigits : Nat → Text → Scan Nat
  | n, [] => .value n
  | n, b :: rest =>
    if !Text.isDigit b then .notOne
    else
      let n := n * 10 + Text.digitValue b
      if 2 * signBit ≤ n then .tooLarge else scanDigits n rest

/-- A decimal integer of 64 bits with an optional sign. -/
def scanInteger (word : Text) : Scan Int64 :=
  match takeSign word with
  | (sign, digits) =>
    match scanDigits 0 digits with
    | .value n =>
      match sign with
      | .plus => if n < signBit then .value (Int64.ofNat n) else .tooLarge
      | .minus => if n ≤ signBit then .value (-Int64.ofNat n) else .tooLarge
    | .tooLarge => .tooLarge
    | .notOne => .notOne

/-- What may stand before an underscore. -/
inductive Previous
  | digit
  | underscore
  | other
  deriving DecidableEq

def lower (b : UInt8) : UInt8 := if 65 ≤ b && b ≤ 90 then b + 32 else b

def isHexLetter (b : UInt8) : Bool := 97 ≤ lower b && lower b ≤ 102

def underscoresFollow (hexadecimal : Bool) : Previous → Text → Bool
  | previous, [] => previous != .underscore
  | previous, b :: rest =>
    if Text.isDigit b || (hexadecimal && isHexLetter b) then
      underscoresFollow hexadecimal .digit rest
    else if b == 95 then previous == .digit && underscoresFollow hexadecimal .underscore rest
    else previous != .underscore && underscoresFollow hexadecimal .other rest

/-- Every underscore stands between digits, the base in front counting as one. -/
def underscoresSeparate (word : Text) : Bool :=
  match (takeSign word).2 with
  | 48 :: b :: rest =>
    if lower b == 120 then underscoresFollow true .digit rest
    else if lower b == 98 || lower b == 111 then underscoresFollow false .digit rest
    else underscoresFollow false .digit (b :: rest)
  | t => underscoresFollow false .other t

/-- Pairs of digits taken together, the least digit first. -/
def pairDigits (base : Nat) : List Nat → List Nat
  | a :: b :: rest => (a + base * b) :: pairDigits base rest
  | rest => rest

/-- The number with the given digits, the least one first. Before the digits are added up, `rounds`
times they are taken together in pairs, which are the digits for the square of the base. -/
def ofDigits (base : Nat) : (rounds : Nat) → List Nat → Nat
  | 0, digits => digits.foldr (fun d n => d + base * n) 0
  | rounds + 1, digits => ofDigits (base * base) rounds (pairDigits base digits)

theorem foldr_pairDigits (base : Nat) (digits : List Nat) :
    (pairDigits base digits).foldr (fun d n => d + base * base * n) 0 =
      digits.foldr (fun d n => d + base * n) 0 := by
  induction digits using pairDigits.induct with
  | case1 a b rest ih =>
    simp only [pairDigits, List.foldr_cons, ih]
    rw [Nat.mul_add, ← Nat.mul_assoc, Nat.add_assoc]
  | case2 rest h =>
    cases rest with
    | nil => rfl
    | cons a rest =>
      cases rest with
      | nil => rfl
      | cons b rest => exact absurd rfl (h a b rest)

/-- The rounds do not change the number. -/
theorem ofDigits_eq (base rounds : Nat) (digits : List Nat) :
    ofDigits base rounds digits = digits.foldr (fun d n => d + base * n) 0 := by
  induction rounds generalizing base digits with
  | zero => rfl
  | succ rounds ih => rw [ofDigits, ih, foldr_pairDigits]

def digitIn? (base : Nat) (b : UInt8) : Option Nat :=
  if Text.isDigit b then some (Text.digitValue b)
  else if base = 16 && isHexLetter b then some ((lower b).toNat - 87)
  else none

/-- The digits of a number in some base, in front of the point and behind it, and what follows them.
-/
structure Mantissa where
  whole : List Nat
  fraction : List Nat
  rest : Text
  deriving DecidableEq

namespace Mantissa

/-- The digits at the front of a text. -/
def takeDigits (base : Nat) (t : Text) : List Nat × Text :=
  let (digits, rest) := t.span fun b => (digitIn? base b).isSome
  (digits.filterMap (digitIn? base), rest)

def take (base : Nat) (t : Text) : Mantissa :=
  match takeDigits base t with
  | (whole, 46 :: t) =>
    let (fraction, rest) := takeDigits base t
    ⟨whole, fraction, rest⟩
  | (whole, rest) => ⟨whole, [], rest⟩

def digits (m : Mantissa) : List Nat := m.whole ++ m.fraction

/-- The number that the digits make without the point. -/
def value (base : Nat) (m : Mantissa) : Nat :=
  ofDigits base (m.digits.length.log2 + 1) m.digits.reverse

/-- The number of digits without zeros at the start. -/
def size (m : Mantissa) : Nat := (m.digits.dropWhile (· == 0)).length

end Mantissa

/-- The value of exponent digits; it stops growing once it has five of them. -/
def exponentValue (digits : Text) : Nat :=
  digits.foldl (fun e b => if e < 10000 then e * 10 + Text.digitValue b else e) 0

/-- An exponent that fills the rest of the word. -/
def wholeExponent? (t : Text) : Option Int :=
  match takeSign t with
  | (sign, digits) =>
    if digits = [] || !digits.all Text.isDigit then none
    else
      match sign with
      | .plus => some (exponentValue digits)
      | .minus => some (-(exponentValue digits : Int))

/-- How many digits of a decimal literal are looked at first. -/
def leadingDigits : Nat := 19

/-- How many digits in front of the point can move it when the leading ones do not settle the
double. -/
def wholeDigits : Nat := 800

/-- The code of the double that decimal digits and an exponent stand for. It is the nearest double,
unless the leading digits do not settle that one and there are surplus digits in front of the point,
which then count as if they stood behind it. -/
def Mantissa.decimalCode (m : Mantissa) (exponent : Int) : Nat :=
  let places := m.fraction.length
  let surplus := m.size - places - wholeDigits
  let d : Decimal := ⟨m.value 10, exponent - Int.ofNat places⟩
  if surplus = 0 then d.code
  else if d.isSettledWithout (m.size - leadingDigits) then d.code
  else Decimal.code ⟨d.coefficient, d.exponent - Int.ofNat surplus⟩

/-- The code of the double that an unsigned decimal literal stands for. -/
def decimalCode? (t : Text) : Option Nat :=
  let m := Mantissa.take 10 t
  if m.digits = [] then none
  else
    match m.rest with
    | [] => some (m.decimalCode 0)
    | b :: t => if lower b == 101 then (wholeExponent? t).map m.decimalCode else none

/-- The code of the double that an unsigned hexadecimal literal stands for, its base left out. The
binary exponent is required. -/
def hexadecimalCode? (t : Text) : Option Nat :=
  let m := Mantissa.take 16 t
  if m.digits = [] then none
  else
    match m.rest with
    | [] => none
    | b :: t =>
      if lower b == 112 then
        (wholeExponent? t).map fun e =>
          let (n, d) := scaled 2 (m.value 16) 1 (e - 4 * Int.ofNat m.fraction.length)
          nearestCode n d
      else none

def unsignedCode? : Text → Option Nat
  | 48 :: x :: b :: rest =>
    if lower x == 120 then hexadecimalCode? (b :: rest) else decimalCode? (48 :: x :: b :: rest)
  | t => decimalCode? t

/-- A decimal or hexadecimal double with an optional sign. -/
def scanDouble (word : Text) : Scan Float :=
  if word.contains 95 && !underscoresSeparate word then .notOne
  else
    match takeSign (word.filter (· != 95)) with
    | (sign, unsigned) =>
      match unsignedCode? unsigned with
      | none => .notOne
      | some code =>
        if infinityCode ≤ code then .tooLarge
        else
          match sign with
          | .plus => .value (Float.ofBits code.toUInt64)
          | .minus => .value (Float.ofBits (code + signBit).toUInt64)

end Lisp.Number
