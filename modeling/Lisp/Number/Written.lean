import Lisp.Number.Decimal
import Lisp.Text.Basic

/-!
The text of a double: digits with a point where the exponent is moderate, else one digit before the
point and a marked exponent of at least two digits. The sign of zero is kept.
-/
namespace Lisp.Number

/-- Digits without zeros at the end, and the place of the point: the number 0.d₁d₂… · 10 ^ point.
Zero has no digits. -/
structure Digits where
  digits : Text
  point : Int
  deriving DecidableEq

namespace Digits

def ofDecimal (d : Decimal) : Digits :=
  let all := Text.ofNat d.coefficient
  ⟨(all.reverse.dropWhile (· == 48)).reverse, Int.ofNat all.length + d.exponent⟩

def ofCode (code : Nat) : Digits := if code = 0 then ⟨[], 0⟩ else ofDecimal (.shortest code)

/-- The power of ten of the first digit. -/
def order (x : Digits) : Int := x.point - 1

def whole (x : Digits) : Text :=
  if x.point ≤ 0 then [48]
  else x.digits.take x.point.toNat ++ List.replicate (x.point.toNat - x.digits.length) 48

def fraction (x : Digits) : Text :=
  if x.digits = [] then []
  else List.replicate (-x.point).toNat 48 ++ x.digits.drop x.point.toNat

def pointed (x : Digits) : Text :=
  x.whole ++ if x.fraction = [] then [] else Text.of "." ++ x.fraction

def exponentText (e : Int) : Text :=
  let digits := Text.ofNat e.natAbs
  Text.of (if e < 0 then "e-" else "e+") ++ (if digits.length < 2 then 48 :: digits else digits)

def marked (x : Digits) : Text :=
  x.digits.take 1 ++ (if x.digits.length ≤ 1 then [] else Text.of "." ++ x.digits.drop 1)
    ++ exponentText x.order

/-- The point alone is used for exponents from -4 up to, but without, `limit`. -/
def isModerate (limit : Int) (x : Digits) : Bool :=
  x.digits = [] || (-4 ≤ x.order && x.order < limit)

end Digits

def isNegative (x : Float) : Bool := signBit ≤ x.toBits.toNat

/-- The code of the double without its sign. -/
def magnitude (x : Float) : Nat := x.toBits.toNat % signBit

/-- Neither side is NaN and both have one value; the zeros of both signs are one number. -/
def same (x y : Float) : Bool :=
  magnitude x ≤ infinityCode && magnitude y ≤ infinityCode && magnitude x == magnitude y
    && (magnitude x == 0 || isNegative x == isNegative y)

/-- The text of a double, with the point alone for exponents below `limit`. -/
def written (limit : Int) (x : Float) : Text :=
  if infinityCode < magnitude x then Text.of "NaN"
  else if magnitude x = infinityCode then Text.of (if isNegative x then "-Inf" else "+Inf")
  else
    let digits := Digits.ofCode (magnitude x)
    (if isNegative x then Text.of "-" else [])
      ++ if digits.isModerate limit then digits.pointed else digits.marked

/-- The text of a double in source: a point or an exponent keeps it apart from an integer. -/
def literal (x : Float) : Text :=
  let text := written 21 x
  if magnitude x < infinityCode ∧ text.all (fun b => b != 46 && b != 101) then text ++ Text.of ".0"
  else text

end Lisp.Number
