import Lisp.Number.Rounding

/-!
Decimals and doubles. A decimal stands for the double nearest to it, and a double is written as the
decimal of the fewest digits that stands for it, the nearest of those when there are several.
-/
namespace Lisp.Number

/-- The number `coefficient · 10 ^ exponent`. -/
structure Decimal where
  coefficient : Nat
  exponent : Int
  deriving DecidableEq

namespace Decimal

/-- The code of the nearest double. -/
def code (d : Decimal) : Nat :=
  let (n, m) := scaled 10 d.coefficient 1 d.exponent
  nearestCode n m

/-- Whether the nearest double is settled without the last `n` digits: they are zeros, or the double
is the same for the next greater number that has zeros there. -/
def isSettledWithout (n : Nat) (d : Decimal) : Bool :=
  let unit := Nat.pow 10 n
  let first := d.coefficient / unit
  let exponent := d.exponent + Int.ofNat n
  d.coefficient % unit == 0 || code ⟨first, exponent⟩ == code ⟨first + 1, exponent⟩

/-- The greatest `k` with `10 ^ k ≤ n / d`, for a quotient in the range of doubles. Twofold is about
0.30103 powers of ten, which leaves two numbers to choose from. -/
def order (n d : Nat) : Int :=
  let guess := binaryOrder n d * 30103 / 100000
  let (n, d) := scaled 10 n d (-(guess + 1))
  if d ≤ n then guess + 1 else guess

/-- Of the two decimals with `exponent` around `n / d`, the nearest that stands for `target`. -/
def around? (target n d : Nat) (exponent : Int) : Option Decimal :=
  let (n, d) := scaled 10 n d (-exponent)
  let below : Decimal := ⟨n / d, exponent⟩
  let above : Decimal := ⟨n / d + 1, exponent⟩
  let rest := 2 * (n % d)
  if below.code = target ∧ above.code = target then
    some (if rest < d ∨ (rest = d ∧ n / d % 2 = 0) then below else above)
  else if below.code = target then some below
  else if above.code = target then some above
  else none

/-- The decimal that is written for the double with a positive finite code. Seventeen digits always
suffice to tell a double from its neighbours. -/
def shortest (target : Nat) : Decimal :=
  let (m, q) := parts target
  let (n, d) := scaled 2 m 1 q
  let top := order n d
  let found := (List.range 17).findSome? fun more => around? target n d (top - Int.ofNat more)
  found.getD ⟨m, 0⟩

end Decimal

end Lisp.Number
