/-!
Rounding a quotient to a double. A finite double without its sign is m · 2^q with q ≥ -1074, and its
64-bit code is (q + 1074) · 2^52 + m when q is the least exponent that leaves m below 2^53. A
rounding that carries m up to 2^53 therefore lands on the code of the next double, and past the last
one on the code of infinity.
-/
namespace Lisp.Number

/-- The natural number nearest to `n / d`; a tie goes to the even neighbour. -/
def roundedQuotient (n d : Nat) : Nat :=
  let q := n / d
  let r := n % d
  if d < 2 * r || (2 * r == d && q % 2 == 1) then q + 1 else q

/-- Numerator and denominator of `n / d` times `base ^ e`. -/
def scaled (base n d : Nat) : (e : Int) → Nat × Nat
  | .ofNat e => (n * base.pow e, d)
  | .negSucc e => (n, d * base.pow (e + 1))

/-- The greatest `k` with `2 ^ k ≤ n / d`, for positive `n` and `d`. -/
def binaryOrder (n d : Nat) : Int :=
  let k : Int := Int.ofNat n.log2 - Int.ofNat d.log2
  let (n, d) := scaled 2 n d (-k)
  if d ≤ n then k else k - 1

/-- 2^52, by which the code grows when a normal number is doubled. -/
def octave : Nat := 0x10000000000000

/-- 2^63, the part of a code that holds the sign. -/
def signBit : Nat := 0x8000000000000000

/-- The code after that of the greatest finite double. -/
def infinityCode : Nat := 2047 * octave

/-- The code of the double nearest to `n / d`; a tie goes to the even one. -/
def nearestCode (n d : Nat) : Nat :=
  if n = 0 then 0
  else
    let q := max (binaryOrder n d - 52) (-1074)
    let (n, d) := scaled 2 n d (-q)
    min infinityCode ((q + 1074).toNat * octave + roundedQuotient n d)

/-- `m` and `q` of the double m · 2^q with the given finite code. -/
def parts (code : Nat) : Nat × Int :=
  let field := code / octave
  let fraction := code % octave
  if field = 0 then (fraction, -1074) else (fraction + octave, Int.ofNat field - 1075)

end Lisp.Number
