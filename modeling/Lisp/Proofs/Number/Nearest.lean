import Lisp.Number.Decimal
import Mathlib.Algebra.Order.Field.Power
import Mathlib.Data.Rat.Cast.Order
import Mathlib.Tactic.FieldSimp
import Mathlib.Tactic.Linarith
import Mathlib.Tactic.Positivity
import Mathlib.Tactic.Ring

/-!
The nearest double as a function of a rational number. The code of a quotient depends only on the
number that the quotient is and grows with it; a number close enough to a double has the code of
that double.
-/
namespace Lisp.Number

/-- The number that numerator and denominator stand for. -/
def ratio (n d : Nat) : ℚ := (n : ℚ) / d

theorem ratio_pos {n d : Nat} (hn : 0 < n) (hd : 0 < d) : 0 < ratio n d := by
  unfold ratio
  positivity

theorem one_le_ratio {n d : Nat} (hd : 0 < d) : 1 ≤ ratio n d ↔ d ≤ n := by
  have hpos : (0 : ℚ) < d := by exact_mod_cast hd
  rw [ratio, le_div_iff₀ hpos, one_mul]
  exact_mod_cast Iff.rfl

/-- The whole part of a quotient and what remains of it. -/
theorem ratio_split (n : Nat) {d : Nat} (hd : 0 < d) :
    ratio n d = (n / d : Nat) + ratio (n % d) d ∧ 0 ≤ ratio (n % d) d ∧ ratio (n % d) d < 1 := by
  have hpos : (0 : ℚ) < d := by exact_mod_cast hd
  have hsplit : (n : ℚ) = d * (n / d : Nat) + (n % d : Nat) := by
    exact_mod_cast (Nat.div_add_mod n d).symm
  refine ⟨?_, by unfold ratio; positivity, ?_⟩
  · rw [ratio, ratio, hsplit]
    field_simp
  · rw [ratio, div_lt_one hpos]
    exact_mod_cast Nat.mod_lt n hd

theorem scaled_spec {b n d : Nat} (hb : 0 < b) (hd : 0 < d) (e : Int) :
    0 < (scaled b n d e).2 ∧
      ratio (scaled b n d e).1 (scaled b n d e).2 = ratio n d * (b : ℚ) ^ e := by
  cases e with
  | ofNat e =>
    refine ⟨hd, ?_⟩
    simp only [scaled, ratio, Nat.pow_eq, Nat.cast_mul, Nat.cast_pow, Int.ofNat_eq_natCast,
      zpow_natCast]
    ring
  | negSucc e =>
    have hpow : 0 < b ^ (e + 1) := Nat.pow_pos hb
    refine ⟨Nat.mul_pos hd hpow, ?_⟩
    simp only [scaled, ratio, Nat.pow_eq, Nat.cast_mul, Nat.cast_pow, zpow_negSucc]
    rw [div_mul_eq_div_div, div_eq_mul_inv]

theorem scaled_fst_pos {b n : Nat} (hb : 0 < b) (hn : 0 < n) (d : Nat) (e : Int) :
    0 < (scaled b n d e).1 := by
  cases e with
  | ofNat e => exact Nat.mul_pos hn (Nat.pow_pos hb)
  | negSucc e => exact hn

/-- The binary order is that of the number. -/
theorem binaryOrder_spec {n d : Nat} (hn : 0 < n) (hd : 0 < d) :
    (2 : ℚ) ^ binaryOrder n d ≤ ratio n d ∧ ratio n d < (2 : ℚ) ^ (binaryOrder n d + 1) := by
  have hnlow : ((2 : ℚ) ^ n.log2) ≤ n := by exact_mod_cast Nat.log2_self_le hn.ne'
  have hnhigh : (n : ℚ) < 2 ^ (n.log2 + 1) := by exact_mod_cast Nat.lt_log2_self
  have hdlow : ((2 : ℚ) ^ d.log2) ≤ d := by exact_mod_cast Nat.log2_self_le hd.ne'
  have hdhigh : (d : ℚ) < 2 ^ (d.log2 + 1) := by exact_mod_cast Nat.lt_log2_self
  have hdpos : (0 : ℚ) < d := by exact_mod_cast hd
  set k : Int := Int.ofNat n.log2 - Int.ofNat d.log2 with hk
  have hlow : (2 : ℚ) ^ (k - 1) < ratio n d := by
    have hsplit : (2 : ℚ) ^ (k - 1) = 2 ^ n.log2 / 2 ^ (d.log2 + 1) := by
      rw [← zpow_natCast, ← zpow_natCast, ← zpow_sub₀ two_ne_zero]
      congr 1
      simp only [hk, Int.ofNat_eq_natCast]
      push_cast
      ring
    rw [hsplit, ratio, div_lt_div_iff₀ (by positivity) hdpos]
    have hnpos : (0 : ℚ) < n := by exact_mod_cast hn
    exact lt_of_le_of_lt (mul_le_mul_of_nonneg_right hnlow hdpos.le)
      (mul_lt_mul_of_pos_left hdhigh hnpos)
  have hhigh : ratio n d < (2 : ℚ) ^ (k + 1) := by
    have hsplit : (2 : ℚ) ^ (k + 1) = 2 ^ (n.log2 + 1) / 2 ^ d.log2 := by
      rw [← zpow_natCast, ← zpow_natCast, ← zpow_sub₀ two_ne_zero]
      congr 1
      simp only [hk, Int.ofNat_eq_natCast]
      push_cast
      ring
    rw [hsplit, ratio, div_lt_div_iff₀ hdpos (by positivity)]
    exact lt_of_le_of_lt (mul_le_mul_of_nonneg_left hdlow n.cast_nonneg)
      (mul_lt_mul_of_pos_right hnhigh hdpos)
  obtain ⟨hpos, hscaled⟩ := scaled_spec (n := n) Nat.two_pos hd (-k)
  have htest : (scaled 2 n d (-k)).2 ≤ (scaled 2 n d (-k)).1 ↔ (2 : ℚ) ^ k ≤ ratio n d := by
    rw [← one_le_ratio hpos, hscaled, Nat.cast_ofNat, zpow_neg, ← div_eq_mul_inv,
      le_div_iff₀ (zpow_pos two_pos k), one_mul]
  have horder : binaryOrder n d =
      if (scaled 2 n d (-k)).2 ≤ (scaled 2 n d (-k)).1 then k else k - 1 := rfl
  rw [horder]
  split
  · rename_i hle
    exact ⟨htest.mp hle, hhigh⟩
  · rename_i hgt
    rw [htest, not_le] at hgt
    exact ⟨hlow.le, by rwa [sub_add_cancel]⟩

/-- The natural number `r` is nearest to `x`, and even when `x` is half-way. -/
structure IsRounding (x : ℚ) (r : Nat) : Prop where
  lower : (r : ℚ) - 1 / 2 ≤ x
  upper : x ≤ (r : ℚ) + 1 / 2
  even : x = (r : ℚ) - 1 / 2 ∨ x = (r : ℚ) + 1 / 2 → r % 2 = 0

theorem IsRounding.mono {x y : ℚ} {r s : Nat} (hx : IsRounding x r) (hy : IsRounding y s)
    (h : x ≤ y) : r ≤ s := by
  by_contra hlt
  have hsucc : (s : ℚ) + 1 ≤ r := by exact_mod_cast not_le.mp hlt
  have hlower := hx.lower
  have hupper := hy.upper
  -- Both numbers are then the half-way point between neighbours, of which one is odd.
  have hr := hx.even (Or.inl (by linarith))
  have hs := hy.even (Or.inr (by linarith))
  have heq : s + 1 = r := by
    have : (r : ℚ) ≤ s + 1 := by linarith
    exact le_antisymm (by omega) (by exact_mod_cast this)
  omega

theorem isRounding_of_near {x : ℚ} {m : Nat} (hlow : (m : ℚ) - 1 / 2 < x)
    (hhigh : x < (m : ℚ) + 1 / 2) : IsRounding x m := by
  refine ⟨hlow.le, hhigh.le, ?_⟩
  rintro (heq | heq)
  · exact absurd heq hlow.ne'
  · exact absurd heq hhigh.ne

theorem isRounding_natCast (m : Nat) : IsRounding m m :=
  isRounding_of_near (by linarith) (by linarith)

theorem isRounding_roundedQuotient (n : Nat) {d : Nat} (hd : 0 < d) :
    IsRounding (ratio n d) (roundedQuotient n d) := by
  have hpos : (0 : ℚ) < d := by exact_mod_cast hd
  obtain ⟨hratio, hzero, hone⟩ := ratio_split n hd
  have hhalf : d < 2 * (n % d) ↔ 1 / 2 < ratio (n % d) d := by
    rw [ratio, div_lt_div_iff₀ two_pos hpos, one_mul, mul_comm]
    exact_mod_cast Iff.rfl
  have htie : 2 * (n % d) = d ↔ ratio (n % d) d = 1 / 2 := by
    rw [ratio, div_eq_div_iff hpos.ne' two_ne_zero, one_mul, mul_comm]
    exact_mod_cast Iff.rfl
  rw [hratio]
  generalize ratio (n % d) d = f at *
  unfold roundedQuotient
  simp only [Bool.or_eq_true, Bool.and_eq_true, decide_eq_true_eq, beq_iff_eq]
  split
  · rename_i hup
    rw [hhalf, htie] at hup
    have hcast : ((n / d + 1 : Nat) : ℚ) = (n / d : Nat) + 1 := Nat.cast_succ _
    refine ⟨?_, by rw [hcast]; linarith, ?_⟩
    · rw [hcast]
      rcases hup with hup | ⟨heq, _⟩ <;> linarith
    · rw [hcast]
      rcases hup with hup | ⟨_, hodd⟩
      · rintro (heq | heq) <;> linarith
      · intro
        omega
  · rename_i hdown
    rw [hhalf, htie, not_or, not_and, not_lt] at hdown
    obtain ⟨hle, heven⟩ := hdown
    refine ⟨by linarith, by linarith, ?_⟩
    rintro (heq | heq)
    · linarith
    · have hne := heven (by linarith)
      omega

/-- A double with exponent `q` and coefficient `r` is nearest to `x`. -/
structure Rounds (x : ℚ) (q : Int) (r : Nat) : Prop where
  least : -1074 ≤ q
  below : x < (2 : ℚ) ^ (q + 53)
  above : q = -1074 ∨ (2 : ℚ) ^ (q + 52) ≤ x
  rounding : IsRounding (x * (2 : ℚ) ^ (-q)) r

/-- The code of the double `r · 2 ^ q`. -/
def codeOf (q : Int) (r : Nat) : Nat := min infinityCode ((q + 1074).toNat * octave + r)

theorem nearestCode_rounds {n d : Nat} (hn : 0 < n) (hd : 0 < d) :
    ∃ q r, Rounds (ratio n d) q r ∧ nearestCode n d = codeOf q r := by
  obtain ⟨hlow, hhigh⟩ := binaryOrder_spec hn hd
  set q := max (binaryOrder n d - 52) (-1074) with hq
  obtain ⟨hpos, hscaled⟩ := scaled_spec (n := n) Nat.two_pos hd (-q)
  refine ⟨q, roundedQuotient (scaled 2 n d (-q)).1 (scaled 2 n d (-q)).2, ?_, ?_⟩
  · refine ⟨le_max_right .., ?_, ?_, ?_⟩
    · have hle : binaryOrder n d + 1 ≤ q + 53 := by omega
      exact lt_of_lt_of_le hhigh (zpow_le_zpow_right₀ one_le_two hle)
    · by_cases hleast : q = -1074
      · exact Or.inl hleast
      · have heq : q + 52 = binaryOrder n d := by omega
        rw [heq]
        exact Or.inr hlow
    · have hround := isRounding_roundedQuotient (scaled 2 n d (-q)).1 hpos
      rwa [hscaled, Nat.cast_ofNat] at hround
  · rw [nearestCode, if_neg hn.ne']
    rfl

/-- A greater number does not have a smaller code. -/
theorem Rounds.mono {x y : ℚ} {q p : Int} {r s : Nat} (hx : Rounds x q r) (hy : Rounds y p s)
    (h : x ≤ y) : codeOf q r ≤ codeOf p s := by
  have hunit : ∀ e : Int, (0 : ℚ) < (2 : ℚ) ^ e := fun e => zpow_pos two_pos e
  refine min_le_min_left _ ?_
  rcases lt_trichotomy q p with hlt | rfl | hgt
  · -- The coefficient of the smaller exponent is at most 2^53, the other at least 2^52.
    have hr : r ≤ 2 * octave := by
      refine hx.rounding.mono (isRounding_natCast (2 * octave)) ?_
      have hlt := mul_lt_mul_of_pos_right hx.below (hunit (-q))
      rw [← zpow_add₀ two_ne_zero, add_neg_cancel_comm] at hlt
      exact hlt.le
    have hs : octave ≤ s := by
      refine (isRounding_natCast octave).mono hy.rounding ?_
      have hle := hy.above.resolve_left (by have := hx.least; omega)
      have hmul := mul_le_mul_of_nonneg_right hle (hunit (-p)).le
      rw [← zpow_add₀ two_ne_zero, add_neg_cancel_comm] at hmul
      exact hmul
    have hfields : (q + 1074).toNat + 1 ≤ (p + 1074).toNat := by
      have := hx.least
      omega
    calc (q + 1074).toNat * octave + r ≤ ((q + 1074).toNat + 1) * octave + octave := by
          rw [Nat.add_mul]
          omega
      _ ≤ (p + 1074).toNat * octave + s := Nat.add_le_add (Nat.mul_le_mul_right _ hfields) hs
  · refine Nat.add_le_add_left (hx.rounding.mono hy.rounding ?_) _
    exact mul_le_mul_of_nonneg_right h (hunit _).le
  · -- The order of the smaller number is not the greater one.
    have hle := hx.above.resolve_left (by have := hy.least; omega)
    have hlt : (2 : ℚ) ^ (q + 52) < (2 : ℚ) ^ (p + 53) :=
      lt_of_le_of_lt hle (lt_of_le_of_lt h hy.below)
    have hexp := (zpow_lt_zpow_iff_right₀ one_lt_two).mp hlt
    omega

theorem nearestCode_mono {n d m k : Nat} (hd : 0 < d) (hk : 0 < k) (h : ratio n d ≤ ratio m k) :
    nearestCode n d ≤ nearestCode m k := by
  by_cases hn : n = 0
  · simp [nearestCode, hn]
  have hpos := ratio_pos (Nat.pos_of_ne_zero hn) hd
  have hm : m ≠ 0 := by
    rintro rfl
    simp only [ratio, Nat.cast_zero, zero_div] at h hpos
    linarith
  obtain ⟨q, r, hx, hcode⟩ := nearestCode_rounds (Nat.pos_of_ne_zero hn) hd
  obtain ⟨p, s, hy, hcode'⟩ := nearestCode_rounds (Nat.pos_of_ne_zero hm) hk
  rw [hcode, hcode']
  exact hx.mono hy h

theorem nearestCode_eq_codeOf {n d : Nat} (hn : 0 < n) (hd : 0 < d) {q : Int} {r : Nat}
    (h : Rounds (ratio n d) q r) : nearestCode n d = codeOf q r := by
  obtain ⟨p, s, hx, hcode⟩ := nearestCode_rounds hn hd
  rw [hcode]
  exact le_antisymm (hx.mono h le_rfl) (h.mono hx le_rfl)

/-- The number that a code without a sign stands for. -/
def valueOf (code : Nat) : ℚ := (parts code).1 * (2 : ℚ) ^ (parts code).2

theorem codeOf_parts {code : Nat} (h : code < infinityCode) :
    codeOf (parts code).2 (parts code).1 = code := by
  have hsplit := Nat.div_add_mod code octave
  unfold codeOf parts
  simp only
  split
  · rename_i hzero
    rw [hzero] at hsplit
    simp only [Int.reduceNeg, Int.reduceAdd, Int.toNat_zero, Nat.zero_mul, Nat.zero_add]
    omega
  · rename_i hfield
    have hexp : (Int.ofNat (code / octave) - 1075 + 1074).toNat = code / octave - 1 := by
      rw [Int.ofNat_eq_natCast]
      omega
    have hone : octave ≤ code / octave * octave :=
      Nat.le_mul_of_pos_left _ (Nat.pos_of_ne_zero hfield)
    rw [hexp, Nat.sub_mul, Nat.one_mul]
    rw [Nat.mul_comm] at hsplit
    omega

/-- Shape of a finite positive code: the coefficient is below 2^53, and it is at least 2^52 unless
the exponent is the least one. -/
theorem parts_bounds {code : Nat} (h : 0 < code) :
    0 < (parts code).1 ∧ (parts code).1 < 2 * octave ∧ -1074 ≤ (parts code).2 ∧
      (octave ≤ (parts code).1 ∨ (parts code).2 = -1074) := by
  have hsplit := Nat.div_add_mod code octave
  have hfraction : code % octave < octave := Nat.mod_lt code (by decide)
  unfold parts
  simp only
  split
  · rename_i hzero
    rw [hzero] at hsplit
    exact ⟨by omega, by omega, le_refl _, Or.inr rfl⟩
  · rename_i hfield
    refine ⟨by omega, by omega, ?_, Or.inl (by omega)⟩
    have hone : 1 ≤ code / octave := Nat.pos_of_ne_zero hfield
    generalize code / octave = field at hone
    rw [Int.ofNat_eq_natCast]
    omega

/-- Numbers near a double have its code. At a power of two only those from the double upwards are
near enough, since the double below it is closer. -/
theorem nearestCode_of_near {code n d : Nat} (hpos : 0 < code) (hfinite : code < infinityCode)
    (hn : 0 < n) (hd : 0 < d)
    (hlow : valueOf code ≤ ratio n d ∨ (parts code).1 ≠ octave ∧
      valueOf code - (2 : ℚ) ^ (parts code).2 / 2 < ratio n d)
    (hhigh : ratio n d < valueOf code + (2 : ℚ) ^ (parts code).2 / 2) :
    nearestCode n d = code := by
  obtain ⟨hm, hmhigh, hq, hshape⟩ := parts_bounds hpos
  unfold valueOf at hlow hhigh
  rw [← codeOf_parts hfinite]
  generalize (parts code).1 = m at *
  generalize (parts code).2 = q at *
  apply nearestCode_eq_codeOf hn hd
  generalize ratio n d = x at *
  have hunit : (0 : ℚ) < (2 : ℚ) ^ q := zpow_pos two_pos q
  have hmid : (m : ℚ) * 2 ^ q - 2 ^ q / 2 < x := by
    rcases hlow with hlow | ⟨_, hlow⟩ <;> linarith
  have hscale : ∀ k : Nat, (2 : ℚ) ^ (q + k) = 2 ^ k * 2 ^ q := by
    intro k
    rw [zpow_add₀ two_ne_zero, zpow_natCast, mul_comm]
  have htop : (m : ℚ) + 1 ≤ 2 * octave := by exact_mod_cast hmhigh
  have hoctave : (octave : ℚ) = 2 ^ 52 := by norm_num [octave]
  refine ⟨hq, ?_, ?_, ?_⟩
  · have h53 := hscale 53
    push_cast at h53
    rw [h53]
    nlinarith
  · rcases hshape with hnormal | hleast
    · right
      have h52 := hscale 52
      push_cast at h52
      rw [h52, ← hoctave]
      rcases hlow with hlow | ⟨hne, _⟩
      · have hle : (octave : ℚ) ≤ m := by exact_mod_cast hnormal
        nlinarith
      · have hle : (octave : ℚ) + 1 ≤ m := by exact_mod_cast Nat.lt_of_le_of_ne hnormal hne.symm
        nlinarith
    · exact Or.inl hleast
  · rw [zpow_neg, ← div_eq_mul_inv]
    apply isRounding_of_near
    · rw [lt_div_iff₀ hunit]
      linarith
    · rw [div_lt_iff₀ hunit]
      linarith

namespace Decimal

def value (d : Decimal) : ℚ := d.coefficient * (10 : ℚ) ^ d.exponent

theorem ratio_scaled (d : Decimal) :
    0 < (scaled 10 d.coefficient 1 d.exponent).2 ∧
      ratio (scaled 10 d.coefficient 1 d.exponent).1 (scaled 10 d.coefficient 1 d.exponent).2 =
        d.value := by
  obtain ⟨hpos, heq⟩ := scaled_spec (b := 10) (n := d.coefficient) (by decide) Nat.one_pos
    d.exponent
  refine ⟨hpos, heq.trans ?_⟩
  simp [ratio, value]

theorem code_mono {d e : Decimal} (h : d.value ≤ e.value) : d.code ≤ e.code := by
  obtain ⟨hd, hvalue⟩ := ratio_scaled d
  obtain ⟨he, hvalue'⟩ := ratio_scaled e
  rw [code, code]
  refine nearestCode_mono hd he ?_
  rwa [← hvalue, ← hvalue'] at h

/-- Decimals of one value stand for one double. -/
theorem code_eq_of_value_eq {d e : Decimal} (h : d.value = e.value) : d.code = e.code :=
  le_antisymm (code_mono h.le) (code_mono h.ge)

/-- Decimals near a double stand for it. -/
theorem code_of_near {code : Nat} (hpos : 0 < code) (hfinite : code < infinityCode) {d : Decimal}
    (hd : 0 < d.coefficient)
    (hlow : valueOf code ≤ d.value ∨ (parts code).1 ≠ octave ∧
      valueOf code - (2 : ℚ) ^ (parts code).2 / 2 < d.value)
    (hhigh : d.value < valueOf code + (2 : ℚ) ^ (parts code).2 / 2) : d.code = code := by
  obtain ⟨hden, hvalue⟩ := ratio_scaled d
  rw [← hvalue] at hlow hhigh
  exact nearestCode_of_near hpos hfinite (scaled_fst_pos (by decide) hd 1 d.exponent) hden hlow
    hhigh

end Decimal

end Lisp.Number
