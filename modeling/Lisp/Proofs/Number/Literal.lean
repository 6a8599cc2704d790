import Lisp.Proofs.Number.Shortest
import Lisp.Proofs.Number.Spelling
import Mathlib

/-!
The literal of a finite double is a word that spells the decimal written for it, with a sign in
front. It reads as the double, except that the doubles from 2^64 up to, but without, 10^21 are
written with more digits in front of the point than an integer has: their literals are refused.

The library is imported whole for `Float.ofBits_toBits`, which no smaller part of it has.
-/
namespace Lisp.Number

open Text

theorem number_replicate_zero (k : Nat) : number (List.replicate k 48) = 0 := by
  induction k with
  | zero => rfl
  | succ k ih =>
    rw [List.replicate_succ, ← List.singleton_append, number_append, ih]
    simp [number, numberFrom, digitValue]

theorem isDigits_replicate_zero (k : Nat) : IsDigits (List.replicate k 48) := by
  intro b hb
  rw [(List.mem_replicate.mp hb).2]
  decide

/-- A number has no more digits than its size asks for. -/
theorem pow_le_of_length_ofNat {n : Nat} (h : 0 < n) : 10 ^ ((ofNat n).length - 1) ≤ n := by
  induction n using Nat.strongRecOn with
  | ind n ih =>
    rw [ofNat_eq]
    split
    · simpa using Nat.succ_le_of_lt h
    · have htenth := ih (n / 10) (by omega) (by omega)
      have hlength : 0 < (ofNat (n / 10)).length := List.length_pos_of_ne_nil (ofNat_ne_nil _)
      rw [List.length_append, List.length_singleton, Nat.add_sub_cancel,
        ← Nat.sub_add_cancel hlength, Nat.pow_succ]
      calc 10 ^ ((ofNat (n / 10)).length - 1) * 10 ≤ n / 10 * 10 := Nat.mul_le_mul_right 10 htenth
        _ ≤ n := Nat.div_mul_le_self n 10

namespace Digits

/-- Digits that start with one that is not zero. -/
structure IsProper (x : Digits) : Prop where
  isDigits : IsDigits x.digits
  ne_nil : x.digits ≠ []
  first : 10 ^ (x.digits.length - 1) ≤ number x.digits

def value (x : Digits) : ℚ := number x.digits * (10 : ℚ) ^ (x.point - x.digits.length)

theorem ofDecimal_spec {d : Decimal} (h : 0 < d.coefficient) :
    (ofDecimal d).IsProper ∧ (ofDecimal d).value = d.value := by
  -- The digits that are left out are zeros.
  obtain ⟨k, hk⟩ : ∃ k, ofNat d.coefficient = (ofDecimal d).digits ++ List.replicate k 48 := by
    have hzeros : ∀ b ∈ (ofNat d.coefficient).reverse.takeWhile (· == 48), b = 48 := fun b hb =>
      eq_of_beq (List.all_eq_true.mp List.all_takeWhile b hb)
    have hsplit := congrArg List.reverse
      (List.takeWhile_append_dropWhile (p := (· == 48)) (l := (ofNat d.coefficient).reverse))
    rw [List.reverse_append, List.reverse_reverse, List.eq_replicate_of_mem hzeros,
      List.reverse_replicate] at hsplit
    exact ⟨_, hsplit.symm⟩
  have hnumber : d.coefficient = number (ofDecimal d).digits * 10 ^ k := by
    have hall := congrArg number hk
    rw [number_ofNat, number_append, number_replicate_zero, List.length_replicate] at hall
    exact hall
  have hlength : (ofNat d.coefficient).length = (ofDecimal d).digits.length + k := by
    rw [hk, List.length_append, List.length_replicate]
  have hne : (ofDecimal d).digits ≠ [] := by
    intro hnil
    rw [hnil] at hnumber
    simp only [number, numberFrom, List.foldl_nil, Nat.zero_mul] at hnumber
    omega
  refine ⟨⟨?_, hne, ?_⟩, ?_⟩
  · intro b hb
    exact isDigits_ofNat d.coefficient b (by rw [hk]; exact List.mem_append_left _ hb)
  · have hpos : 0 < (ofDecimal d).digits.length := List.length_pos_of_ne_nil hne
    have hlow := pow_le_of_length_ofNat h
    have hexp : (ofNat d.coefficient).length - 1 = (ofDecimal d).digits.length - 1 + k := by omega
    rw [hexp, hnumber, Nat.pow_add] at hlow
    exact Nat.le_of_mul_le_mul_right hlow (Nat.pow_pos (by decide))
  · have hpoint : (ofDecimal d).point - (ofDecimal d).digits.length = k + d.exponent := by
      change Int.ofNat (ofNat d.coefficient).length + d.exponent - _ = _
      rw [Int.ofNat_eq_natCast]
      omega
    rw [value, Decimal.value, hpoint, hnumber, zpow_add₀ (by norm_num)]
    push_cast
    rw [zpow_natCast]
    ring

theorem value_bounds {x : Digits} (h : x.IsProper) :
    (10 : ℚ) ^ x.order ≤ x.value ∧ x.value < (10 : ℚ) ^ (x.order + 1) := by
  have hpos : 0 < x.digits.length := List.length_pos_of_ne_nil h.ne_nil
  have hscale : (0 : ℚ) < (10 : ℚ) ^ (x.point - x.digits.length) := zpow_pos (by norm_num) _
  have hfirst : ((10 : ℚ) ^ (x.digits.length - 1)) ≤ number x.digits := by exact_mod_cast h.first
  have hlast : (number x.digits : ℚ) < 10 ^ x.digits.length := by
    exact_mod_cast number_lt h.isDigits
  rw [value, order]
  constructor
  · refine le_trans (le_of_eq ?_) (mul_le_mul_of_nonneg_right hfirst hscale.le)
    rw [← zpow_natCast, ← zpow_add₀ (by norm_num)]
    congr 1
    omega
  · refine lt_of_lt_of_eq (mul_lt_mul_of_pos_right hlast hscale) ?_
    rw [← zpow_natCast, ← zpow_add₀ (by norm_num)]
    congr 1
    ring

/-- How the digits are spelled: with the point alone, or with an exponent. -/
def spelling (x : Digits) : Spelling :=
  if x.isModerate 21 then ⟨x.whole, if x.fraction = [] then [48] else x.fraction, none⟩
  else ⟨x.digits.take 1, x.digits.drop 1, some x.order⟩

theorem isModerate_iff {x : Digits} (h : x.IsProper) (limit : Int) :
    x.isModerate limit = true ↔ -4 ≤ x.order ∧ x.order < limit := by
  simp [isModerate, h.ne_nil]

/-- Where the point stands: in front of the digits, behind them or among them. -/
theorem whole_fraction_cases {x : Digits} (h : x.digits ≠ []) :
    (x.point ≤ 0 ∧ x.whole = [48] ∧
      x.fraction = List.replicate (-x.point).toNat 48 ++ x.digits) ∨
    ∃ p : Nat, x.point = p ∧ 0 < p ∧
      (x.digits.length ≤ p ∧ x.whole = x.digits ++ List.replicate (p - x.digits.length) 48 ∧
        x.fraction = [] ∨
      p < x.digits.length ∧ x.whole = x.digits.take p ∧ x.fraction = x.digits.drop p) := by
  by_cases hpoint : x.point ≤ 0
  · refine Or.inl ⟨hpoint, by simp [whole, hpoint], ?_⟩
    rw [fraction, if_neg h, Int.toNat_eq_zero.mpr hpoint, List.drop_zero]
  · obtain ⟨p, hp⟩ : ∃ p : Nat, x.point = p := ⟨x.point.toNat, by omega⟩
    have hpos : 0 < p := by omega
    have hfraction : x.fraction = x.digits.drop p := by
      have hnone : (-x.point).toNat = 0 := by omega
      have htoNat : x.point.toNat = p := by omega
      rw [fraction, if_neg h, hnone, htoNat, List.replicate_zero, List.nil_append]
    have hwhole : x.whole = x.digits.take p ++ List.replicate (p - x.digits.length) 48 := by
      have htoNat : x.point.toNat = p := by omega
      rw [whole, if_neg hpoint, htoNat]
    refine Or.inr ⟨p, hp, hpos, ?_⟩
    rcases Nat.lt_or_ge p x.digits.length with hlt | hle
    · refine Or.inr ⟨hlt, ?_, hfraction⟩
      rw [hwhole, Nat.sub_eq_zero_of_le hlt.le, List.replicate_zero, List.append_nil]
    · refine Or.inl ⟨hle, ?_, ?_⟩
      · rw [hwhole, List.take_of_length_le hle]
      · rw [hfraction, List.drop_eq_nil_of_le hle]

theorem spelling_isProper {x : Digits} (h : x.IsProper) (horder : x.order.natAbs < 10000) :
    x.spelling.IsProper := by
  have htake : ∀ n, IsDigits (x.digits.take n) := fun n b hb =>
    h.isDigits b (List.mem_of_mem_take hb)
  have hdrop : ∀ n, IsDigits (x.digits.drop n) := fun n b hb =>
    h.isDigits b (List.mem_of_mem_drop hb)
  have hzeros := isDigits_replicate_zero
  unfold spelling
  split
  · rename_i hmoderate
    have hlimit := ((isModerate_iff h 21).mp hmoderate).2
    rw [order] at hlimit
    rcases whole_fraction_cases h.ne_nil with ⟨_, hwhole, hfraction⟩ |
      ⟨p, hp, hpos, ⟨hle, hwhole, hfraction⟩ | ⟨hlt, hwhole, hfraction⟩⟩
    · have hsome : x.fraction ≠ [] := by simp [hfraction, h.ne_nil]
      rw [hwhole, if_neg hsome, hfraction]
      refine ⟨by simp, hzeros 1, ?_, by simp, by simp, Or.inl (hfraction ▸ hsome)⟩
      intro b hb
      rcases List.mem_append.mp hb with hb | hb
      · exact hzeros _ b hb
      · exact h.isDigits b hb
    · rw [hwhole, if_pos hfraction]
      refine ⟨by simp [h.ne_nil], ?_, hzeros 1, ?_, by simp, Or.inl (by simp)⟩
      · intro b hb
        rcases List.mem_append.mp hb with hb | hb
        · exact h.isDigits b hb
        · exact hzeros _ b hb
      · simp only [List.length_append, List.length_replicate]
        omega
    · have hsome : x.fraction ≠ [] := by simp [hfraction, hlt]
      rw [hwhole, if_neg hsome, hfraction]
      refine ⟨?_, htake p, hdrop p, ?_, by simp, Or.inl (hfraction ▸ hsome)⟩
      · simp [h.ne_nil, hpos.ne']
      · simp only [List.length_take]
        omega
  · refine ⟨by simp [h.ne_nil], htake 1, hdrop 1, ?_, ?_, Or.inr rfl⟩
    · exact le_trans (List.length_take_le 1 _) (by decide)
    · intro e he
      cases he
      exact horder

theorem value_spelling {x : Digits} (h : x.IsProper) : x.spelling.decimal.value = x.value := by
  have hpos : 0 < x.digits.length := List.length_pos_of_ne_nil h.ne_nil
  have hzero : ∀ k, number (List.replicate k 48) = 0 := number_replicate_zero
  unfold spelling
  split
  · rcases whole_fraction_cases h.ne_nil with ⟨hpoint, hwhole, hfraction⟩ |
      ⟨p, hp, _, ⟨hle, hwhole, hfraction⟩ | ⟨hlt, hwhole, hfraction⟩⟩
    · have hsome : x.fraction ≠ [] := by simp [hfraction, h.ne_nil]
      have hexp : 0 - Int.ofNat (List.replicate (-x.point).toNat (48 : UInt8) ++ x.digits).length =
          x.point - x.digits.length := by
        simp only [List.length_append, List.length_replicate, Int.ofNat_eq_natCast]
        omega
      have hnumber : number ([48] ++ (List.replicate (-x.point).toNat 48 ++ x.digits)) =
          number x.digits := by
        rw [number_append, number_append, hzero]
        simp [number, numberFrom, digitValue]
      rw [hwhole, if_neg hsome, hfraction]
      simp only [Spelling.decimal, Decimal.value, Option.getD_none, hexp, hnumber, value]
    · have hnumber : number (x.digits ++ List.replicate (p - x.digits.length) 48 ++ [48]) =
          number x.digits * 10 ^ (p - x.digits.length + 1) := by
        rw [number_append, number_append, hzero, List.length_replicate, Nat.pow_succ]
        simp [number, numberFrom, digitValue, Nat.mul_assoc]
      rw [hwhole, if_pos hfraction]
      simp only [Spelling.decimal, Decimal.value, Option.getD_none, hnumber, value]
      push_cast
      rw [mul_assoc, ← zpow_natCast, ← zpow_add₀ (by norm_num)]
      congr 2
      rw [List.length_singleton, Int.ofNat_eq_natCast]
      omega
    · have hsome : x.fraction ≠ [] := by simp [hfraction, hlt]
      have hexp : 0 - Int.ofNat (x.digits.drop p).length = x.point - x.digits.length := by
        rw [List.length_drop, Int.ofNat_eq_natCast]
        omega
      rw [hwhole, if_neg hsome, hfraction]
      simp only [Spelling.decimal, Decimal.value, Option.getD_none, hexp, List.take_append_drop,
        value]
  · have hexp : x.order - Int.ofNat (x.digits.drop 1).length = x.point - x.digits.length := by
      rw [List.length_drop, order, Int.ofNat_eq_natCast]
      omega
    simp only [Spelling.decimal, Decimal.value, List.take_append_drop, Option.getD_some, hexp,
      value]

/-- The whole part exceeds 64 bits just for the numbers from 2^64 that are written with the point
alone. -/
theorem tooLarge_iff {x : Digits} (h : x.IsProper) (horder : x.order.natAbs < 10000) :
    2 * signBit ≤ number x.spelling.whole ↔ (2 : ℚ) ^ 64 ≤ x.value ∧ x.value < (10 : ℚ) ^ 21 := by
  have hproper := spelling_isProper h horder
  have hvalue := value_spelling h
  obtain ⟨hlow, hhigh⟩ := value_bounds h
  have hsign : ((2 * signBit : Nat) : ℚ) = 2 ^ 64 := by norm_num [signBit]
  by_cases hmoderate : x.isModerate 21 = true
  · have hlimit := (isModerate_iff h 21).mp hmoderate
    have hnone : x.spelling.exponent = none := by simp [spelling, hmoderate]
    obtain ⟨hfloor, hnext⟩ := Spelling.whole_bounds hproper hnone
    rw [hvalue] at hfloor hnext
    have hsmall : x.value < (10 : ℚ) ^ 21 := by
      refine lt_of_lt_of_le hhigh ?_
      rw [← zpow_natCast]
      exact zpow_le_zpow_right₀ (by norm_num) (by push_cast; omega)
    constructor
    · intro hle
      have hcast : ((2 * signBit : Nat) : ℚ) ≤ number x.spelling.whole := by exact_mod_cast hle
      exact ⟨by linarith, hsmall⟩
    · rintro ⟨hle, _⟩
      rw [← hsign] at hle
      have hcast : ((2 * signBit : Nat) : ℚ) < (number x.spelling.whole + 1 : Nat) := by
        push_cast at hle ⊢
        linarith
      have hlt : 2 * signBit < number x.spelling.whole + 1 := by exact_mod_cast hcast
      omega
  · have hwhole : x.spelling.whole = x.digits.take 1 := by simp [spelling, hmoderate]
    have hshort : number x.spelling.whole < 10 := by
      have hlt := number_lt hproper.whole_isDigits
      have hone : x.spelling.whole.length ≤ 1 := by
        rw [hwhole]
        exact List.length_take_le 1 _
      exact lt_of_lt_of_le hlt (Nat.pow_le_pow_right (by decide) hone)
    constructor
    · intro hle
      have hbig : 10 < 2 * signBit := by decide
      omega
    · rintro ⟨hle, hlt⟩
      exfalso
      rw [isModerate_iff h] at hmoderate
      rcases lt_or_ge x.order (-4) with hneg | hpos
      · have hone : (10 : ℚ) ^ (x.order + 1) ≤ 10 ^ (0 : Int) :=
          zpow_le_zpow_right₀ (by norm_num) (by omega)
        rw [zpow_zero] at hone
        norm_num at hle
        linarith
      · have hbig : (10 : ℚ) ^ (21 : Int) ≤ 10 ^ x.order :=
          zpow_le_zpow_right₀ (by norm_num) (by omega)
        norm_num at hbig hlt
        linarith

/-- The digits written for a finite positive double, and that they stand for it. -/
theorem ofCode_spec {c : Nat} (hpos : 0 < c) (hfinite : c < infinityCode) :
    (ofCode c).IsProper ∧ (ofCode c).value = (Decimal.shortest c).value ∧
      (ofCode c).order.natAbs < 10000 := by
  have hcode := Decimal.code_shortest hpos hfinite
  have hcoefficient : 0 < (Decimal.shortest c).coefficient := by
    refine Nat.pos_of_ne_zero fun hzero => ?_
    have hvalue : (Decimal.shortest c).value = Decimal.value ⟨0, 0⟩ := by
      simp [Decimal.value, hzero]
    have hnone : Decimal.code ⟨0, 0⟩ = 0 := rfl
    rw [Decimal.code_eq_of_value_eq hvalue, hnone] at hcode
    omega
  have hof : ofCode c = ofDecimal (.shortest c) := if_neg hpos.ne'
  obtain ⟨hproper, hvalue⟩ := ofDecimal_spec hcoefficient
  rw [hof]
  obtain ⟨hlow, hhigh⟩ := value_bounds hproper
  rw [hvalue] at hlow hhigh
  have hten : ∀ e : Int, Decimal.value ⟨1, e⟩ = (10 : ℚ) ^ e := by simp [Decimal.value]
  refine ⟨hproper, hvalue, ?_⟩
  -- Numbers of an order beyond these are infinite or zero as doubles.
  have hmax : (ofDecimal (.shortest c)).order < 400 := by
    by_contra hge
    have hle : Decimal.value ⟨1, 400⟩ ≤ (Decimal.shortest c).value := by
      rw [hten]
      exact le_trans (zpow_le_zpow_right₀ (by norm_num) (not_lt.mp hge)) hlow
    have hinfinite : Decimal.code ⟨1, 400⟩ = infinityCode := by decide +kernel
    have hmono := Decimal.code_mono hle
    omega
  have hmin : -400 ≤ (ofDecimal (.shortest c)).order := by
    by_contra hlt
    have hle : (Decimal.shortest c).value ≤ Decimal.value ⟨1, -400⟩ := by
      rw [hten]
      exact le_trans hhigh.le (zpow_le_zpow_right₀ (by norm_num) (by omega))
    have hzero : Decimal.code ⟨1, -400⟩ = 0 := by decide +kernel
    have hmono := Decimal.code_mono hle
    omega
  omega

end Digits

/-- The codes of the doubles from 2^64 up to, but without, 10^21. -/
def IsVast (c : Nat) : Prop := (2 : ℚ) ^ 64 ≤ valueOf c ∧ valueOf c < (10 : ℚ) ^ 21

instance (c : Nat) : Decidable (IsVast c) := inferInstanceAs (Decidable (_ ∧ _))

/-- Whether a double is vast can be seen from the decimal written for it. -/
theorem isVast_iff {c : Nat} (hpos : 0 < c) (hfinite : c < infinityCode) :
    IsVast c ↔ (2 : ℚ) ^ 64 ≤ (Decimal.shortest c).value ∧
      (Decimal.shortest c).value < (10 : ℚ) ^ 21 := by
  have hcode := Decimal.code_shortest hpos hfinite
  have hlowValue : Decimal.value ⟨2 ^ 64, 0⟩ = (2 : ℚ) ^ 64 := by norm_num [Decimal.value]
  have hhighValue : Decimal.value ⟨1, 21⟩ = (10 : ℚ) ^ 21 := by norm_num [Decimal.value]
  -- Both bounds are doubles.
  have hlowParts : parts (Decimal.code ⟨2 ^ 64, 0⟩) = (2 ^ 52, 12) := by decide +kernel
  have hhighParts : parts (Decimal.code ⟨1, 21⟩) = (7629394531250000, 17) := by decide +kernel
  have hlow := Decimal.code_le_iff (d := ⟨2 ^ 64, 0⟩)
    (by rw [hlowValue, valueOf, hlowParts]; norm_num) hpos hfinite
  have hhigh := Decimal.code_le_iff (d := ⟨1, 21⟩)
    (by rw [hhighValue, valueOf, hhighParts]; norm_num) hpos hfinite
  rw [hlowValue] at hlow
  rw [hhighValue] at hhigh
  rw [IsVast, ← hlow, ← not_le, ← hhigh, not_le]
  constructor
  · rintro ⟨hle, hlt⟩
    constructor
    · by_contra hbelow
      have hmono := Decimal.code_mono (d := .shortest c) (e := ⟨2 ^ 64, 0⟩) (by linarith)
      have heq : c = Decimal.code ⟨2 ^ 64, 0⟩ := by omega
      have hshort : Decimal.shortest (Decimal.code ⟨2 ^ 64, 0⟩) = ⟨18446744073709552, 3⟩ := by
        decide +kernel
      rw [heq, hshort] at hbelow
      norm_num [Decimal.value] at hbelow
    · by_contra habove
      have hmono := Decimal.code_mono (d := ⟨1, 21⟩) (e := .shortest c) (by linarith)
      omega
  · rintro ⟨hle, hlt⟩
    constructor
    · have hmono := Decimal.code_mono (d := ⟨2 ^ 64, 0⟩) (e := .shortest c) (by linarith)
      omega
    · by_contra hge
      have hmono := Decimal.code_mono (d := .shortest c) (e := ⟨1, 21⟩) (by linarith)
      have heq : c = Decimal.code ⟨1, 21⟩ := by omega
      have hshort : Decimal.shortest (Decimal.code ⟨1, 21⟩) = ⟨1, 21⟩ := by decide +kernel
      rw [heq, hshort, hhighValue] at hlt
      exact lt_irrefl _ hlt

/-- The spelling of every finite double, zero included. -/
theorem spelling_ofCode {c : Nat} (hfinite : c < infinityCode) :
    (Digits.ofCode c).spelling.IsProper ∧ (Digits.ofCode c).spelling.decimal.code = c ∧
      (2 * signBit ≤ number (Digits.ofCode c).spelling.whole ↔ IsVast c) := by
  rcases Nat.eq_zero_or_pos c with rfl | hpos
  · have hspelling : (Digits.ofCode 0).spelling = ⟨[48], [48], none⟩ := rfl
    rw [hspelling]
    have hzero : valueOf 0 = 0 := by simp [valueOf, parts]
    refine ⟨⟨by simp, isDigits_replicate_zero 1, isDigits_replicate_zero 1, by simp, by simp,
      Or.inl (by simp)⟩, by decide +kernel, ?_⟩
    refine iff_of_false (by decide) ?_
    rw [IsVast, hzero]
    norm_num
  · obtain ⟨hproper, hvalue, horder⟩ := Digits.ofCode_spec hpos hfinite
    refine ⟨Digits.spelling_isProper hproper horder, ?_, ?_⟩
    · rw [Decimal.code_eq_of_value_eq ((Digits.value_spelling hproper).trans hvalue)]
      exact Decimal.code_shortest hpos hfinite
    · rw [Digits.tooLarge_iff hproper horder, hvalue, isVast_iff hpos hfinite]

/-- The sign in front of a literal. -/
def signText (x : Float) : Text := if isNegative x then [45] else []

theorem eq_of_mem_signText {x : Float} {b : UInt8} (h : b ∈ signText x) : b = 45 := by
  unfold signText at h
  split at h
  · exact List.mem_singleton.mp h
  · cases h

/-- What a point or an exponent is looked for in. -/
theorem all_isBare_iff (t : Text) :
    t.all (fun b => b != 46 && b != 101) = true ↔ 46 ∉ t ∧ 101 ∉ t := by
  simp only [List.all_eq_true, Bool.and_eq_true, bne_iff_ne, ne_eq]
  constructor
  · intro hall
    exact ⟨fun hmem => (hall 46 hmem).1 rfl, fun hmem => (hall 101 hmem).2 rfl⟩
  · rintro ⟨hpoint, hmark⟩ b hb
    exact ⟨fun heq => hpoint (heq ▸ hb), fun heq => hmark (heq ▸ hb)⟩

theorem literal_eq {x : Float} (h : magnitude x < infinityCode) :
    literal x = signText x ++ (Digits.ofCode (magnitude x)).spelling.text := by
  have hproper := (spelling_ofCode h).1
  have hwritten : written 21 x = signText x ++
      if (Digits.ofCode (magnitude x)).isModerate 21 then (Digits.ofCode (magnitude x)).pointed
      else (Digits.ofCode (magnitude x)).marked := by
    rw [written, if_neg (by omega), if_neg (by omega)]
    rfl
  rw [literal, hwritten]
  simp only [all_isBare_iff]
  generalize Digits.ofCode (magnitude x) = digits at *
  unfold Digits.spelling at hproper ⊢
  by_cases hmoderate : digits.isModerate 21 = true
  · simp only [hmoderate, if_true] at hproper ⊢
    by_cases hfraction : digits.fraction = []
    · have hpointed : digits.pointed = digits.whole := by simp [Digits.pointed, hfraction]
      have hbare : ∀ b ∈ signText x ++ digits.pointed, b = 45 ∨ isDigit b = true := by
        intro b hb
        rw [hpointed] at hb
        rcases List.mem_append.mp hb with hb | hb
        · exact Or.inl (eq_of_mem_signText hb)
        · exact Or.inr (hproper.whole_isDigits b hb)
      have hnone : 46 ∉ signText x ++ digits.pointed ∧ 101 ∉ signText x ++ digits.pointed :=
        ⟨fun hmem => absurd (hbare 46 hmem) (by decide),
          fun hmem => absurd (hbare 101 hmem) (by decide)⟩
      rw [if_pos ⟨h, hnone⟩, hpointed, if_pos hfraction, List.append_assoc]
      simp only [Spelling.text, Spelling.exponentPart, List.append_nil]
      rfl
    · have hpointed : digits.pointed = digits.whole ++ 46 :: digits.fraction := by
        rw [Digits.pointed, if_neg hfraction]
        rfl
      have hsome : 46 ∈ signText x ++ digits.pointed := by simp [hpointed]
      rw [if_neg fun hnone => hnone.2.1 hsome, hpointed]
      simp [hfraction, Spelling.text, Spelling.exponentPart]
  · simp only [hmoderate, Bool.false_eq_true, if_false] at hproper ⊢
    have hmarked : digits.marked = digits.digits.take 1 ++
        (if digits.digits.drop 1 = [] then [] else 46 :: digits.digits.drop 1) ++
        Digits.exponentText digits.order := by
      simp only [Digits.marked, List.drop_eq_nil_iff]
      rfl
    have hsome : 101 ∈ signText x ++ digits.marked := by
      have hmark : 101 ∈ Digits.exponentText digits.order := by
        obtain ⟨t, ht, _⟩ := exponentText_spec (hproper.exponent_lt digits.order rfl)
        rw [ht]
        exact List.mem_cons_self
      rw [hmarked]
      simp [hmark]
    rw [if_neg fun hnone => hnone.2.2 hsome, hmarked]
    rfl

/-- The bits of a double are its sign and its magnitude. -/
theorem magnitude_add_sign (x : Float) :
    (magnitude x + if isNegative x then signBit else 0) = x.toBits.toNat := by
  have hlt : x.toBits.toNat < 2 * signBit := x.toBits.toNat_lt
  have hsign : isNegative x = true ↔ signBit ≤ x.toBits.toNat := decide_eq_true_iff
  rw [signBit] at hlt hsign ⊢
  rw [magnitude, signBit]
  by_cases hneg : isNegative x = true
  · rw [if_pos hneg]
    rw [hsign] at hneg
    omega
  · rw [if_neg hneg]
    rw [hsign] at hneg
    omega

section Reading

variable {x : Float}

theorem takeSign_literal (h : magnitude x < infinityCode) :
    takeSign (literal x) = (if isNegative x then .minus else .plus,
      (Digits.ofCode (magnitude x)).spelling.text) := by
  have hproper := (spelling_ofCode h).1
  obtain ⟨b, rest, htext, _⟩ := Spelling.exists_text_eq hproper
  rw [literal_eq h, signText]
  split
  · rfl
  · rw [List.nil_append, htext]
    cases hwhole : (Digits.ofCode (magnitude x)).spelling.whole with
    | nil => exact absurd hwhole hproper.whole_ne_nil
    | cons first more =>
      exact takeSign_digit (hproper.whole_isDigits first (by simp [hwhole])) _

theorem isNumeral_literal (h : magnitude x < infinityCode) : ∀ b ∈ literal x, IsNumeral b := by
  intro b hb
  rw [literal_eq h] at hb
  rcases List.mem_append.mp hb with hb | hb
  · rw [eq_of_mem_signText hb]
    exact Or.inr (Or.inr (Or.inl rfl))
  · exact Spelling.isNumeral_text (spelling_ofCode h).1 b hb

theorem looksNumeric_literal (h : magnitude x < infinityCode) :
    looksNumeric (literal x) = true := by
  have hproper := (spelling_ofCode h).1
  obtain ⟨b, rest, htext, _⟩ := Spelling.exists_text_eq hproper
  cases hwhole : (Digits.ofCode (magnitude x)).spelling.whole with
  | nil => exact absurd hwhole hproper.whole_ne_nil
  | cons first more =>
    refine looksNumeric_of_digit (t := more ++ b :: rest)
      (hproper.whole_isDigits first (by simp [hwhole])) ?_
    rw [takeSign_literal h, htext, hwhole]
    rfl

/-- Only vast doubles are taken for integers, too large ones. -/
theorem scanInteger_literal (h : magnitude x < infinityCode) :
    scanInteger (literal x) = if IsVast (magnitude x) then .tooLarge else .notOne := by
  obtain ⟨hproper, _, hvast⟩ := spelling_ofCode h
  rw [scanInteger, takeSign_literal h]
  simp only [Spelling.scanDigits_text hproper, ← hvast]
  by_cases hlarge : 2 * signBit ≤ number (Digits.ofCode (magnitude x)).spelling.whole
  · rw [if_neg (by omega), if_pos hlarge]
  · rw [if_pos (by omega), if_neg hlarge]

/-- The literal of a finite double is scanned to the double, bit by bit. -/
theorem scanDouble_literal (h : magnitude x < infinityCode) :
    scanDouble (literal x) = .value x := by
  obtain ⟨hproper, hcode, _⟩ := spelling_ofCode h
  have hbytes : ∀ b ∈ literal x, b ≠ 95 := fun b hb =>
    (not_special_of_isNumeral (isNumeral_literal h b hb)).1
  have hplain : (literal x).contains 95 = false := by
    rw [Bool.eq_false_iff]
    intro hmem
    exact hbytes 95 (List.contains_iff_mem.mp hmem) rfl
  have hfilter : (literal x).filter (· != 95) = literal x :=
    List.filter_eq_self.mpr fun b hb => by simp [hbytes b hb]
  have hbits := magnitude_add_sign x
  have hback : Float.ofBits x.toBits.toNat.toUInt64 = x := by
    have hround : x.toBits.toNat.toUInt64 = x.toBits := UInt64.ofNat_toNat
    rw [hround, Float.ofBits_toBits]
  rw [scanDouble]
  simp only [hplain, Bool.false_and, Bool.false_eq_true, if_false, hfilter, takeSign_literal h,
    Spelling.unsignedCode?_text hproper, hcode, if_neg (not_le.mpr h)]
  by_cases hneg : isNegative x = true
  · simp only [hneg, if_true] at hbits ⊢
    rw [hbits, hback]
  · simp only [hneg, Bool.false_eq_true, if_false, Nat.add_zero] at hbits ⊢
    rw [hbits, hback]

end Reading

end Lisp.Number

namespace Lisp.Datum

open Number

theorem isSpelled_float {x : Float} (h : magnitude x < infinityCode) : (float x).IsSpelled := by
  refine ⟨?_, fun b hb => plain_of_isNumeral (isNumeral_literal h b hb)⟩
  intro hnil
  have hnumeric := looksNumeric_literal h
  rw [show literal x = [] from hnil] at hnumeric
  exact absurd hnumeric (by decide)

/-- The literal of a finite double is refused when the double is vast, and else read as it. -/
theorem ofAtom_literal {x : Float} (h : magnitude x < infinityCode) :
    ∃ first rest, (float x).text = first :: rest ∧
      ofAtom (first :: rest) = if IsVast (magnitude x) then .error (.integerRange (literal x))
        else .ok (float x) := by
  have hspelled : IsWord (float x).text := isSpelled_float h
  cases htext : (float x).text with
  | nil => exact absurd htext hspelled.1
  | cons first rest =>
    have hliteral : literal x = first :: rest := htext
    refine ⟨first, rest, rfl, ?_⟩
    rw [ofAtom_of_isWord (htext ▸ hspelled), ofWord_cons, ← hliteral, looksNumeric_literal h,
      scanInteger_literal h]
    by_cases hvast : IsVast (magnitude x)
    · simp [hvast]
    · simp [hvast, scanDouble_literal h]

theorem isReadable_float {x : Float} (h : magnitude x < infinityCode)
    (hvast : ¬ IsVast (magnitude x)) : (float x).IsReadable := by
  obtain ⟨first, rest, htext, hword⟩ := ofAtom_literal h
  exact ⟨first, rest, htext, by rw [hword, if_neg hvast]⟩

theorem isRefused_float {x : Float} (h : magnitude x < infinityCode)
    (hvast : IsVast (magnitude x)) : (float x).IsRefused := by
  obtain ⟨first, rest, htext, hword⟩ := ofAtom_literal h
  refine ⟨by simp [IsLeaf], by simp, first, rest, .integerRange (literal x), htext, ?_⟩
  rw [hword, if_pos hvast]

end Lisp.Datum
