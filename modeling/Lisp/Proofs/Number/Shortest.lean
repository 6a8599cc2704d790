import Lisp.Proofs.Number.Nearest

/-!
The decimal written for a double stands for it. With seventeen digits the decimals around a double
are closer to each other than the double is to its neighbours, so the search for a short one ends.
-/
namespace Lisp.Number

/-- The guess for the decimal order never exceeds it. -/
theorem ten_zpow_le_two_zpow {k : Int} (hlow : -1074 ≤ k) (hhigh : k ≤ 1023) :
    (10 : ℚ) ^ (k * 30103 / 100000) ≤ (2 : ℚ) ^ k := by
  rcases Int.le_total 0 k with hk | hk
  · obtain ⟨j, rfl⟩ := Int.eq_ofNat_of_zero_le hk
    have htable : ∀ j < 1024, 10 ^ (j * 30103 / 100000) ≤ 2 ^ j := by decide +kernel
    have hexp : (j : Int) * 30103 / 100000 = ((j * 30103 / 100000 : Nat) : Int) := by omega
    rw [hexp, zpow_natCast, zpow_natCast]
    exact_mod_cast htable j (by omega)
  · obtain ⟨j, rfl⟩ : ∃ j : Nat, k = -(j : Int) := ⟨k.natAbs, by omega⟩
    have htable : ∀ j < 1075, 2 ^ j ≤ 10 ^ ((j * 30103 + 99999) / 100000) := by decide +kernel
    have hexp : -(j : Int) * 30103 / 100000 = -(((j * 30103 + 99999) / 100000 : Nat) : Int) := by
      omega
    rw [hexp, zpow_neg, zpow_neg, zpow_natCast, zpow_natCast]
    refine inv_anti₀ (by positivity) ?_
    exact_mod_cast htable j (by omega)

/-- A finite positive code as a quotient. -/
theorem ratio_parts {code : Nat} (hpos : 0 < code) :
    0 < (scaled 2 (parts code).1 1 (parts code).2).1 ∧
      0 < (scaled 2 (parts code).1 1 (parts code).2).2 ∧
      ratio (scaled 2 (parts code).1 1 (parts code).2).1
        (scaled 2 (parts code).1 1 (parts code).2).2 = valueOf code := by
  obtain ⟨hm, _⟩ := parts_bounds hpos
  obtain ⟨hden, heq⟩ := scaled_spec (n := (parts code).1) Nat.two_pos Nat.one_pos (parts code).2
  refine ⟨scaled_fst_pos Nat.two_pos hm 1 (parts code).2, hden, heq.trans ?_⟩
  simp [valueOf, ratio]

/-- Finite doubles lie between 2^-1074 and 2^1024. -/
theorem valueOf_bounds {code : Nat} (hpos : 0 < code) (hfinite : code < infinityCode) :
    (2 : ℚ) ^ (-1074 : Int) ≤ valueOf code ∧ valueOf code < (2 : ℚ) ^ (1024 : Int) := by
  obtain ⟨hm, hmhigh, hq, _⟩ := parts_bounds hpos
  have hqhigh : (parts code).2 ≤ 971 := by
    have hfield : code / octave < 2047 := Nat.div_lt_of_lt_mul (by rwa [Nat.mul_comm])
    unfold parts
    simp only
    split
    · simp
    · simp only [Int.ofNat_eq_natCast]
      generalize code / octave = field at hfield
      omega
  have hone : (1 : ℚ) ≤ (parts code).1 := by exact_mod_cast hm
  have htop : ((parts code).1 : ℚ) < 2 ^ 53 := by exact_mod_cast hmhigh
  have hunit : (0 : ℚ) < (2 : ℚ) ^ (parts code).2 := zpow_pos two_pos _
  have hlow : (2 : ℚ) ^ (-1074 : Int) ≤ 2 ^ (parts code).2 := zpow_le_zpow_right₀ one_le_two hq
  have hhigh : (2 : ℚ) ^ (parts code).2 ≤ 2 ^ (971 : Int) := zpow_le_zpow_right₀ one_le_two hqhigh
  unfold valueOf
  constructor
  · nlinarith
  · calc ((parts code).1 : ℚ) * 2 ^ (parts code).2 < 2 ^ 53 * 2 ^ (parts code).2 :=
          mul_lt_mul_of_pos_right htop hunit
      _ ≤ 2 ^ 53 * 2 ^ (971 : Int) := mul_le_mul_of_nonneg_left hhigh (by positivity)
      _ = 2 ^ (1024 : Int) := by rw [← zpow_natCast, ← zpow_add₀ two_ne_zero]; norm_num

namespace Decimal

/-- The order of a double does not exceed it. -/
theorem ten_zpow_order_le {n d : Nat} (hn : 0 < n) (hd : 0 < d)
    (hlow : (2 : ℚ) ^ (-1074 : Int) ≤ ratio n d) (hhigh : ratio n d < (2 : ℚ) ^ (1024 : Int)) :
    (10 : ℚ) ^ order n d ≤ ratio n d := by
  obtain ⟨hle, hlt⟩ := binaryOrder_spec hn hd
  have hmin : -1074 < binaryOrder n d + 1 :=
    (zpow_lt_zpow_iff_right₀ one_lt_two).mp (lt_of_le_of_lt hlow hlt)
  have hmax : binaryOrder n d < 1024 :=
    (zpow_lt_zpow_iff_right₀ one_lt_two).mp (lt_of_le_of_lt hle hhigh)
  set guess := binaryOrder n d * 30103 / 100000 with hguess
  have hguessLe : (10 : ℚ) ^ guess ≤ ratio n d :=
    le_trans (ten_zpow_le_two_zpow (by omega) (by omega)) hle
  obtain ⟨hpos, hscaled⟩ := scaled_spec (b := 10) (n := n) (by decide) hd (-(guess + 1))
  have horder : order n d =
      if (scaled 10 n d (-(guess + 1))).2 ≤ (scaled 10 n d (-(guess + 1))).1 then guess + 1
      else guess := rfl
  rw [horder]
  split
  · rename_i htest
    rw [← one_le_ratio hpos, hscaled, Nat.cast_ofNat, zpow_neg, ← div_eq_mul_inv,
      le_div_iff₀ (by positivity), one_mul] at htest
    exact htest
  · exact hguessLe

theorem code_of_around? {target n d : Nat} {e : Int} {x : Decimal}
    (h : around? target n d e = some x) : x.code = target := by
  unfold around? at h
  simp only at h
  split at h
  · rename_i hboth
    cases h
    split
    · exact hboth.1
    · exact hboth.2
  · split at h
    · cases h
      assumption
    · split at h
      · cases h
        assumption
      · cases h

theorem around?_eq_none {target n d : Nat} {e : Int} (h : around? target n d e = none) :
    code ⟨(scaled 10 n d (-e)).1 / (scaled 10 n d (-e)).2, e⟩ ≠ target ∧
      code ⟨(scaled 10 n d (-e)).1 / (scaled 10 n d (-e)).2 + 1, e⟩ ≠ target := by
  unfold around? at h
  simp only at h
  split at h
  · cases h
  · split at h
    · cases h
    · split at h
      · cases h
      · exact ⟨‹_›, ‹_›⟩

/-- The decimals around a quotient enclose it. -/
theorem around_bounds (n : Nat) {d : Nat} (hd : 0 < d) (e : Int) :
    value ⟨(scaled 10 n d (-e)).1 / (scaled 10 n d (-e)).2, e⟩ ≤ ratio n d ∧
      ratio n d < value ⟨(scaled 10 n d (-e)).1 / (scaled 10 n d (-e)).2 + 1, e⟩ := by
  have hscale : (0 : ℚ) < (10 : ℚ) ^ e := zpow_pos (by norm_num) e
  obtain ⟨hden, hscaled⟩ := scaled_spec (b := 10) (n := n) (by decide) hd (-e)
  obtain ⟨hsplit, hzero, hone⟩ := ratio_split (scaled 10 n d (-e)).1 hden
  rw [hscaled, Nat.cast_ofNat, zpow_neg, ← div_eq_mul_inv, div_eq_iff hscale.ne'] at hsplit
  rw [hsplit, value, value]
  constructor
  · exact mul_le_mul_of_nonneg_right (by linarith) hscale.le
  · refine mul_lt_mul_of_pos_right ?_ hscale
    rw [Nat.cast_succ]
    linarith

/-- Of two neighbouring decimals around a double, with a unit that is small beside the double, one
stands for it. -/
theorem code_of_enclosing {target : Nat} (hpos : 0 < target) (hfinite : target < infinityCode)
    {f : Nat} {e : Int} (hlow : value ⟨f, e⟩ ≤ valueOf target)
    (hhigh : valueOf target < value ⟨f + 1, e⟩)
    (hunit : (10 : ℚ) ^ e * 10 ^ 16 ≤ valueOf target) :
    code ⟨f, e⟩ = target ∨ code ⟨f + 1, e⟩ = target := by
  obtain ⟨_, hmhigh, _, _⟩ := parts_bounds hpos
  have hscale : (0 : ℚ) < (10 : ℚ) ^ e := zpow_pos (by norm_num) e
  have hgap : value ⟨f + 1, e⟩ = value ⟨f, e⟩ + (10 : ℚ) ^ e := by
    simp only [value, Nat.cast_succ]
    ring
  have htop : ((parts target).1 : ℚ) + 1 ≤ 2 ^ 53 := by exact_mod_cast hmhigh
  have hstep : (0 : ℚ) < (2 : ℚ) ^ (parts target).2 := zpow_pos two_pos _
  by_cases hpower : (parts target).1 = octave
  · right
    refine code_of_near hpos hfinite (Nat.succ_pos f) (Or.inl hhigh.le) ?_
    have hvalue : valueOf target = 2 ^ 52 * (2 : ℚ) ^ (parts target).2 := by
      rw [valueOf, hpower]
      norm_num [octave]
    linarith
  · have hwide : (10 : ℚ) ^ e < 2 ^ (parts target).2 := by
      unfold valueOf at hunit
      nlinarith
    have hf : 0 < f := by
      refine Nat.pos_of_ne_zero ?_
      rintro rfl
      have hzero : value ⟨0, e⟩ = 0 := by simp [value]
      linarith
    by_cases hnear : valueOf target - (2 : ℚ) ^ (parts target).2 / 2 < value ⟨f, e⟩
    · exact Or.inl (code_of_near hpos hfinite hf (Or.inr ⟨hpower, hnear⟩) (by linarith))
    · exact Or.inr (code_of_near hpos hfinite (Nat.succ_pos f) (Or.inl hhigh.le) (by linarith))

/-- Seventeen digits suffice. -/
theorem around?_ne_none {target : Nat} (hpos : 0 < target) (hfinite : target < infinityCode)
    {n d : Nat} (hn : 0 < n) (hd : 0 < d) (hvalue : ratio n d = valueOf target) :
    around? target n d (order n d - 16) ≠ none := by
  intro hnone
  obtain ⟨hbelow, habove⟩ := around?_eq_none hnone
  obtain ⟨hlow, hhigh⟩ := around_bounds n hd (order n d - 16)
  obtain ⟨hmin, hmax⟩ := valueOf_bounds hpos hfinite
  rw [hvalue] at hlow hhigh
  rw [← hvalue] at hmin hmax
  have horder := ten_zpow_order_le hn hd hmin hmax
  have hunit : (10 : ℚ) ^ (order n d - 16) * 10 ^ 16 ≤ valueOf target := by
    rw [← hvalue, ← zpow_natCast, ← zpow_add₀ (by norm_num)]
    push_cast
    rwa [sub_add_cancel]
  rcases code_of_enclosing hpos hfinite hlow hhigh hunit with h | h
  · exact hbelow h
  · exact habove h

theorem code_shortest {target : Nat} (hpos : 0 < target) (hfinite : target < infinityCode) :
    (shortest target).code = target := by
  obtain ⟨hn, hd, hvalue⟩ := ratio_parts hpos
  have hsome := around?_ne_none hpos hfinite hn hd hvalue
  unfold shortest
  simp only
  cases hfound : (List.range 17).findSome? _ with
  | none => exact absurd (List.findSome?_eq_none_iff.mp hfound 16 (by simp)) hsome
  | some x =>
    obtain ⟨more, _, hmore⟩ := List.exists_of_findSome?_eq_some hfound
    exact code_of_around? hmore

/-- A decimal that is a double is compared with the other doubles by the codes. -/
theorem code_le_iff {d : Decimal} (hexact : valueOf d.code = d.value) {c : Nat} (hpos : 0 < c)
    (hfinite : c < infinityCode) : d.code ≤ c ↔ d.value ≤ valueOf c := by
  obtain ⟨hn, hden, hvalue⟩ := ratio_parts hpos
  obtain ⟨hden', hvalue'⟩ := ratio_scaled d
  have hself : nearestCode (scaled 2 (parts c).1 1 (parts c).2).1
      (scaled 2 (parts c).1 1 (parts c).2).2 = c := by
    have hunit : (0 : ℚ) < (2 : ℚ) ^ (parts c).2 := zpow_pos two_pos _
    exact nearestCode_of_near hpos hfinite hn hden (Or.inl hvalue.ge) (by linarith)
  constructor
  · intro hle
    by_contra hlt
    have hmono := nearestCode_mono hden hden' (by rw [hvalue, hvalue']; linarith)
    rw [hself] at hmono
    have heq : c = d.code := le_antisymm hmono hle
    rw [heq, hexact] at hlt
    exact hlt le_rfl
  · intro hle
    have hmono := nearestCode_mono hden' hden (by rwa [hvalue, hvalue'])
    rwa [hself] at hmono

end Decimal

end Lisp.Number
