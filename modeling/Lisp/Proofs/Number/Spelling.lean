import Lisp.Proofs.Number.Digits
import Lisp.Proofs.Number.Nearest

/-!
Spellings of unsigned numbers: digits, then a point with more digits or an exponent or both. A
spelling is scanned as the decimal that it spells. As an integer it is no number, unless the digits
in front of the point exceed 64 bits: then it is too large, whatever comes after them.
-/
namespace Lisp.Number

open Text

/-- An unsigned number as it is written. -/
structure Spelling where
  whole : Text
  fraction : Text
  exponent : Option Int

namespace Spelling

def exponentPart (s : Spelling) : Text :=
  match s.exponent with
  | none => []
  | some e => Digits.exponentText e

def text (s : Spelling) : Text :=
  s.whole ++ (if s.fraction = [] then [] else 46 :: s.fraction) ++ s.exponentPart

/-- The number that is spelled. -/
def decimal (s : Spelling) : Decimal :=
  ⟨number (s.whole ++ s.fraction), s.exponent.getD 0 - Int.ofNat s.fraction.length⟩

/-- Digits where digits belong, and something that keeps the text apart from an integer. -/
structure IsProper (s : Spelling) : Prop where
  whole_ne_nil : s.whole ≠ []
  whole_isDigits : IsDigits s.whole
  fraction_isDigits : IsDigits s.fraction
  length_whole_le : s.whole.length ≤ 21
  exponent_lt : ∀ e ∈ s.exponent, e.natAbs < 10000
  marked : s.fraction ≠ [] ∨ s.exponent.isSome

end Spelling

theorem digitIn?_digit {b : UInt8} (h : isDigit b = true) :
    digitIn? 10 b = some (digitValue b) := by
  simp [digitIn?, h]

theorem isSome_digitIn? (b : UInt8) : (digitIn? 10 b).isSome = isDigit b := by
  unfold digitIn?
  split
  · simp [*]
  · simp [*]

/-- The digits in front of something that is none. -/
theorem takeDigits_append {t : Text} (ht : IsDigits t) {rest : Text}
    (hrest : ∀ b ∈ rest.head?, isDigit b = false) :
    Mantissa.takeDigits 10 (t ++ rest) = (t.map digitValue, rest) := by
  have hfront : ∀ b ∈ t, (digitIn? 10 b).isSome = true := by
    intro b hb
    rw [isSome_digitIn?, ht b hb]
  have hstop : rest.takeWhile (fun b => (digitIn? 10 b).isSome) = [] ∧
      rest.dropWhile (fun b => (digitIn? 10 b).isSome) = rest := by
    cases rest with
    | nil => simp
    | cons b rest =>
      have hb : (digitIn? 10 b).isSome = false := by
        rw [isSome_digitIn?]
        exact hrest b (by simp)
      simp [hb]
  have hvalues : t.filterMap (digitIn? 10) = t.map digitValue := by
    induction t with
    | nil => rfl
    | cons b t ih =>
      have htail : IsDigits t := fun c hc => ht c (List.mem_cons_of_mem b hc)
      have hfrontTail : ∀ c ∈ t, (digitIn? 10 c).isSome = true := fun c hc =>
        hfront c (List.mem_cons_of_mem b hc)
      simp [digitIn?_digit (ht b List.mem_cons_self), ih htail hfrontTail]
  rw [Mantissa.takeDigits, List.span_eq_takeWhile_dropWhile,
    List.takeWhile_append_of_pos hfront, List.dropWhile_append_of_pos hfront, hstop.1, hstop.2,
    List.append_nil]
  simp only [hvalues]

/-- A mantissa is taken up to what can be neither a digit nor a point. -/
theorem take_append {w f rest : Text} (hw : IsDigits w) (hf : IsDigits f)
    (hrest : ∀ b ∈ rest.head?, isDigit b = false ∧ b ≠ 46) :
    Mantissa.take 10 (w ++ (if f = [] then [] else 46 :: f) ++ rest) =
      ⟨w.map digitValue, f.map digitValue, rest⟩ := by
  have hdigit : ∀ b ∈ rest.head?, isDigit b = false := fun b hb => (hrest b hb).1
  by_cases hnone : f = []
  · rw [if_pos hnone, List.append_nil, Mantissa.take, takeDigits_append hw hdigit]
    split
    · rename_i heq
      cases heq
      exact absurd rfl (hrest 46 (by simp)).2
    · rename_i heq
      cases heq
      simp [hnone]
  · have hpoint : ∀ b ∈ (46 :: f ++ rest).head?, isDigit b = false := by
      intro b hb
      cases hb
      decide
    rw [if_neg hnone, List.append_assoc, Mantissa.take, takeDigits_append hw hpoint,
      List.cons_append]
    simp only [takeDigits_append hf hdigit]

/-- The number of a mantissa whose digits were taken from text. -/
theorem value_map_digitValue (w f rest : Text) :
    Mantissa.value 10 ⟨w.map digitValue, f.map digitValue, rest⟩ = number (w ++ f) := by
  rw [Mantissa.value, ofDigits_eq, List.foldr_reverse, Mantissa.digits, ← List.map_append,
    List.foldl_map, number, numberFrom]
  congr 1
  funext n b
  omega

/-- With few digits in front of the point all digits count. -/
theorem decimalCode_map_digitValue {w : Text} (hw : w.length ≤ 21) (f rest : Text) (e : Int) :
    Mantissa.decimalCode ⟨w.map digitValue, f.map digitValue, rest⟩ e =
      Decimal.code ⟨number (w ++ f), e - Int.ofNat f.length⟩ := by
  have hsurplus : Mantissa.size ⟨w.map digitValue, f.map digitValue, rest⟩ - f.length -
      wholeDigits = 0 := by
    have hsize : Mantissa.size ⟨w.map digitValue, f.map digitValue, rest⟩ ≤
        w.length + f.length := by
      refine le_trans (List.dropWhile_sublist _).length_le ?_
      simp [Mantissa.digits]
    have hwhole : wholeDigits = 800 := rfl
    omega
  rw [Mantissa.decimalCode]
  simp only [List.length_map, hsurplus, if_true, value_map_digitValue]

/-- Exponents of up to four digits are taken whole. -/
theorem exponentValue_eq {t : Text} (h : number t < 10000) : exponentValue t = number t := by
  have hfrom : ∀ (t : Text) (n : Nat), numberFrom n t < 10000 →
      t.foldl (fun e b => if e < 10000 then e * 10 + digitValue b else e) n = numberFrom n t := by
    intro t
    induction t with
    | nil => intros; rfl
    | cons b t ih =>
      intro n hn
      have hgrow : n ≤ numberFrom n (b :: t) := by
        rw [numberFrom_eq]
        exact Nat.le_trans (Nat.le_mul_of_pos_right n (Nat.pow_pos (by decide)))
          (Nat.le_add_right ..)
      rw [List.foldl_cons, if_pos (by omega)]
      exact ih (n * 10 + digitValue b) hn
  exact hfrom t 0 h

/-- The bytes of number literals. -/
def IsNumeral (b : UInt8) : Prop := isDigit b = true ∨ b = 43 ∨ b = 45 ∨ b = 46 ∨ b = 101

theorem plain_of_isNumeral {b : UInt8} (h : IsNumeral b) : Role.of b = .plain := by
  rcases h with h | rfl | rfl | rfl | rfl
  · exact plain_of_isDigit h
  all_goals decide

/-- Neither an underscore nor the mark of a hexadecimal number is among them. -/
theorem not_special_of_isNumeral {b : UInt8} (h : IsNumeral b) : b ≠ 95 ∧ lower b ≠ 120 := by
  rcases h with h | rfl | rfl | rfl | rfl
  · have hall : ∀ k : Fin 256, isDigit (UInt8.ofFin k) = true →
        UInt8.ofFin k ≠ 95 ∧ lower (UInt8.ofFin k) ≠ 120 := by decide +kernel
    exact hall b.toFin h
  all_goals decide

/-- The digits of an exponent, of which there are two at least. -/
theorem exponentText_spec {e : Int} (h : e.natAbs < 10000) :
    ∃ t, Digits.exponentText e = 101 :: t ∧ wholeExponent? t = some e ∧ ∀ b ∈ t, IsNumeral b := by
  let digits := ofNat e.natAbs
  let padded : Text := if digits.length < 2 then 48 :: digits else digits
  have hdigits : IsDigits padded := by
    intro b hb
    have hmem : b = 48 ∨ b ∈ digits := by
      simp only [padded] at hb
      split at hb
      · exact List.mem_cons.mp hb
      · exact Or.inr hb
    rcases hmem with rfl | hmem
    · decide
    · exact isDigits_ofNat _ b hmem
  have hnumber : number padded = e.natAbs := by
    have hzero : number (48 :: digits) = number digits := by
      simp [number, numberFrom, digitValue]
    simp only [padded]
    split
    · rw [hzero, number_ofNat]
    · exact number_ofNat _
  have hne : padded ≠ [] := by
    simp only [padded]
    split
    · simp
    · exact ofNat_ne_nil _
  have hall : padded.all isDigit = true := List.all_eq_true.mpr hdigits
  have hvalue : exponentValue padded = e.natAbs := by
    rw [exponentValue_eq (by omega), hnumber]
  by_cases hneg : e < 0
  · refine ⟨45 :: padded, by rw [Digits.exponentText, if_pos hneg]; rfl, ?_, ?_⟩
    · simp only [wholeExponent?, takeSign, hne, hall, hvalue, decide_false, Bool.not_true,
        Bool.or_self, Bool.false_eq_true, if_false]
      congr 1
      omega
    · intro b hb
      rcases List.mem_cons.mp hb with rfl | hb
      · exact Or.inr (Or.inr (Or.inl rfl))
      · exact Or.inl (hdigits b hb)
  · refine ⟨43 :: padded, by rw [Digits.exponentText, if_neg hneg]; rfl, ?_, ?_⟩
    · simp only [wholeExponent?, takeSign, hne, hall, hvalue, decide_false, Bool.not_true,
        Bool.or_self, Bool.false_eq_true, if_false]
      congr 1
      omega
    · intro b hb
      rcases List.mem_cons.mp hb with rfl | hb
      · exact Or.inr (Or.inl rfl)
      · exact Or.inl (hdigits b hb)

namespace Spelling

variable {s : Spelling}

theorem exponentPart_cases (h : s.IsProper) :
    (s.exponent = none ∧ s.exponentPart = []) ∨
      ∃ e t, s.exponent = some e ∧ s.exponentPart = 101 :: t ∧ wholeExponent? t = some e ∧
        ∀ b ∈ t, IsNumeral b := by
  unfold exponentPart
  cases hexp : s.exponent with
  | none => exact Or.inl ⟨rfl, rfl⟩
  | some e =>
    obtain ⟨t, htext, hvalue, hbytes⟩ := exponentText_spec (h.exponent_lt e hexp)
    exact Or.inr ⟨e, t, rfl, htext, hvalue, hbytes⟩

theorem isNumeral_text (h : s.IsProper) : ∀ b ∈ s.text, IsNumeral b := by
  intro b hb
  rcases List.mem_append.mp hb with hb | hb
  · rcases List.mem_append.mp hb with hb | hb
    · exact Or.inl (h.whole_isDigits b hb)
    · split at hb
      · cases hb
      · rcases List.mem_cons.mp hb with rfl | hb
        · exact Or.inr (Or.inr (Or.inr (Or.inl rfl)))
        · exact Or.inl (h.fraction_isDigits b hb)
  · rcases exponentPart_cases h with ⟨_, hnone⟩ | ⟨e, t, _, hsome, _, hbytes⟩
    · rw [hnone] at hb
      cases hb
    · rw [hsome] at hb
      rcases List.mem_cons.mp hb with rfl | hb
      · exact Or.inr (Or.inr (Or.inr (Or.inr rfl)))
      · exact hbytes b hb

/-- What follows the whole part is not empty and starts with a point or an exponent. -/
theorem exists_text_eq (h : s.IsProper) :
    ∃ b rest, s.text = s.whole ++ b :: rest ∧ isDigit b = false := by
  rw [text]
  rcases exponentPart_cases h with ⟨hexp, hnone⟩ | ⟨e, t, _, hsome, _, _⟩
  · have hfraction : s.fraction ≠ [] := by
      rcases h.marked with hmarked | hmarked
      · exact hmarked
      · simp [hexp] at hmarked
    exact ⟨46, s.fraction, by simp [hnone, hfraction], by decide⟩
  · by_cases hfraction : s.fraction = []
    · exact ⟨101, t, by simp [hsome, hfraction], by decide⟩
    · exact ⟨46, s.fraction ++ 101 :: t, by simp [hsome, hfraction], by decide⟩

/-- As an integer a spelling is none, or the digits of its whole part are too many. -/
theorem scanDigits_text (h : s.IsProper) :
    scanDigits 0 s.text = if number s.whole < 2 * signBit then .notOne else .tooLarge := by
  obtain ⟨b, rest, htext, hb⟩ := exists_text_eq h
  rw [htext, scanDigits_append h.whole_isDigits (by decide), ← number]
  split
  · rw [scanDigits]
    simp [hb]
  · rfl

theorem decimalCode?_text (h : s.IsProper) : decimalCode? s.text = some s.decimal.code := by
  have hstop : ∀ b ∈ s.exponentPart.head?, isDigit b = false ∧ b ≠ 46 := by
    intro b hb
    rcases exponentPart_cases h with ⟨_, hnone⟩ | ⟨e, t, _, hsome, _, _⟩
    · simp [hnone] at hb
    · simp only [hsome, List.head?_cons, Option.mem_def, Option.some.injEq] at hb
      subst hb
      decide
  have htake := take_append h.whole_isDigits h.fraction_isDigits hstop
  have hdigits : (s.whole.map digitValue ++ s.fraction.map digitValue) ≠ [] := by
    simp [h.whole_ne_nil]
  have hcode := decimalCode_map_digitValue h.length_whole_le s.fraction s.exponentPart
  rw [decimalCode?, text, htake]
  simp only [Mantissa.digits, hdigits, if_false]
  rcases exponentPart_cases h with ⟨hexp, hnone⟩ | ⟨e, t, hexp, hsome, hvalue, _⟩
  · rw [hnone] at hcode ⊢
    simp only [hcode, decimal, hexp, Option.getD_none]
  · rw [hsome] at hcode ⊢
    have hlower : lower 101 = 101 := by decide
    simp [hlower, hvalue, hcode, decimal, hexp]

theorem unsignedCode?_text (h : s.IsProper) : unsignedCode? s.text = some s.decimal.code := by
  rw [← decimalCode?_text h]
  unfold unsignedCode?
  split
  · rename_i x b rest htext
    have hx := (not_special_of_isNumeral (isNumeral_text h x (by simp [htext]))).2
    simp [hx, htext]
  · rfl

/-- Without an exponent the number lies between its whole part and the next one. -/
theorem whole_bounds (h : s.IsProper) (hexp : s.exponent = none) :
    (number s.whole : ℚ) ≤ s.decimal.value ∧ s.decimal.value < (number s.whole : ℚ) + 1 := by
  have hpow : (0 : ℚ) < 10 ^ s.fraction.length := by positivity
  have hlt : (number s.fraction : ℚ) < 10 ^ s.fraction.length := by
    exact_mod_cast number_lt h.fraction_isDigits
  have hzero : (0 : ℚ) ≤ number s.fraction := Nat.cast_nonneg _
  have hvalue : s.decimal.value =
      (number s.whole * 10 ^ s.fraction.length + number s.fraction) / 10 ^ s.fraction.length := by
    simp only [decimal, Decimal.value, hexp, Option.getD_none, number_append, zero_sub,
      Int.ofNat_eq_natCast, zpow_neg, zpow_natCast]
    push_cast
    rw [div_eq_mul_inv]
  rw [hvalue, le_div_iff₀ hpow, div_lt_iff₀ hpow]
  constructor <;> nlinarith

end Spelling

end Lisp.Number
