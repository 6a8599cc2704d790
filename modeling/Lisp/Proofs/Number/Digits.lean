import Lisp.Proofs.Datum.Reading
import Mathlib.Algebra.Group.Nat.Defs

/-!
Digits as text. The digits of a number are scanned back to that number, or are found too large when
it does not fit into 64 bits; so the text of every integer is a word that reads as the integer.
-/
namespace Lisp

namespace Text

def IsDigits (t : Text) : Prop := ∀ b ∈ t, isDigit b = true

/-- The number that digits make behind the digits of `n`. -/
def numberFrom (n : Nat) (t : Text) : Nat := t.foldl (fun n b => n * 10 + digitValue b) n

def number (t : Text) : Nat := numberFrom 0 t

theorem numberFrom_append (n : Nat) (s t : Text) :
    numberFrom n (s ++ t) = numberFrom (numberFrom n s) t := List.foldl_append

theorem numberFrom_eq (n : Nat) (t : Text) : numberFrom n t = n * 10 ^ t.length + number t := by
  induction t generalizing n with
  | nil => simp [numberFrom, number]
  | cons b t ih =>
    have hcons : ∀ m, numberFrom m (b :: t) = numberFrom (m * 10 + digitValue b) t := fun _ => rfl
    rw [number, hcons, hcons, ih, ih (0 * 10 + digitValue b), List.length_cons, Nat.pow_succ]
    rw [Nat.add_mul, Nat.add_mul, Nat.mul_assoc, Nat.mul_comm 10]
    omega

theorem number_append (s t : Text) : number (s ++ t) = number s * 10 ^ t.length + number t := by
  rw [number, numberFrom_append, numberFrom_eq, ← number]

theorem digitValue_lt {b : UInt8} (h : isDigit b = true) : digitValue b < 10 := by
  simp only [isDigit, Bool.and_eq_true, decide_eq_true_eq, UInt8.le_iff_toNat_le] at h
  have htop : b.toNat ≤ 57 := h.2
  rw [digitValue]
  omega

theorem number_lt {t : Text} (h : IsDigits t) : number t < 10 ^ t.length := by
  induction t with
  | nil => simp [number, numberFrom]
  | cons b t ih =>
    have hb := digitValue_lt (h b List.mem_cons_self)
    have ht := ih fun c hc => h c (List.mem_cons_of_mem b hc)
    have hsingle : number [b] = digitValue b := by simp [number, numberFrom]
    rw [← List.singleton_append, number_append, hsingle]
    calc digitValue b * 10 ^ t.length + number t < digitValue b * 10 ^ t.length + 10 ^ t.length :=
          Nat.add_lt_add_left ht _
      _ = (digitValue b + 1) * 10 ^ t.length := (Nat.succ_mul ..).symm
      _ ≤ 10 * 10 ^ t.length := Nat.mul_le_mul_right _ hb
      _ = 10 ^ ([b] ++ t).length := by rw [Nat.mul_comm, ← Nat.pow_succ, List.singleton_append,
            List.length_cons]

theorem ofNat_eq (n : Nat) :
    ofNat n = (if n < 10 then [] else ofNat (n / 10)) ++ [(Nat.digitChar (n % 10)).toUInt8] := by
  rw [ofNat, Nat.toDigits_eq_if (by decide)]
  split
  · rename_i h
    rw [Nat.mod_eq_of_lt h]
    rfl
  · rw [List.map_append]
    rfl

/-- What the digit characters are as bytes. -/
theorem digitChar_spec {d : Nat} (h : d < 10) :
    isDigit (Nat.digitChar d).toUInt8 = true ∧ digitValue (Nat.digitChar d).toUInt8 = d := by
  revert d
  decide

theorem isDigits_ofNat (n : Nat) : IsDigits (ofNat n) := by
  induction n using Nat.strongRecOn with
  | ind n ih =>
    intro b hb
    rw [ofNat_eq, List.mem_append] at hb
    rcases hb with hb | hb
    · split at hb
      · cases hb
      · exact ih (n / 10) (by omega) b hb
    · rw [List.mem_singleton.mp hb]
      exact (digitChar_spec (Nat.mod_lt n (by decide))).1

@[simp] theorem number_ofNat (n : Nat) : number (ofNat n) = n := by
  induction n using Nat.strongRecOn with
  | ind n ih =>
    have hlast := (digitChar_spec (Nat.mod_lt n (by decide))).2
    rw [ofNat_eq, number_append, List.length_singleton]
    have hsingle : number [(Nat.digitChar (n % 10)).toUInt8] = n % 10 := by
      simp [number, numberFrom, hlast]
    rw [hsingle]
    split
    · simp only [number, numberFrom, List.foldl_nil]
      omega
    · rw [ih (n / 10) (by omega)]
      omega

theorem ofNat_ne_nil (n : Nat) : ofNat n ≠ [] := by
  rw [ofNat_eq]
  simp

theorem plain_of_isDigit {b : UInt8} (h : isDigit b = true) : Role.of b = .plain := by
  have hall : ∀ k : Fin 256, isDigit (UInt8.ofFin k) = true → Role.of (UInt8.ofFin k) = .plain := by
    decide +kernel
  exact hall b.toFin h

end Text

namespace Number

open Text

theorem takeSign_digit {b : UInt8} (h : isDigit b = true) (t : Text) :
    takeSign (b :: t) = (.plus, b :: t) := by
  unfold takeSign
  split
  · rename_i heq
    cases heq
    exact absurd h (by decide)
  · rename_i heq
    cases heq
    exact absurd h (by decide)
  · rfl

theorem takeSign_ofNat (n : Nat) : takeSign (ofNat n) = (.plus, ofNat n) := by
  cases hdigits : ofNat n with
  | nil => exact absurd hdigits (ofNat_ne_nil n)
  | cons b t => exact takeSign_digit (isDigits_ofNat n b (by simp [hdigits])) t

theorem looksNumeric_of_digit {word : Text} {b : UInt8} {t : Text} (h : isDigit b = true)
    (hword : (takeSign word).2 = b :: t) : looksNumeric word = true := by
  have hpoint : b ≠ 46 := by
    rintro rfl
    exact absurd h (by decide)
  simp [looksNumeric, hword, hpoint, h]

/-- Digits are scanned to their number, unless that is too large. -/
theorem scanDigits_append {t : Text} (ht : IsDigits t) {n : Nat} (hn : n < 2 * signBit)
    (rest : Text) :
    scanDigits n (t ++ rest) =
      if numberFrom n t < 2 * signBit then scanDigits (numberFrom n t) rest else .tooLarge := by
  induction t generalizing n with
  | nil => simp [numberFrom, hn]
  | cons b t ih =>
    have hb := ht b List.mem_cons_self
    have hcons : numberFrom n (b :: t) = numberFrom (n * 10 + digitValue b) t := rfl
    rw [List.cons_append, scanDigits, hcons]
    simp only [hb, Bool.not_true, Bool.false_eq_true, if_false]
    by_cases hlarge : 2 * signBit ≤ n * 10 + digitValue b
    · have hgrow : n * 10 + digitValue b ≤ numberFrom (n * 10 + digitValue b) t := by
        rw [numberFrom_eq]
        exact Nat.le_trans (Nat.le_mul_of_pos_right _ (Nat.pow_pos (by decide)))
          (Nat.le_add_right ..)
      rw [if_pos hlarge, if_neg (by omega)]
    · rw [if_neg hlarge]
      exact ih (fun c hc => ht c (List.mem_cons_of_mem b hc)) (by omega)

theorem scanDigits_ofNat {n : Nat} (h : n < 2 * signBit) : scanDigits 0 (ofNat n) = .value n := by
  have hscan := scanDigits_append (isDigits_ofNat n) (n := 0) (by decide) []
  rw [List.append_nil, ← number, number_ofNat, if_pos h] at hscan
  exact hscan

/-- The text of an integer is scanned to the integer. -/
theorem scanInteger_ofInt (n : Int64) : scanInteger (ofInt n.toInt) = .value n := by
  have hlow := n.le_toInt
  have hhigh := n.toInt_lt
  have hsign : signBit = 2 ^ 63 := rfl
  cases hn : n.toInt with
  | ofNat k =>
    have hk : k < signBit := by
      rw [hn, Int.ofNat_eq_natCast] at hhigh
      omega
    simp only [ofInt, scanInteger, takeSign_ofNat, scanDigits_ofNat (n := k) (by omega), if_pos hk]
    rw [← Int64.ofInt_toInt n, hn, Int.ofNat_eq_natCast, Int64.ofInt_eq_ofNat]
  | negSucc k =>
    have hk : k + 1 ≤ signBit := by omega
    have hminus : takeSign (Text.of "-" ++ ofNat (k + 1)) = (.minus, ofNat (k + 1)) := rfl
    simp only [ofInt, scanInteger, hminus, scanDigits_ofNat (n := k + 1) (by omega), if_pos hk]
    rw [← Int64.ofInt_toInt n, hn, Int.negSucc_eq, Int64.ofInt_neg, ← Int64.ofInt_eq_ofNat]
    rfl

theorem looksNumeric_ofInt (n : Int) : looksNumeric (ofInt n) = true := by
  have hfirst : ∃ k, (takeSign (ofInt n)).2 = ofNat k := by
    cases n with
    | ofNat k => exact ⟨k, by rw [ofInt, takeSign_ofNat]⟩
    | negSucc k => exact ⟨k + 1, rfl⟩
  obtain ⟨k, hk⟩ := hfirst
  cases hdigits : ofNat k with
  | nil => exact absurd hdigits (ofNat_ne_nil k)
  | cons b t =>
    exact looksNumeric_of_digit (isDigits_ofNat k b (by simp [hdigits])) (hk.trans hdigits)

theorem isWord_ofInt (n : Int) : IsWord (ofInt n) := by
  have hdigits : ∀ k, IsWord (ofNat k) := fun k =>
    ⟨ofNat_ne_nil k, fun b hb => plain_of_isDigit (isDigits_ofNat k b hb)⟩
  cases n with
  | ofNat k => exact hdigits k
  | negSucc k =>
    refine ⟨List.cons_ne_nil 45 _, ?_⟩
    intro b hb
    rcases List.mem_append.mp hb with hb | hb
    · rw [List.mem_singleton.mp hb]
      decide
    · exact (hdigits (k + 1)).2 b hb

end Number

/-- Every integer is written as a word that reads as the integer. -/
theorem Datum.int_isReadable (n : Int64) : (int n).IsSpelled ∧ (int n).IsReadable := by
  have hword := Number.isWord_ofInt n.toInt
  refine ⟨hword, ?_⟩
  cases htext : Text.ofInt n.toInt with
  | nil => exact absurd htext hword.1
  | cons first rest =>
    refine ⟨first, rest, htext, ?_⟩
    rw [ofAtom_of_isWord (htext ▸ hword), ofWord_cons, ← htext, Number.looksNumeric_ofInt,
      Number.scanInteger_ofInt]
    rfl

end Lisp
