import Lisp.Proofs.Number.Digits
import Mathlib.Algebra.Group.Int.Defs

/-!
What words stand for. A word of digits, with or without a sign, is an integer or out of range; any
other word that looks like a number is a double or out of range as one, or else a symbol. There is
one exception: the digits at the start of a word are found too large for an integer before what
follows them is looked at, so a word that starts with 2^64 or more is refused as an integer out of
range even if it is none.
-/
namespace Lisp

namespace Number

open Text

instance : DecidablePred IsDigits := fun t =>
  inferInstanceAs (Decidable (∀ b ∈ t, isDigit b = true))

/-- A word without its sign: `Signed sign unsigned word`. -/
inductive Signed : Sign → Text → Text → Prop
  | bare (t : Text) : Signed .plus t t
  | plus (t : Text) : Signed .plus t (43 :: t)
  | minus (t : Text) : Signed .minus t (45 :: t)

def Sign.times (n : Nat) : Sign → Int
  | .plus => n
  | .minus => -n

/-- The word is an optional sign and decimal digits, which make the number. -/
def IsInteger (word : Text) (n : Int) : Prop :=
  ∃ sign digits, Signed sign digits word ∧ digits ≠ [] ∧ IsDigits digits ∧
    n = sign.times (number digits)

/-- The word is no integer but starts like one, with digits that make 2^64 or more. -/
def Overruns (word : Text) : Prop :=
  ∃ sign digits b rest, Signed sign (digits ++ b :: rest) word ∧ IsDigits digits ∧
    isDigit b = false ∧ 2 ^ 64 ≤ number digits

variable {sign : Sign} {word unsigned digits rest : Text} {b : UInt8}

theorem signed_takeSign (word : Text) : Signed (takeSign word).1 (takeSign word).2 word := by
  unfold takeSign
  split
  · exact .plus _
  · exact .minus _
  · exact .bare _

/-- Where a digit follows, there is one way to take the sign off. -/
theorem Signed.takeSign_eq (h : Signed sign unsigned word)
    (hfirst : unsigned.head?.any isDigit = true) : takeSign word = (sign, unsigned) := by
  cases h with
  | bare =>
    cases word with
    | nil => cases hfirst
    | cons b t => exact takeSign_digit hfirst t
  | plus => rfl
  | minus => rfl

theorem Signed.looksNumeric (h : Signed sign unsigned word)
    (hfirst : unsigned.head?.any isDigit = true) : looksNumeric word = true := by
  cases unsigned with
  | nil => cases hfirst
  | cons b t => exact looksNumeric_of_digit hfirst (congrArg Prod.snd (h.takeSign_eq hfirst))

theorem head?_digits (hdigits : IsDigits digits) (hne : digits ≠ []) (rest : Text) :
    (digits ++ rest).head?.any isDigit = true := by
  cases digits with
  | nil => exact absurd rfl hne
  | cons b t => exact hdigits b List.mem_cons_self

/-- Digits fill a text, or something else follows them. -/
theorem digits_cases (t : Text) :
    IsDigits t ∨ ∃ digits b rest, t = digits ++ b :: rest ∧ IsDigits digits ∧
      isDigit b = false := by
  induction t with
  | nil => exact .inl (by simp [IsDigits])
  | cons b t ih =>
    by_cases hb : isDigit b = true
    · rcases ih with hall | ⟨digits, c, rest, rfl, hdigits, hc⟩
      · exact .inl (List.forall_mem_cons.mpr ⟨hb, hall⟩)
      · exact .inr ⟨b :: digits, c, rest, rfl, List.forall_mem_cons.mpr ⟨hb, hdigits⟩, hc⟩
    · exact .inr ⟨[], b, t, rfl, by simp [IsDigits], by simpa using hb⟩

/-- Only the digits at the start of a word make the scan end as too large. -/
theorem scanDigits_other (hdigits : IsDigits digits) (hb : isDigit b = false) :
    scanDigits 0 (digits ++ b :: rest) =
      if number digits < 2 * signBit then .notOne else .tooLarge := by
  rw [scanDigits_append hdigits (by decide), ← number]
  split
  · rw [scanDigits]
    simp [hb]
  · rfl

theorem scanDigits_digits (hdigits : IsDigits digits) :
    scanDigits 0 digits =
      if number digits < 2 * signBit then .value (number digits) else .tooLarge := by
  have hscan := scanDigits_append hdigits (n := 0) (by decide) []
  rwa [List.append_nil, ← number, scanDigits] at hscan

theorem isInteger_iff {n : Int} :
    IsInteger word n ↔ (takeSign word).2 ≠ [] ∧ IsDigits (takeSign word).2 ∧
      n = (takeSign word).1.times (number (takeSign word).2) := by
  constructor
  · rintro ⟨sign, digits, hsigned, hne, hdigits, hn⟩
    have hfirst := head?_digits hdigits hne []
    rw [List.append_nil] at hfirst
    rw [hsigned.takeSign_eq hfirst]
    exact ⟨hne, hdigits, hn⟩
  · rintro ⟨hne, hdigits, hn⟩
    exact ⟨_, _, signed_takeSign word, hne, hdigits, hn⟩

theorem IsInteger.unique {n m : Int} (hn : IsInteger word n) (hm : IsInteger word m) : n = m :=
  (isInteger_iff.mp hn).2.2.trans (isInteger_iff.mp hm).2.2.symm

theorem IsInteger.looksNumeric {n : Int} (h : IsInteger word n) : looksNumeric word = true := by
  obtain ⟨sign, digits, hsigned, hne, hdigits, -⟩ := h
  exact hsigned.looksNumeric (List.append_nil digits ▸ head?_digits hdigits hne [])

theorem ne_nil_of_le_number (h : 2 ^ 64 ≤ number digits) : digits ≠ [] := by
  rintro rfl
  exact absurd h (by decide)

theorem overruns_iff :
    Overruns word ↔ ∃ digits b rest, (takeSign word).2 = digits ++ b :: rest ∧ IsDigits digits ∧
      isDigit b = false ∧ 2 ^ 64 ≤ number digits := by
  constructor
  · rintro ⟨sign, digits, b, rest, hsigned, hdigits, hb, hlarge⟩
    rw [hsigned.takeSign_eq (head?_digits hdigits (ne_nil_of_le_number hlarge) _)]
    exact ⟨digits, b, rest, rfl, hdigits, hb, hlarge⟩
  · rintro ⟨digits, b, rest, hsplit, hdigits, hb, hlarge⟩
    exact ⟨_, digits, b, rest, hsplit ▸ signed_takeSign word, hdigits, hb, hlarge⟩

theorem Overruns.looksNumeric (h : Overruns word) : looksNumeric word = true := by
  obtain ⟨sign, digits, b, rest, hsigned, hdigits, -, hlarge⟩ := h
  exact hsigned.looksNumeric (head?_digits hdigits (ne_nil_of_le_number hlarge) _)

theorem Overruns.not_isInteger (h : Overruns word) (n : Int) : ¬ IsInteger word n := by
  obtain ⟨digits, b, rest, hsplit, -, hb, -⟩ := overruns_iff.mp h
  intro hn
  have hdigit := (isInteger_iff.mp hn).2.1 b (by simp [hsplit])
  exact absurd hdigit (by simp [hb])

/-- The number is an integer of 64 bits. -/
def InRange (n : Int) : Prop := -2 ^ 63 ≤ n ∧ n < 2 ^ 63

/-- Digits with a sign are scanned to their number, unless it is out of range. -/
theorem scanInteger_digits (htake : takeSign word = (sign, digits)) (hdigits : IsDigits digits) :
    (InRange (sign.times (number digits)) ∧
      scanInteger word = .value (Int64.ofInt (sign.times (number digits)))) ∨
    (¬ InRange (sign.times (number digits)) ∧ scanInteger word = .tooLarge) := by
  have hbit : signBit = 2 ^ 63 := rfl
  unfold scanInteger InRange
  rw [htake]
  simp only [scanDigits_digits hdigits]
  generalize number digits = n
  by_cases hsmall : n < 2 * signBit
  · rw [if_pos hsmall]
    cases sign with
    | plus =>
      simp only [Sign.times]
      split
      · exact .inl ⟨by omega, by rw [Int64.ofInt_eq_ofNat]⟩
      · exact .inr ⟨by omega, rfl⟩
    | minus =>
      simp only [Sign.times]
      split
      · exact .inl ⟨by omega, by rw [Int64.ofInt_neg, Int64.ofInt_eq_ofNat]⟩
      · exact .inr ⟨by omega, rfl⟩
  · rw [if_neg hsmall]
    refine .inr ⟨?_, rfl⟩
    cases sign <;> simp only [Sign.times] <;> omega

theorem scanInteger_other (htake : takeSign word = (sign, digits ++ b :: rest))
    (hdigits : IsDigits digits) (hb : isDigit b = false) :
    scanInteger word = if number digits < 2 * signBit then .notOne else .tooLarge := by
  rw [scanInteger, htake]
  simp only [scanDigits_other hdigits hb]
  by_cases hsmall : number digits < 2 * signBit
  · rw [if_pos hsmall, if_pos hsmall]
  · rw [if_neg hsmall, if_neg hsmall]

theorem Overruns.scanInteger_eq (h : Overruns word) : scanInteger word = .tooLarge := by
  obtain ⟨digits, b, rest, hsplit, hdigits, hb, hlarge⟩ := overruns_iff.mp h
  rw [scanInteger_other (Prod.ext rfl hsplit) hdigits hb]
  exact if_neg (Nat.not_lt_of_le hlarge)

/-- The four ways of scanning a word that looks like a number for an integer. -/
theorem scanInteger_cases (hnumeric : looksNumeric word = true) :
    (∃ n, IsInteger word n ∧ InRange n ∧ scanInteger word = .value (Int64.ofInt n)) ∨
    (∃ n, IsInteger word n ∧ ¬ InRange n ∧ scanInteger word = .tooLarge) ∨
    (Overruns word ∧ scanInteger word = .tooLarge) ∨
    ((∀ n, ¬ IsInteger word n) ∧ ¬ Overruns word ∧ scanInteger word = .notOne) := by
  obtain ⟨sign, unsigned, htake⟩ : ∃ sign unsigned, takeSign word = (sign, unsigned) :=
    ⟨_, _, rfl⟩
  rcases digits_cases unsigned with hdigits | ⟨digits, b, rest, rfl, hdigits, hb⟩
  · have hne : unsigned ≠ [] := by
      rintro rfl
      simp [Number.looksNumeric, htake] at hnumeric
    have hinteger : IsInteger word (sign.times (number unsigned)) :=
      isInteger_iff.mpr (by rw [htake]; exact ⟨hne, hdigits, rfl⟩)
    rcases scanInteger_digits htake hdigits with ⟨hrange, hscan⟩ | ⟨hrange, hscan⟩
    · exact .inl ⟨_, hinteger, hrange, hscan⟩
    · exact .inr (.inl ⟨_, hinteger, hrange, hscan⟩)
  · have hscan := scanInteger_other htake hdigits hb
    by_cases hsmall : number digits < 2 * signBit
    · rw [if_pos hsmall] at hscan
      refine .inr (.inr (.inr ⟨fun n hn => ?_, fun hover => ?_, hscan⟩))
      · have hdigit := (isInteger_iff.mp hn).2.1 b (by simp [htake])
        exact absurd hdigit (by simp [hb])
      · rw [hover.scanInteger_eq] at hscan
        cases hscan
    · rw [if_neg hsmall] at hscan
      refine .inr (.inr (.inl ⟨overruns_iff.mpr ?_, hscan⟩))
      rw [htake]
      exact ⟨digits, b, rest, rfl, hdigits, hb, Nat.le_of_not_lt hsmall⟩

theorem scanInteger_eq_value_iff (hnumeric : looksNumeric word = true) {n : Int64} :
    scanInteger word = .value n ↔ IsInteger word n.toInt := by
  rcases scanInteger_cases hnumeric with ⟨m, hm, hrange, hscan⟩ | ⟨m, hm, hrange, hscan⟩ |
    ⟨hover, hscan⟩ | ⟨hnone, -, hscan⟩
  · have hback : (Int64.ofInt m).toInt = m := Int64.toInt_ofInt_of_le hrange.1 hrange.2
    rw [hscan]
    constructor
    · intro heq
      cases heq
      rwa [hback]
    · intro hn
      rw [hm.unique hn, Int64.ofInt_toInt]
  · refine iff_of_false (by simp [hscan]) fun hn => hrange ?_
    rw [hm.unique hn]
    exact ⟨n.le_toInt, n.toInt_lt⟩
  · exact iff_of_false (by simp [hscan]) (hover.not_isInteger _)
  · exact iff_of_false (by simp [hscan]) (hnone _)

theorem scanInteger_eq_notOne (hnumeric : looksNumeric word = true)
    (hnone : ∀ n, ¬ IsInteger word n) (hover : ¬ Overruns word) : scanInteger word = .notOne := by
  rcases scanInteger_cases hnumeric with ⟨m, hm, -⟩ | ⟨m, hm, -⟩ | ⟨hagain, -⟩ | ⟨-, -, hscan⟩
  · exact absurd hm (hnone m)
  · exact absurd hm (hnone m)
  · exact absurd hagain hover
  · exact hscan

theorem scanInteger_eq_tooLarge_iff (hnumeric : looksNumeric word = true) :
    scanInteger word = .tooLarge ↔ (∃ n, IsInteger word n ∧ ¬ InRange n) ∨ Overruns word := by
  rcases scanInteger_cases hnumeric with ⟨m, hm, hrange, hscan⟩ | ⟨m, hm, hrange, hscan⟩ |
    ⟨hover, hscan⟩ | ⟨hnone, hover, hscan⟩
  · refine iff_of_false (by simp [hscan]) ?_
    rintro (⟨n, hn, hout⟩ | hover)
    · exact hout (hm.unique hn ▸ hrange)
    · exact hover.not_isInteger m hm
  · exact iff_of_true hscan (.inl ⟨m, hm, hrange⟩)
  · exact iff_of_true hscan (.inr hover)
  · refine iff_of_false (by simp [hscan]) ?_
    rintro (⟨n, hn, -⟩ | hagain)
    · exact hnone n hn
    · exact hover hagain

end Number

namespace Datum

open Number

variable {first : UInt8} {rest : Text}

/-- No constant and no keyword looks like a number. -/
theorem ofName_of_looksNumeric (h : looksNumeric (first :: rest) = true) :
    ofName (first :: rest) = .ok (.symbol (first :: rest)) := by
  have hcolon : first ≠ 58 := by
    rintro rfl
    simp [looksNumeric, takeSign, Text.isDigit] at h
  have hconstant : ∀ w, looksNumeric w = false → first :: rest ≠ w := by
    rintro w hw rfl
    rw [h] at hw
    cases hw
  rw [ofName_cons, if_neg hcolon, if_neg (hconstant _ (by decide)),
    if_neg (hconstant _ (by decide)), if_neg (hconstant _ (by decide))]

theorem ofName_ne_int (n : Int64) : ofName (first :: rest) ≠ .ok (.int n) := by
  rw [ofName_cons]
  repeat' split
  all_goals simp

theorem ofName_ne_error (cause : ParseCause) : ofName (first :: rest) ≠ .error cause := by
  rw [ofName_cons]
  simp

theorem ofWord_eq_int_iff {n : Int64} :
    ofWord (first :: rest) = .ok (.int n) ↔ IsInteger (first :: rest) n.toInt := by
  rw [ofWord_cons]
  by_cases hnumeric : looksNumeric (first :: rest) = true
  · rw [← scanInteger_eq_value_iff hnumeric]
    simp only [hnumeric, if_true]
    cases scanInteger (first :: rest) with
    | value m => simp
    | tooLarge => simp
    | notOne => cases scanDouble (first :: rest) <;> simp [ofName_ne_int]
  · refine iff_of_false ?_ fun hn => hnumeric hn.looksNumeric
    simp [hnumeric, ofName_ne_int]

theorem ofWord_eq_integerRange_iff {w : Text} :
    ofWord (first :: rest) = .error (.integerRange w) ↔
      w = first :: rest ∧
        ((∃ n, IsInteger (first :: rest) n ∧ ¬ InRange n) ∨ Overruns (first :: rest)) := by
  rw [ofWord_cons]
  by_cases hnumeric : looksNumeric (first :: rest) = true
  · rw [← scanInteger_eq_tooLarge_iff hnumeric]
    simp only [hnumeric, if_true]
    cases scanInteger (first :: rest) with
    | value m => simp
    | tooLarge => simp [eq_comm]
    | notOne => cases scanDouble (first :: rest) <;> simp [ofName_ne_error]
  · refine iff_of_false (by simp [hnumeric, ofName_ne_error]) ?_
    rintro ⟨-, ⟨n, hn, -⟩ | hover⟩
    · exact hnumeric hn.looksNumeric
    · exact hnumeric hover.looksNumeric

/-- A text that starts with a quote does not look like a number, and is none. -/
theorem ofAtom_cases (first : UInt8) (rest : Text) :
    ofAtom (first :: rest) = ofWord (first :: rest) ∨
      looksNumeric (first :: rest) = false ∧
        (∀ n, ofAtom (first :: rest) ≠ .ok (.int n)) ∧
        ∀ w, ofAtom (first :: rest) ≠ .error (.integerRange w) := by
  by_cases hquote : first = 34
  · subst hquote
    have hatom : ofAtom (34 :: rest) =
        ParseCause.check (part (34 :: rest) 1 ((34 :: rest).length - 1)) >>= fun content =>
          pure (.string content) := by
      rw [ofAtom, fetch_zero, ParseCause.check_ok_bind, if_pos rfl]
    refine .inr ⟨by simp [looksNumeric, takeSign, Text.isDigit], fun n => ?_, fun w => ?_⟩
    all_goals
      rw [hatom]
      cases part (34 :: rest) 1 ((34 :: rest).length - 1) <;> rintro ⟨⟩
  · exact .inl (ofAtom_word hquote rest)

theorem ofAtom_eq_int_iff {n : Int64} :
    ofAtom (first :: rest) = .ok (.int n) ↔ IsInteger (first :: rest) n.toInt := by
  rcases ofAtom_cases first rest with heq | ⟨hnumeric, hint, -⟩
  · rw [heq, ofWord_eq_int_iff]
  · refine iff_of_false (hint n) fun hn => ?_
    rw [hn.looksNumeric] at hnumeric
    cases hnumeric

theorem ofAtom_eq_integerRange_iff {w : Text} :
    ofAtom (first :: rest) = .error (.integerRange w) ↔
      w = first :: rest ∧
        ((∃ n, IsInteger (first :: rest) n ∧ ¬ InRange n) ∨ Overruns (first :: rest)) := by
  rcases ofAtom_cases first rest with heq | ⟨hnumeric, -, hrange⟩
  · rw [heq, ofWord_eq_integerRange_iff]
  · refine iff_of_false (hrange w) ?_
    rintro ⟨-, ⟨n, hn, -⟩ | hover⟩
    · rw [hn.looksNumeric] at hnumeric
      cases hnumeric
    · rw [hover.looksNumeric] at hnumeric
      cases hnumeric

theorem ofAtom_of_looksNumeric (h : looksNumeric (first :: rest) = true) :
    ofAtom (first :: rest) = ofWord (first :: rest) := by
  rcases ofAtom_cases first rest with heq | ⟨hnumeric, -⟩
  · exact heq
  · rw [h] at hnumeric
    cases hnumeric

/-- A word is an integer exactly if it is a sign and digits in range, and refused as one exactly if
these are out of range or it starts with digits that make 2^64 or more; else it is a double or a
symbol. -/
theorem words_are_classified (first : UInt8) (rest : Text) :
    (∀ w, ofAtom (first :: rest) = .error (.integerRange w) ↔
      w = first :: rest ∧
        ((∃ n, IsInteger (first :: rest) n ∧ ¬ InRange n) ∨ Overruns (first :: rest))) ∧
    (∀ n : Int64, ofAtom (first :: rest) = .ok (.int n) ↔ IsInteger (first :: rest) n.toInt) ∧
    (Overruns (first :: rest) → ∀ n, ¬ IsInteger (first :: rest) n) ∧
    (looksNumeric (first :: rest) = true → (∀ n, ¬ IsInteger (first :: rest) n) →
      ¬ Overruns (first :: rest) →
      (∀ x, scanDouble (first :: rest) = .value x → ofAtom (first :: rest) = .ok (.float x)) ∧
      (scanDouble (first :: rest) = .tooLarge →
        ofAtom (first :: rest) = .error (.numberRange (first :: rest))) ∧
      (scanDouble (first :: rest) = .notOne →
        ofAtom (first :: rest) = .ok (.symbol (first :: rest)))) := by
  refine ⟨fun w => ofAtom_eq_integerRange_iff, fun n => ofAtom_eq_int_iff,
    Overruns.not_isInteger, fun hnumeric hnone hover => ?_⟩
  have hscan := scanInteger_eq_notOne hnumeric hnone hover
  rw [ofAtom_of_looksNumeric hnumeric, ofWord_cons]
  refine ⟨fun x hx => ?_, fun hx => ?_, fun hx => ?_⟩
  · simp only [hnumeric, hscan, hx, if_true]
  · simp only [hnumeric, hscan, hx, if_true]
  · simp only [hnumeric, hscan, hx, if_true, ofName_of_looksNumeric hnumeric]

theorem words_are_classified_samples :
    (IsInteger (Text.of "-9223372036854775808") (-2 ^ 63) ∧
      ofAtom (45 :: Text.of "9223372036854775808") = .ok (.int (Int64.ofInt (-2 ^ 63)))) ∧
    (IsInteger (Text.of "+9223372036854775808") (2 ^ 63) ∧ ¬ InRange (2 ^ 63) ∧
      ofAtom (43 :: Text.of "9223372036854775808") =
        .error (.integerRange (Text.of "+9223372036854775808"))) ∧
    (Overruns (Text.of "18446744073709551616x") ∧
      ofAtom (49 :: Text.of "8446744073709551616x") =
        .error (.integerRange (Text.of "18446744073709551616x"))) ∧
    (looksNumeric (Text.of "18446744073709551615x") = true ∧
      (∀ n, ¬ IsInteger (Text.of "18446744073709551615x") n) ∧
      ¬ Overruns (Text.of "18446744073709551615x") ∧
      ofAtom (49 :: Text.of "8446744073709551615x") =
        .ok (.symbol (Text.of "18446744073709551615x"))) := by
  have hleast : IsInteger (Text.of "-9223372036854775808") (-2 ^ 63) :=
    isInteger_iff.mpr (by decide +kernel)
  have hgreatest : IsInteger (Text.of "+9223372036854775808") (2 ^ 63) :=
    isInteger_iff.mpr (by decide +kernel)
  have hover : Overruns (Text.of "18446744073709551616x") :=
    ⟨.plus, Text.of "18446744073709551616", 120, [], .bare _, by decide +kernel, rfl,
      by decide +kernel⟩
  have hnumeric : looksNumeric (Text.of "18446744073709551615x") = true := by decide +kernel
  have hnone : ∀ n, ¬ IsInteger (Text.of "18446744073709551615x") n := fun n hn =>
    absurd (isInteger_iff.mp hn).2.1 (by decide +kernel)
  have hclear : ¬ Overruns (Text.of "18446744073709551615x") := fun h =>
    absurd h.scanInteger_eq (by decide +kernel)
  have hrange : ¬ InRange (2 ^ 63) := fun h => absurd h.2 (by decide)
  refine ⟨⟨hleast, ?_⟩, ⟨hgreatest, hrange, ?_⟩, ⟨hover, ?_⟩, hnumeric, hnone, hclear, ?_⟩
  · exact ((words_are_classified 45 (Text.of "9223372036854775808")).2.1 _).mpr hleast
  · exact ((words_are_classified 43 (Text.of "9223372036854775808")).1 _).mpr
      ⟨rfl, .inl ⟨_, hgreatest, hrange⟩⟩
  · exact ((words_are_classified 49 (Text.of "8446744073709551616x")).1 _).mpr
      ⟨rfl, .inr hover⟩
  · exact ((words_are_classified 49 (Text.of "8446744073709551615x")).2.2.2 hnumeric hnone
      hclear).2.2 (by decide +kernel)

end Datum

end Lisp
