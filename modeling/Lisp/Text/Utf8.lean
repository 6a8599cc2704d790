import Lisp.Text.Basic

/-!
Characters of a text. A text is cut from the left into glyphs: a glyph is a character in its
shortest encoding, or a single byte that starts none.
-/
namespace Lisp.Text

inductive Glyph
  | char (code : Nat) (bytes : Text)
  | stray (byte : UInt8)
  deriving DecidableEq

/-- Code points that stand for characters; the surrogates do not. -/
def isScalar (code : Nat) : Bool := code < 0xD800 || (0xE000 ≤ code && code < 0x110000)

def isContinuation (b : UInt8) : Bool := 0x80 ≤ b && b < 0xC0

/-- The glyph at the front of `lead :: rest`. -/
def firstGlyph (lead : UInt8) (rest : Text) : Glyph :=
  let low (b : UInt8) : Nat := b.toNat % 64
  if lead < 0x80 then .char lead.toNat [lead]
  else
    match rest with
    | b :: more =>
      if !isContinuation b then .stray lead
      else if lead < 0xE0 then
        let code := lead.toNat % 32 * 64 + low b
        if 0xC0 ≤ lead && 0x80 ≤ code then .char code [lead, b] else .stray lead
      else
        match more with
        | c :: more =>
          if !isContinuation c then .stray lead
          else if lead < 0xF0 then
            let code := (lead.toNat % 16 * 64 + low b) * 64 + low c
            if 0x800 ≤ code && isScalar code then .char code [lead, b, c] else .stray lead
          else
            match more with
            | d :: _ =>
              let code := ((lead.toNat % 8 * 64 + low b) * 64 + low c) * 64 + low d
              if lead < 0xF8 && isContinuation d && 0x10000 ≤ code && isScalar code then
                .char code [lead, b, c, d]
              else .stray lead
            | [] => .stray lead
        | [] => .stray lead
    | [] => .stray lead

def Glyph.bytes : Glyph → Text
  | .char _ bytes => bytes
  | .stray byte => [byte]

/-- The glyphs of a text of which the first `skip` bytes are already accounted for. -/
def glyphsAfter : (skip : Nat) → Text → List Glyph
  | _, [] => []
  | skip + 1, _ :: rest => glyphsAfter skip rest
  | 0, lead :: rest =>
    let glyph := firstGlyph lead rest
    glyph :: glyphsAfter (glyph.bytes.length - 1) rest

def glyphs (t : Text) : List Glyph := glyphsAfter 0 t

/-- Counts the glyphs of a text of which the first `skip` bytes are already accounted for. -/
def countAfter : (skip count : Nat) → Text → Nat
  | _, count, [] => count
  | skip + 1, count, _ :: rest => countAfter skip count rest
  | 0, count, lead :: rest =>
    if lead < 0x80 then countAfter 0 (count + 1) rest
    else countAfter ((firstGlyph lead rest).bytes.length - 1) (count + 1) rest

theorem countAfter_eq (skip count : Nat) (t : Text) :
    countAfter skip count t = count + (glyphsAfter skip t).length := by
  induction t generalizing skip count with
  | nil => cases skip <;> rfl
  | cons lead rest ih =>
    cases skip with
    | succ skip => exact ih skip count
    | zero =>
      rw [countAfter, glyphsAfter, List.length_cons]
      split
      · rename_i h
        have hlength : (firstGlyph lead rest).bytes.length - 1 = 0 := by
          simp only [firstGlyph, if_pos h]
          rfl
        rw [ih, hlength]
        omega
      · rw [ih]
        omega

/-- The number of characters; a stray byte counts as one. -/
def glyphCount (t : Text) : Nat := countAfter 0 0 t

theorem glyphCount_eq (t : Text) : glyphCount t = (glyphs t).length := by
  rw [glyphCount, countAfter_eq, glyphs, Nat.zero_add]

theorem glyphCount_of_ascii {t : Text} (h : t.all (· < 0x80)) : glyphCount t = t.length := by
  have count (n : Nat) : countAfter 0 n t = n + t.length := by
    induction t generalizing n with
    | nil => rfl
    | cons lead rest ih =>
      rw [List.all_cons, Bool.and_eq_true, decide_eq_true_eq] at h
      rw [countAfter, if_pos h.1, ih h.2, List.length_cons]
      omega
  rw [glyphCount, count, Nat.zero_add]

/-- Whether every byte belongs to a character. -/
def isUtf8 (t : Text) : Bool :=
  (glyphs t).all fun
    | .char .. => true
    | .stray _ => false

/-- The characters that count as space at the ends of a line. -/
def isSpace (code : Nat) : Bool :=
  (9 ≤ code && code ≤ 13) || code == 0x20 || code == 0x85 || code == 0xA0 || code == 0x1680
    || (0x2000 ≤ code && code ≤ 0x200A) || code == 0x2028 || code == 0x2029 || code == 0x202F
    || code == 0x205F || code == 0x3000

def Glyph.isSpace : Glyph → Bool
  | .char code _ => Text.isSpace code
  | .stray _ => false

/-- Drops the space at both ends. -/
def trim (t : Text) : Text :=
  let kept := (glyphs t).dropWhile Glyph.isSpace
  (kept.reverse.dropWhile Glyph.isSpace).reverse.flatMap Glyph.bytes

end Lisp.Text
