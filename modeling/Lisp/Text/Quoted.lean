import Lisp.Text.Printable
import Lisp.Text.Utf8

/-!
Quoted text: double quotes around the characters, with a backslash escape for a quote, a backslash,
and everything that does not print.
-/
namespace Lisp.Text

/-- The last `width` hexadecimal digits of `n`, lower case. -/
def hex (width n : Nat) : Text :=
  match width with
  | 0 => []
  | width + 1 => hex width (n / 16) ++ [(Nat.digitChar (n % 16)).toUInt8]

/-- The control characters that have a letter of their own. -/
def escapeLetter? (code : Nat) : Option String :=
  match code with
  | 7 => some "a"
  | 8 => some "b"
  | 9 => some "t"
  | 10 => some "n"
  | 11 => some "v"
  | 12 => some "f"
  | 13 => some "r"
  | 34 => some "\""
  | 92 => some "\\"
  | _ => none

def Glyph.quoted : Glyph → Text
  | .stray byte => of "\\x" ++ hex 2 byte.toNat
  | .char code bytes =>
    match escapeLetter? code with
    | some letter => of "\\" ++ of letter
    | none =>
      if isPrintable code then bytes
      else if code < 0x80 then of "\\x" ++ hex 2 code
      else if code < 0x10000 then of "\\u" ++ hex 4 code
      else of "\\U" ++ hex 8 code

def quoted (t : Text) : Text := of "\"" ++ (glyphs t).flatMap Glyph.quoted ++ of "\""

end Lisp.Text
