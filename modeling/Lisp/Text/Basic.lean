/-!
Text is a sequence of bytes. Most of it is UTF-8, but nothing here depends on that: a byte that
belongs to no encoded character is a byte like any other.
-/
namespace Lisp

abbrev Text := List UInt8

namespace Text

/-- The UTF-8 bytes of a string. -/
def of (s : String) : Text := s.toByteArray.data.toList

def ofNat (n : Nat) : Text := (Nat.toDigits 10 n).map Char.toUInt8

def ofInt : Int → Text
  | .ofNat n => ofNat n
  | .negSucc n => of "-" ++ ofNat (n + 1)

/-- The texts in order with `separator` between neighbours. -/
def join (separator : Text) (texts : List Text) : Text := separator.intercalate texts

/-- Whether two texts have the same bytes. -/
def same : Text → Text → Bool
  | [], [] => true
  | a :: s, b :: t => a == b && same s t
  | _, _ => false

@[simp] theorem same_eq (s t : Text) : same s t = (s == t) := by
  induction s generalizing t with
  | nil => cases t <;> rfl
  | cons a s ih =>
    cases t with
    | nil => rfl
    | cons b t => rw [same, ih, List.cons_beq_cons]

def newline : UInt8 := 10

def line (t : Text) : Text := t ++ [newline]

def isDigit (b : UInt8) : Bool := 48 ≤ b && b ≤ 57

/-- The value of a decimal digit. -/
def digitValue (b : UInt8) : Nat := b.toNat - 48

/-- Bytes compared from the left; a proper initial part comes first. -/
def atMost : Text → Text → Bool
  | [], _ => true
  | _ :: _, [] => false
  | a :: s, b :: t => a < b || (a == b && atMost s t)

def sort (texts : List Text) : List Text := texts.mergeSort atMost

end Text

end Lisp
