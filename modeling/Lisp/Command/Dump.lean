import Lisp.Heap.Rendering
import Lisp.Text.Quoted

/-!
The dump of a value, field by field. Constants, numbers, texts and errors around them are dumped in
full; the fields that belong to other kinds are shown as absent.
-/
namespace Lisp.Command

structure Fields where
  bool : Bool := false
  int : Int := 0
  float : Float := 0
  text : Text := []
  payload : Option Value := none

def Fields.of : Content → Fields
  | .bool b => { bool := b }
  | .int n => { int := n.toInt }
  | .float x => { float := x }
  | .string s => { text := s.toList }
  | .symbol s | .keyword s => { text := s }
  | .error payload => { payload := some payload }
  | _ => {}

def indentation (level : Nat) : Text := List.replicate (2 * level) 32

def absent (type : String) : Text := Text.of "(*types." ++ Text.of type ++ Text.of ")(<nil>)"

def dumpText (s : Text) : Text :=
  Text.of "(string) "
    ++ (if s = [] then [] else Text.of "(len=" ++ Text.ofNat s.length ++ Text.of ") ")
    ++ Text.quoted s

/-- Blocks inside blocks are shown to this depth. -/
def dumpDepth : Nat := 4

/-- The block of a value; `room` is how many levels of blocks may still be opened inside. -/
def dumpBlock (h : Heap) : (room : Nat) → (level : Nat) → Value → Text
  | 0, level, _ =>
    Text.of "(*types.Data)(" ++ Text.line [123] ++ indentation (level + 1)
      ++ Text.line (Text.of "<max depth reached>") ++ indentation level ++ [125] ++ Text.of ")"
  | room + 1, level, v =>
    let fields := Fields.of (h.content v)
    let inner (v : Option Value) : Text :=
      match v with
      | some v => dumpBlock h room (level + 1) v
      | none => absent "Data"
    let lines := [
      Text.of "Kind: (types.Kind) " ++ (h.kind v).name,
      Text.of "Bool: (bool) " ++ Text.of (if fields.bool then "true" else "false"),
      Text.of "Int: (int64) " ++ Text.ofInt fields.int,
      Text.of "Float: (float64) " ++ Number.written 6 fields.float,
      Text.of "Str: " ++ dumpText fields.text,
      Text.of "Seq: " ++ absent "List",
      Text.of "Map: " ++ absent "HashMap",
      Text.of "Atom: " ++ absent "Atom",
      Text.of "Native: " ++ absent "Native",
      Text.of "Closure: " ++ absent "Closure",
      Text.of "Payload: " ++ inner fields.payload,
      Text.of "Meta: " ++ inner (h.metadata? v)]
    Text.of "(*types.Data)(" ++ Text.line [123]
      ++ Text.line (Text.join (Text.line (Text.of ",")) (lines.map (indentation (level + 1) ++ ·)))
      ++ indentation level ++ [125] ++ Text.of ")"

def dump (h : Heap) (v : Value) : Text := Text.line (dumpBlock h dumpDepth 0 v)

end Lisp.Command
