import Lisp.Datum.Reader
import Lisp.Operation.Arithmetic
import Lisp.Operation.Collection

/-!
The answers of all operations.
-/
namespace Lisp

namespace Answer

def string (name : Text) (h : Heap) (wanted : String) (v : Value) (answer : Text → Answer) :
    Answer :=
  match h.content v with
  | .string s => answer s.toList
  | _ => refuse name h wanted v

def atom (name : Text) (h : Heap) (v : Value) (answer : AtomId → Answer) : Answer :=
  match h.content v with
  | .atom cell => answer cell
  | _ => refuse name h "an atom" v

def keyword (name : Text) (h : Heap) (v : Value) : Answer :=
  match h.content v with
  | .keyword _ => .ok (.give v)
  | .string s =>
    match s.toList with
    | 58 :: name => .ok (.make (.keyword name))
    | name => .ok (.make (.keyword name))
  | _ => refuse name h "a string or keyword" v

def gensym (name : Text) (h : Heap) (args : List Value) : Answer :=
  if args.length = 0 then .ok (.generate (Text.of "G__"))
  else if args.length = 1 then
    check (fetch args 0) fun stem =>
      string name h "a string prefix" stem fun stem => .ok (.generate stem)
  else .error (.argumentsEither name 0 1 args.length)

theorem gensym_eq (name : Text) (h : Heap) (args : List Value) :
    gensym name h args =
      match args with
      | [] => .ok (.generate (Text.of "G__"))
      | [stem] => string name h "a string prefix" stem fun stem => .ok (.generate stem)
      | args => .error (.argumentsEither name 0 1 args.length) := by
  rcases args with _ | ⟨stem, _ | ⟨x, more⟩⟩ <;> simp [gensym]

/-- Raises the host's message when the file cannot be read. -/
def slurp (host : Host) (path : Text) : Reply :=
  match host.read path with
  | .ok content => .makeString content
  | .error .unread => .want path
  | .error e => .raiseText (e.message path)

def readString (source : Text) : Reply :=
  match Datum.read source with
  | .ok d => .build d
  | .error e => .unreadable e

def errorValue (name : Text) (h : Heap) (v : Value) : Answer :=
  match h.content v with
  | .error payload => .ok (.give payload)
  | _ => refuse name h "an error" v

/-- Whether a value is a function but not a macro. -/
def isFunction (h : Heap) (v : Value) : Bool := h.kind v == .function && !h.isMacro v

end Answer

namespace Operation

/-- What an operation answers to arguments in a heap. -/
def answer (host : Host) (h : Heap) (op : Operation) (args : List Value) : Answer :=
  let name := op.name
  match op with
  | .add => Arithmetic.total name h 0 (· + ·) (· + ·) args
  | .multiply => Arithmetic.total name h 1 (· * ·) (· * ·) args
  | .subtract => Arithmetic.difference name h 0 (fun x y => .ok (x - y)) (· - ·) args
  | .divide => Arithmetic.difference name h 1 Arithmetic.quotient (· / ·) args
  | .modulo => Answer.binary name args (Arithmetic.modulo name h)
  | .equal => Answer.variadic name args fun _ _ => .ok (.ofBool (Arithmetic.chain h.equal args))
  | .compare c => Arithmetic.comparison name h c args
  | .atom => Answer.unary name args fun v => .ok (.makeAtom v)
  | .deref =>
    Answer.unary name args fun v => Answer.atom name h v fun cell => .ok (.give (h.deref cell))
  | .reset =>
    Answer.binary name args fun v new => Answer.atom name h v fun cell => .ok (.reset cell new)
  | .readString =>
    Answer.unary name args fun v =>
      Answer.string name h "a string" v fun s => .ok (Answer.readString s)
  | .slurp =>
    Answer.unary name args fun v =>
      Answer.string name h "a file name" v fun path => .ok (Answer.slurp host path)
  | .list => .ok (.makeList (.ofList args))
  | .vector => .ok (.makeVector (.ofList args) none)
  | .isSequential => Answer.unary name args fun v => .ok (.ofBool (h.sequence? v).isSome)
  | .isEmpty =>
    Answer.unary name args fun v => do return .ofBool ((← Collection.size name h v) == 0)
  | .count =>
    Answer.unary name args fun v => do return .make (.int (.ofNat (← Collection.size name h v)))
  | .cons => Answer.binary name args (Collection.cons name h)
  | .concat => Collection.concat name h args
  | .conj => Answer.variadic name args (Collection.conj name h)
  | .nth => Answer.binary name args (Collection.nth name h)
  | .first => Answer.unary name args (Collection.first name h)
  | .rest => Answer.unary name args (Collection.rest name h)
  | .vec => Answer.unary name args (Collection.vec name h)
  | .hashMap =>
    if args.length % 2 ≠ 0 then .error (.oddArguments name args.length)
    else .ok (.make (.map (h.entriesOf args)))
  | .assoc => Answer.variadic name args (Collection.assoc name h)
  | .dissoc => Answer.variadic name args (Collection.dissoc name h)
  | .get => Collection.get name h args
  | .contains => Answer.binary name args (Collection.contains name h)
  | .keys => Answer.unary name args (Collection.keys name h)
  | .vals => Answer.unary name args (Collection.vals name h)
  | .isKind k => Answer.unary name args fun v => .ok (.ofBool (h.kind v == k))
  | .isTrue => Answer.unary name args fun v => .ok (.ofBool (h.content v == .bool true))
  | .isFalse => Answer.unary name args fun v => .ok (.ofBool (h.content v == .bool false))
  | .isNumber => Answer.unary name args fun v => .ok (.ofBool (Numeral.ofValue? h v).isSome)
  | .isFunction => Answer.unary name args fun v => .ok (.ofBool (Answer.isFunction h v))
  | .isMacro => Answer.unary name args fun v => .ok (.ofBool (h.isMacro v))
  | .symbol =>
    Answer.unary name args fun v =>
      Answer.string name h "a string" v fun s => .ok (.give (.symbol s))
  | .keyword => Answer.unary name args (Answer.keyword name h)
  | .gensym => Answer.gensym name h args
  | .metadata => Answer.unary name args fun v => .ok (.give ((h.metadata? v).getD .nil))
  | .withMetadata => Answer.binary name args fun v metadata => .ok (.annotate v metadata)
  | .throw => Answer.unary name args fun v => .ok (.raise v)
  | .error => Answer.unary name args fun v => .ok (.make (.error v))
  | .errorValue => Answer.unary name args (Answer.errorValue name h)
  | .clock =>
    if args.length ≠ 0 then .error (.arguments name 0 args.length)
    else .ok (.make (.int host.clock))
  | .printReadably =>
    Answer.check (h.printAll .readable (Text.of " ") args) fun r => .ok (.make (.string r))
  | .printJoined =>
    Answer.check (h.printAll .displayed [] args) fun r => .ok (.make (.string r))
  | .writeReadably =>
    Answer.check (h.printAll .readable (Text.of " ") args) fun r => .ok (.print r)
  | .writeDisplayed =>
    Answer.check (h.printAll .displayed (Text.of " ") args) fun r => .ok (.print r)

/-- Calls an operation. -/
def call (op : Operation) (args : List Value) : Run Value := fun w =>
  (op.answer w.host w.heap args).perform w

end Operation

end Lisp
