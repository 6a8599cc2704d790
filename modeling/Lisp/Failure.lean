import Lisp.Heap.Rendering
import Lisp.Source
import Lisp.Special

/-!
Why an evaluation ends without a value. Faults are defects of the program that is run, or misuse of
a native; only a raised value can be caught inside a program.
-/
namespace Lisp

inductive FaultKind
  | unboundSymbol
  | arity
  | type
  | notAFunction
  | malformedForm
  | index
  deriving DecidableEq

namespace FaultKind

def all : List FaultKind := [.unboundSymbol, .arity, .type, .notAFunction, .malformedForm, .index]

def text : FaultKind → Text
  | .unboundSymbol => Text.of "unbound symbol"
  | .arity => Text.of "arity mismatch"
  | .type => Text.of "type mismatch"
  | .notAFunction => Text.of "not a function"
  | .malformedForm => Text.of "malformed special form"
  | .index => Text.of "index out of range"

end FaultKind

/-- What is wrong with a special form. -/
inductive Malformation
  | bindings
  | unpairedBindings (count : Nat)
  | bindingName (got : Kind)
  | conditionalParts
  | oneForm
  | nameAndValue
  | definedName (got : Kind)
  | parameters
  | parameterName (got : Kind)
  | afterAmpersand (count : Nat)
  | tailName (got : Kind)
  | outsideQuasiquote
  | outsideTry
  | tryParts
  | catchClause
  | catchName (got : Kind)
  deriving DecidableEq

def Malformation.text : Malformation → Text
  | .bindings => Text.of "first parameter must be a list or vector of bindings"
  | .unpairedBindings n =>
    Text.of "bindings must come in pairs; found " ++ Text.ofNat n ++ Text.of " forms"
  | .bindingName got => Text.of "left-hand binding must be a symbol, got " ++ got.name
  | .conditionalParts =>
    Text.of "expected a condition, a then branch and an optional else branch"
  | .oneForm => Text.of "expected exactly one form"
  | .nameAndValue => Text.of "expected a symbol and a value"
  | .definedName got => Text.of "first parameter must be a symbol, got " ++ got.name
  | .parameters => Text.of "parameters must be a list or vector"
  | .parameterName got => Text.of "parameter must be a symbol, got " ++ got.name
  | .afterAmpersand n => Text.of "exactly 1 parameter must follow &; found " ++ Text.ofNat n
  | .tailName got => Text.of "tail parameter must be a symbol, got " ++ got.name
  | .outsideQuasiquote => Text.of "used outside quasiquote"
  | .outsideTry => Text.of "used outside try*"
  | .tryParts => Text.of "expected a body and an optional catch* clause"
  | .catchClause => Text.of "expected (catch* symbol handler)"
  | .catchName got => Text.of "binding must be a symbol, got " ++ got.name

/-- A fault by its cause; a host may report one in its own words. -/
inductive Fault
  | unbound (name : Text)
  | parameters (want got : Nat)
  | parametersAtLeast (want got : Nat)
  | arguments (name : Text) (want got : Nat)
  | argumentsAtLeast (name : Text) (want got : Nat)
  | argumentsEither (name : Text) (fewer more got : Nat)
  | oddArguments (name : Text) (got : Nat)
  | unpairedArguments (name : Text)
  | operand (name wanted : Text) (got : Kind)
  | notClosure (got : Kind)
  | notSpliceable (got : Kind)
  | notFunction (got : Kind) (shown : Text)
  | malformed (form : Special) (why : Malformation)
  | index (name : Text) (index : Int64) (length : Nat)
  | reported (kind : FaultKind) (detail : Text)
  deriving DecidableEq

namespace Fault

def kind : Fault → FaultKind
  | .unbound _ => .unboundSymbol
  | .parameters .. | .parametersAtLeast .. | .arguments .. | .argumentsAtLeast ..
  | .argumentsEither .. | .oddArguments .. | .unpairedArguments _ => .arity
  | .operand .. | .notClosure _ | .notSpliceable _ => .type
  | .notFunction .. => .notAFunction
  | .malformed .. => .malformedForm
  | .index .. => .index
  | .reported kind _ => kind

def gotArguments (got : Nat) : Text := Text.of " arguments, got " ++ Text.ofNat got

def detail : Fault → Text
  | .unbound name => Text.of "'" ++ name ++ Text.of "' not found"
  | .parameters want got => Text.of "expected " ++ Text.ofNat want ++ gotArguments got
  | .parametersAtLeast want got =>
    Text.of "expected at least " ++ Text.ofNat want ++ gotArguments got
  | .arguments name want got => name ++ Text.of " expects " ++ Text.ofNat want ++ gotArguments got
  | .argumentsAtLeast name want got =>
    name ++ Text.of " expects at least " ++ Text.ofNat want ++ gotArguments got
  | .argumentsEither name fewer more got =>
    name ++ Text.of " expects " ++ Text.ofNat fewer ++ Text.of " or " ++ Text.ofNat more
      ++ gotArguments got
  | .oddArguments name got =>
    name ++ Text.of " expects an even number of arguments, got " ++ Text.ofNat got
  | .unpairedArguments name => name ++ Text.of " expects a map followed by key/value pairs"
  | .operand name wanted got =>
    name ++ Text.of " expects " ++ wanted ++ Text.of ", got " ++ got.name
  | .notClosure got => Text.of "defmacro!: expected a closure, got " ++ got.name
  | .notSpliceable got => Text.of "splice-unquote: expected a list or vector, got " ++ got.name
  | .notFunction got shown => Text.of "cannot call " ++ got.name ++ Text.of " " ++ shown
  | .malformed form why => form.name ++ Text.of ": " ++ why.text
  | .index name i length =>
    name ++ Text.of ": index " ++ Text.ofInt i.toInt ++ Text.of " out of range for length "
      ++ Text.ofNat length
  | .reported _ detail => detail

def message (f : Fault) : Text := f.kind.text ++ Text.of ": " ++ f.detail

end Fault

inductive Failure
  | fault (f : Fault)
  | parse (e : ParseError)
  | thrown (v : Value)
  /-- The host could not do its part, with its own words for it. -/
  | host (detail : Text)
  /-- Something went wrong while the file at `path` was loaded. -/
  | loading (path : Text) (cause : Failure)
  /-- A file is wanted that the host has not looked for yet. -/
  | unread (path : Text)
  /-- The interpreter itself is wrong. -/
  | crash (c : Crash)
  /-- The evaluation used up its depth or its steps. -/
  | exhausted
  deriving DecidableEq

namespace Failure

@[match_pattern] abbrev malformed (form : Special) (why : Malformation) : Failure :=
  .fault (.malformed form why)

/-- Takes what a partial operation gives. -/
def check {α : Type} (found : Except Crash α) : Except Failure α := found.mapError .crash

@[simp] theorem check_ok_bind {α β : Type} (a : α) (f : α → Except Failure β) :
    check (.ok a) >>= f = f a := rfl

/-- The failure of a text that cannot be read. -/
def ofParse (e : ParseError) : Failure :=
  match e.cause with
  | .crash c => .crash c
  | _ => .parse e

/-- The raised value, also behind the loading of a file. -/
def thrown? : Failure → Option Value
  | .thrown v => some v
  | .loading _ cause => thrown? cause
  | _ => none

/-- The message, if the raised value has a text. -/
def describe (h : Heap) : Failure → Except Crash Text
  | .fault f => .ok f.message
  | .parse e => .ok e.message
  | .thrown v => (h.print .readable v).map (Text.of "uncaught: " ++ ·)
  | .host detail => .ok detail
  | .loading path cause =>
    (describe h cause).map (Text.of "load " ++ path ++ Text.of ": " ++ ·)
  | .unread path => .ok (Text.of "open " ++ path ++ Text.of ": not read")
  | .crash c => .ok c.message
  | .exhausted => .ok (Text.of "evaluation did not end")

def message (h : Heap) (e : Failure) : Text :=
  match e.describe h with
  | .ok t => t
  | .error _ => []

@[simp] theorem describe_eq (h : Heap) (e : Failure) : e.describe h = .ok (e.message h) := by
  rw [message]
  induction e with
  | thrown v => simp [describe, Except.map]
  | loading path cause ih =>
    rw [describe, ih]
    rfl
  | _ => rfl

@[simp] theorem message_thrown (h : Heap) (v : Value) :
    message h (.thrown v) = Text.of "uncaught: " ++ h.render .readable v := by
  simp [message, describe, Except.map]

@[simp] theorem message_loading (h : Heap) (path : Text) (cause : Failure) :
    message h (.loading path cause) =
      Text.of "load " ++ path ++ Text.of ": " ++ message h cause := by
  rw [message, describe, describe_eq]
  rfl

/-- The message for a raised value where no text of the value is to be had. -/
def plainMessage (h : Heap) (v : Value) : Text :=
  Text.of "uncaught: " ++ (h.kind v).name ++ Text.of " value"

end Failure

end Lisp
