import Lisp.Text.Quoted

/-!
Flags of the command. A flag starts with one or two dashes; its value follows after an equals sign
or, except for a switch, as the next argument. The first argument that is no flag ends them, and so
does a double dash.
-/
namespace Lisp.Command

structure Options where
  expression : Text := []
  debug : Bool := false
  history : Text := []
  deriving DecidableEq

inductive FlagError
  | help
  | badFlag (arg : Text)
  | undefined (name : Text)
  | missingValue (name : Text)
  | badSwitch (value name : Text)
  deriving DecidableEq

namespace FlagError

/-- The line in front of the usage, if there is one. -/
def message? : FlagError → Option Text
  | .help => none
  | .badFlag arg => some (Text.of "bad flag syntax: " ++ arg)
  | .undefined name => some (Text.of "flag provided but not defined: -" ++ name)
  | .missingValue name => some (Text.of "flag needs an argument: -" ++ name)
  | .badSwitch value name =>
    some (Text.of "invalid boolean value " ++ Text.quoted value ++ Text.of " for -" ++ name
      ++ Text.of ": parse error")

def usage : List String :=
  ["Usage of openlisp:",
    "  -debug",
    "    \tlog macro expansions and evaluation faults to stderr",
    "  -e expr",
    "    \tevaluate expr and print the result",
    "  -history file",
    "    \tREPL history file (default ~/.openlisp_history)"]

def report (e : FlagError) : Text :=
  (e.message?.toList ++ usage.map Text.of).flatMap Text.line

end FlagError

inductive Flag
  | expression
  | debug
  | history
  deriving DecidableEq

def Flag.ofName? (name : Text) : Option Flag :=
  if name = Text.of "e" then some .expression
  else if name = Text.of "debug" then some .debug
  else if name = Text.of "history" then some .history
  else none

def yesWords : List String := ["1", "t", "T", "TRUE", "true", "True"]

def noWords : List String := ["0", "f", "F", "FALSE", "false", "False"]

def switchValue? (value : Text) : Option Bool :=
  if yesWords.any fun word => Text.of word == value then some true
  else if noWords.any fun word => Text.of word == value then some false
  else none

/-- The name of a flag and the value behind an equals sign; the sign is never the first byte. -/
def splitFlag : Text → Text × Option Text
  | [] => ([], none)
  | first :: rest =>
    match rest.dropWhile (· ≠ 61) with
    | [] => (first :: rest, none)
    | _ :: value => (first :: rest.takeWhile (· ≠ 61), some value)

/-- What one argument is. -/
inductive Argument
  | operand
  | terminator
  | flag (body : Text)
  | bad
  deriving DecidableEq

/-- What follows the dashes. -/
def Argument.ofBody : Text → Argument
  | [] => .bad
  | b :: rest => if b = 45 ∨ b = 61 then .bad else .flag (b :: rest)

def Argument.of : Text → Argument
  | [45, 45] => .terminator
  | 45 :: 45 :: body => ofBody body
  | 45 :: b :: rest => ofBody (b :: rest)
  | _ => .operand

/-- The options, and the arguments behind the flags. -/
def parseFlags (options : Options) : List Text → Except FlagError (Options × List Text)
  | [] => .ok (options, [])
  | arg :: rest =>
    match Argument.of arg with
    | .operand => .ok (options, arg :: rest)
    | .terminator => .ok (options, rest)
    | .bad => .error (.badFlag arg)
    | .flag body =>
      let (name, value) := splitFlag body
      match Flag.ofName? name, value, rest with
      | none, _, _ =>
        if name = Text.of "help" ∨ name = Text.of "h" then .error .help
        else .error (.undefined name)
      | some .debug, none, rest => parseFlags { options with debug := true } rest
      | some .debug, some value, rest =>
        match switchValue? value with
        | some debug => parseFlags { options with debug } rest
        | none => .error (.badSwitch value name)
      | some .expression, some value, rest => parseFlags { options with expression := value } rest
      | some .history, some value, rest => parseFlags { options with history := value } rest
      | some .expression, none, value :: rest =>
        parseFlags { options with expression := value } rest
      | some .history, none, value :: rest => parseFlags { options with history := value } rest
      | some _, none, [] => .error (.missingValue name)

end Lisp.Command
