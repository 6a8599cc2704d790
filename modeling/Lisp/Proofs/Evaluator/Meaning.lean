import Lisp.Evaluator.Eval

/-!
The meaning of forms, as a big-step relation. What a form evaluates to is derived from what its
parts evaluate to; a form in tail position is one of the parts, evaluated in the frame that the form
around it says. An evaluation ends with a value or with a failure, and with the world it leaves
behind. There is no bound and no loop here: a form that would run forever has no derivation.
-/
namespace Lisp

/-- How a computation ends. -/
abbrev Ending (α : Type) := EStateM.Result Failure World α

namespace Ending

/-- The world that is left behind. -/
def world {α : Type} : Ending α → World
  | .ok _ w | .error _ w => w

/-- Goes on with what was given; a failure stays. -/
def andThen {α β : Type} (r : Ending α) (f : α → Run β) : Ending β :=
  match r with
  | .ok a w => f a w
  | .error e w => .error e w

end Ending

section Endings

variable {α β γ : Type}

@[simp] theorem run_bind (m : Run α) (f : α → Run β) (w : World) :
    (m >>= f) w = Ending.andThen (m w) f := by
  change EStateM.bind m f w = _
  unfold EStateM.bind Ending.andThen
  cases m w <;> rfl

@[simp] theorem run_map (f : α → β) (m : Run α) (w : World) :
    (f <$> m) w = Ending.andThen (m w) fun a => pure (f a) := by
  change EStateM.map f m w = _
  unfold EStateM.map Ending.andThen
  cases m w <;> rfl

@[simp] theorem run_pure (a : α) (w : World) : (pure a : Run α) w = .ok a w := rfl

@[simp] theorem run_look (f : Heap → α) (w : World) : Run.look f w = .ok (f w.heap) w := rfl

@[simp] theorem run_get (w : World) : (get : Run World) w = .ok w w := rfl

@[simp] theorem run_throw (e : Failure) (w : World) :
    (throw e : Run α) w = .error e w := rfl

@[simp] theorem run_fault (f : Fault) (w : World) :
    (Run.fault f : Run α) w = .error (.fault f) w := rfl

namespace Ending

@[simp] theorem andThen_ok (a : α) (w : World) (f : α → Run β) :
    andThen (.ok a w) f = f a w := rfl

@[simp] theorem andThen_error (e : Failure) (w : World) (f : α → Run β) :
    andThen (.error e w) f = .error e w := rfl

theorem andThen_assoc (r : Ending α) (f : α → Run β) (g : β → Run γ) :
    (r.andThen f).andThen g = r.andThen fun a => f a >>= g := by
  cases r with
  | ok a w => exact (run_bind (f a) g w).symm
  | error e w => rfl

end Ending

@[simp] theorem run_require (f : Heap → Except Fault α) (w : World) :
    Run.require f w = match f w.heap with
      | .ok a => .ok a w
      | .error e => .error (.fault e) w := by
  simp only [Run.require, run_bind, run_look, Ending.andThen_ok]
  cases f w.heap <;> rfl

@[simp] theorem run_settle (f : Heap → Except Failure α) (w : World) :
    Run.settle f w = match f w.heap with
      | .ok a => .ok a w
      | .error e => .error e w := by
  simp only [Run.settle, run_bind, run_look, Ending.andThen_ok]
  cases f w.heap <;> rfl

end Endings

namespace Meaning

open Evaluator

/-- The form is a list that starts with the name of a special form. -/
def IsSpecial (h : Heap) (form : Value) (special : Special) (forms : List Value) : Prop :=
  ∃ cell head, h.content form = .list cell ∧ h.items cell = head :: forms ∧
    (h.symbol? head).bind Special.ofName? = some special

/-- The form is a list that starts with anything else. -/
def IsCall (h : Heap) (form head : Value) (forms : List Value) : Prop :=
  ∃ cell, h.content form = .list cell ∧ h.items cell = head :: forms ∧
    (h.symbol? head).bind Special.ofName? = none

/-- The form stands for itself. -/
def IsConstant (h : Heap) (form : Value) : Prop :=
  match h.content form with
  | .symbol _ | .vector _ | .map _ => False
  | .list cell => h.items cell = []
  | _ => True

/-- What is wrong with what stands where a name should. -/
def nameFailure? (h : Heap) (special : Special) (target : Value) : Option Failure :=
  match h.content target with
  | .symbol _ => none
  | content => some (.malformed special (.definedName content.kind))

/-- What is wrong with the parts of a special form before any of them is evaluated. -/
def shapeFailure? (h : Heap) (special : Special) (forms : List Value) : Option Failure :=
  let malformed why := some (Failure.malformed special why)
  match special, forms with
  | .letStar, bindings :: _ =>
    match h.elements? bindings with
    | none => malformed .bindings
    | some bindings =>
      if bindings.length % 2 ≠ 0 then malformed (.unpairedBindings bindings.length) else none
  | .letStar, [] => malformed .bindings
  | .sequence, _ => none
  | .conditional, [_, _] | .conditional, [_, _, _] => none
  | .conditional, _ => malformed .conditionalParts
  | .tryStar, [_] => none
  | .tryStar, [_, clause] =>
    match catchClause h clause with
    | .ok _ => none
    | .error e => some e
  | .tryStar, _ => malformed .tryParts
  | .define, [target, _] | .defineMacro, [target, _] | .assign, [target, _] =>
    nameFailure? h special target
  | .define, _ | .defineMacro, _ | .assign, _ => malformed .nameAndValue
  | .quote, [_] | .quasiquote, [_] | .macroexpand, [_] => none
  | .quote, _ | .quasiquote, _ | .macroexpand, _ => malformed .oneForm
  | .function, params :: _ =>
    match h.elements? params with
    | none => malformed .parameters
    | some params =>
      match parameters h params with
      | .ok _ => none
      | .error e => some e
  | .function, [] => malformed .parameters
  | .unquote, _ | .splice, _ => malformed .outsideQuasiquote
  | .catchStar, _ => malformed .outsideTry

/-- Binds a name to a macro made of a closure. -/
def bindMacro (frame : FrameId) (name : Text) (f : Value) : Run Value := do
  match ← Run.look (·.callee f) with
  | .closure c =>
    let metadata ← Run.look (·.metadata? f)
    let v ← Run.onHeap (·.makeClosure { c with isMacro := true } metadata)
    Run.define frame name v
    pure v
  | _ => Run.fault (.notClosure (← Run.look (·.kind f)))

/-- Notes what a macro call stands for. -/
def noteExpansion (expansion : Value) : Run Value := do
  Run.note fun h => .ok (Log.line "macro expanded" [("expansion", h.render .readable expansion)])
  pure expansion

mutual

/-- `Evaluates w form frame r`: in world `w`, the form evaluated in the frame ends with `r`. -/
inductive Evaluates : World → Value → FrameId → Ending Value → Prop
  | constant {w : World} {form : Value} {frame : FrameId} :
    IsConstant w.heap form → Evaluates w form frame (.ok form w)
  | symbol {w : World} {form : Value} {frame : FrameId} {name : Text} :
    w.heap.content form = .symbol name → Evaluates w form frame (Run.lookup frame name w)
  | vector {w : World} {form : Value} {frame : FrameId} {cell : CellId} {r : Ending (List Value)} :
    w.heap.content form = .vector cell → EvaluatesAll w (w.heap.items cell) frame r →
    Evaluates w form frame (r.andThen Run.makeVector)
  | map {w : World} {form : Value} {frame : FrameId} {entries : Entries}
    {r : Ending (List Value)} :
    w.heap.content form = .map entries →
    EvaluatesAll w (entries.toList.flatMap fun entry => [entry.1, entry.2]) frame r →
    Evaluates w form frame (r.andThen Run.makeMap)
  | malformed {w : World} {form : Value} {frame : FrameId} {special : Special}
    {forms : List Value} {e : Failure} :
    IsSpecial w.heap form special forms → shapeFailure? w.heap special forms = some e →
    Evaluates w form frame (.error e w)
  -- The last form of a sequence is evaluated in the frame of the sequence.
  | sequenceEmpty {w : World} {form : Value} {frame : FrameId} :
    IsSpecial w.heap form .sequence [] → Evaluates w form frame (.ok .nil w)
  | sequence {w u : World} {form last : Value} {frame : FrameId} {earlier vs : List Value}
    {r : Ending Value} :
    IsSpecial w.heap form .sequence (earlier ++ [last]) →
    EvaluatesAll w earlier frame (.ok vs u) → Evaluates u last frame r → Evaluates w form frame r
  | sequenceFails {w u : World} {form last : Value} {frame : FrameId} {earlier : List Value}
    {e : Failure} :
    IsSpecial w.heap form .sequence (earlier ++ [last]) →
    EvaluatesAll w earlier frame (.error e u) → Evaluates w form frame (.error e u)
  -- The branch that is chosen is evaluated in the frame of the condition.
  | conditionalThen {w u : World} {form condition yes v : Value} {frame : FrameId}
    {no : Option Value} {r : Ending Value} :
    IsSpecial w.heap form .conditional (condition :: yes :: no.toList) →
    Evaluates w condition frame (.ok v u) → u.heap.isTruthy v = true →
    Evaluates u yes frame r → Evaluates w form frame r
  | conditionalElse {w u : World} {form condition yes no v : Value} {frame : FrameId}
    {r : Ending Value} :
    IsSpecial w.heap form .conditional [condition, yes, no] →
    Evaluates w condition frame (.ok v u) → u.heap.isTruthy v = false →
    Evaluates u no frame r → Evaluates w form frame r
  | conditionalNone {w u : World} {form condition yes v : Value} {frame : FrameId} :
    IsSpecial w.heap form .conditional [condition, yes] →
    Evaluates w condition frame (.ok v u) → u.heap.isTruthy v = false →
    Evaluates w form frame (.ok .nil u)
  | conditionalFails {w u : World} {form condition yes : Value} {frame : FrameId}
    {no : Option Value} {e : Failure} :
    IsSpecial w.heap form .conditional (condition :: yes :: no.toList) →
    Evaluates w condition frame (.error e u) → Evaluates w form frame (.error e u)
  -- The body of a `let*` is evaluated in the frame that its names are bound in.
  | letStar {w u x y : World} {form target body : Value} {frame inner : FrameId}
    {pairs forms : List Value} {r : Ending Value} :
    IsSpecial w.heap form .letStar (target :: forms) → w.heap.elements? target = some pairs →
    pairs.length % 2 = 0 → Run.newFrame (some frame) {} w = .ok inner u →
    Binds u pairs inner (.ok () x) → bodyOf forms x = .ok body y →
    Evaluates y body inner r → Evaluates w form frame r
  | letStarFails {w u x : World} {form target : Value} {frame inner : FrameId}
    {pairs forms : List Value} {e : Failure} :
    IsSpecial w.heap form .letStar (target :: forms) → w.heap.elements? target = some pairs →
    pairs.length % 2 = 0 → Run.newFrame (some frame) {} w = .ok inner u →
    Binds u pairs inner (.error e x) → Evaluates w form frame (.error e x)
  -- A handler is evaluated in a frame of its own, where the raised value has its name.
  | attempt {w : World} {form body : Value} {frame : FrameId} {r : Ending Value} :
    IsSpecial w.heap form .tryStar [body] → Evaluates w body frame r → Evaluates w form frame r
  | attemptGives {w u : World} {form body clause handler v : Value} {frame : FrameId}
    {name : Text} :
    IsSpecial w.heap form .tryStar [body, clause] →
    catchClause w.heap clause = .ok (name, handler) → Evaluates w body frame (.ok v u) →
    Evaluates w form frame (.ok v u)
  | attemptCatches {w u x : World} {form body clause handler v : Value} {frame inner : FrameId}
    {name : Text} {r : Ending Value} :
    IsSpecial w.heap form .tryStar [body, clause] →
    catchClause w.heap clause = .ok (name, handler) →
    Evaluates w body frame (.error (.thrown v) u) →
    Run.newFrame (some frame) (.ofPairs [(name, v)]) u = .ok inner x →
    Evaluates x handler inner r → Evaluates w form frame r
  | attemptFails {w u : World} {form body clause handler : Value} {frame : FrameId} {name : Text}
    {e : Failure} :
    IsSpecial w.heap form .tryStar [body, clause] →
    catchClause w.heap clause = .ok (name, handler) → Evaluates w body frame (.error e u) →
    (∀ v, e ≠ .thrown v) → Evaluates w form frame (.error e u)
  | define {w : World} {form target value : Value} {frame : FrameId} {name : Text}
    {r : Ending Value} :
    IsSpecial w.heap form .define [target, value] → w.heap.content target = .symbol name →
    Evaluates w value frame r →
    Evaluates w form frame (r.andThen fun v => do Run.define frame name v; pure v)
  | assign {w : World} {form target value : Value} {frame : FrameId} {name : Text}
    {r : Ending Value} :
    IsSpecial w.heap form .assign [target, value] → w.heap.content target = .symbol name →
    Evaluates w value frame r →
    Evaluates w form frame (r.andThen fun v => do Run.assign frame name v; pure v)
  | defineMacro {w : World} {form target value : Value} {frame : FrameId} {name : Text}
    {r : Ending Value} :
    IsSpecial w.heap form .defineMacro [target, value] → w.heap.content target = .symbol name →
    Evaluates w value frame r → Evaluates w form frame (r.andThen (bindMacro frame name))
  | function {w : World} {form target : Value} {frame : FrameId} {params forms : List Value}
    {names : List Text} {tail : Option Text} :
    IsSpecial w.heap form .function (target :: forms) → w.heap.elements? target = some params →
    parameters w.heap params = .ok (names, tail) →
    Evaluates w form frame (Ending.andThen (bodyOf forms w) fun body =>
      Run.onHeap (·.makeClosure ⟨frame, names, tail, body, false⟩ none))
  | quote {w : World} {form quoted : Value} {frame : FrameId} :
    IsSpecial w.heap form .quote [quoted] → Evaluates w form frame (.ok quoted w)
  | quasiquote {w : World} {form template : Value} {frame : FrameId} {r : Ending Value} :
    IsSpecial w.heap form .quasiquote [template] → Fills w template frame r →
    Evaluates w form frame r
  | macroexpand {w : World} {form target : Value} {frame : FrameId} {r : Ending Value} :
    IsSpecial w.heap form .macroexpand [target] → Expands w target frame r →
    Evaluates w form frame r
  -- The body of a function is evaluated in the frame of the call, and what a macro call stands for
  -- where the call stands.
  | callFails {w u : World} {form head : Value} {forms : List Value} {frame : FrameId}
    {e : Failure} :
    IsCall w.heap form head forms → Evaluates w head frame (.error e u) →
    Evaluates w form frame (.error e u)
  | callNothing {w u : World} {form head f : Value} {forms : List Value} {frame : FrameId}
    {got : Kind} :
    IsCall w.heap form head forms → Evaluates w head frame (.ok f u) →
    u.heap.callee f = .nothing got →
    Evaluates w form frame (.error (.fault (.notFunction got (u.heap.render .readable head))) u)
  | callMacro {w u x : World} {form head f expansion : Value} {forms : List Value}
    {frame : FrameId} {c : Closure} {r : Ending Value} :
    IsCall w.heap form head forms → Evaluates w head frame (.ok f u) →
    u.heap.callee f = .closure c → c.isMacro = true →
    ExpandsOnce u c forms (.ok expansion x) → Evaluates x expansion frame r →
    Evaluates w form frame r
  | callMacroFails {w u x : World} {form head f : Value} {forms : List Value} {frame : FrameId}
    {c : Closure} {e : Failure} :
    IsCall w.heap form head forms → Evaluates w head frame (.ok f u) →
    u.heap.callee f = .closure c → c.isMacro = true →
    ExpandsOnce u c forms (.error e x) → Evaluates w form frame (.error e x)
  | callClosure {w u x y : World} {form head f : Value} {forms args : List Value}
    {frame inner : FrameId} {c : Closure} {r : Ending Value} :
    IsCall w.heap form head forms → Evaluates w head frame (.ok f u) →
    u.heap.callee f = .closure c → c.isMacro = false → EvaluatesAll u forms frame (.ok args x) →
    Run.bindClosure c args x = .ok inner y → Evaluates y c.body inner r → Evaluates w form frame r
  | callClosureFails {w u x y : World} {form head f : Value} {forms args : List Value}
    {frame : FrameId} {c : Closure} {e : Failure} :
    IsCall w.heap form head forms → Evaluates w head frame (.ok f u) →
    u.heap.callee f = .closure c → c.isMacro = false → EvaluatesAll u forms frame (.ok args x) →
    Run.bindClosure c args x = .error e y → Evaluates w form frame (.error e y)
  | callNative {w u x : World} {form head f : Value} {forms args : List Value} {frame : FrameId}
    {n : Native} {r : Ending Value} :
    IsCall w.heap form head forms → Evaluates w head frame (.ok f u) →
    u.heap.callee f = .native n → EvaluatesAll u forms frame (.ok args x) → Invokes x n args r →
    Evaluates w form frame r
  | callArgumentsFail {w u x : World} {form head f : Value} {forms : List Value}
    {frame : FrameId} {e : Failure} :
    IsCall w.heap form head forms → Evaluates w head frame (.ok f u) →
    (∀ c, u.heap.callee f = .closure c → c.isMacro = false) →
    (∀ got, u.heap.callee f ≠ .nothing got) → EvaluatesAll u forms frame (.error e x) →
    Evaluates w form frame (.error e x)

/-- Evaluation of forms from left to right. -/
inductive EvaluatesAll : World → List Value → FrameId → Ending (List Value) → Prop
  | nil {w : World} {frame : FrameId} : EvaluatesAll w [] frame (.ok [] w)
  | cons {w u : World} {form v : Value} {forms : List Value} {frame : FrameId}
    {r : Ending (List Value)} :
    Evaluates w form frame (.ok v u) → EvaluatesAll u forms frame r →
    EvaluatesAll w (form :: forms) frame (r.andThen fun vs => pure (v :: vs))
  | fails {w u : World} {form : Value} {forms : List Value} {frame : FrameId} {e : Failure} :
    Evaluates w form frame (.error e u) → EvaluatesAll w (form :: forms) frame (.error e u)

/-- Names bound to values in turn, in the frame that the values are evaluated in. -/
inductive Binds : World → List Value → FrameId → Ending Unit → Prop
  | nil {w : World} {frame : FrameId} : Binds w [] frame (.ok () w)
  | cons {w u x : World} {target form v : Value} {rest : List Value} {frame : FrameId}
    {name : Text} {r : Ending Unit} :
    w.heap.content target = .symbol name → Evaluates w form frame (.ok v u) →
    Run.define frame name v u = .ok () x → Binds x rest frame r →
    Binds w (target :: form :: rest) frame r
  | fails {w u : World} {target form : Value} {rest : List Value} {frame : FrameId} {name : Text}
    {e : Failure} :
    w.heap.content target = .symbol name → Evaluates w form frame (.error e u) →
    Binds w (target :: form :: rest) frame (.error e u)
  | malformed {w : World} {target form : Value} {rest : List Value} {frame : FrameId} :
    (∀ name, w.heap.content target ≠ .symbol name) →
    Binds w (target :: form :: rest) frame
      (.error (.fault (.malformed .letStar (.bindingName (w.heap.kind target)))) w)

/-- A macro run on argument forms. -/
inductive ExpandsOnce : World → Closure → List Value → Ending Value → Prop
  | body {w u : World} {c : Closure} {forms : List Value} {frame : FrameId} {r : Ending Value} :
    Run.bindClosure c forms w = .ok frame u → Evaluates u c.body frame r →
    ExpandsOnce w c forms (r.andThen noteExpansion)
  | fails {w u : World} {c : Closure} {forms : List Value} {e : Failure} :
    Run.bindClosure c forms w = .error e u → ExpandsOnce w c forms (.error e u)

/-- Expansion for as long as the head of the form names a macro. -/
inductive Expands : World → Value → FrameId → Ending Value → Prop
  | done {w : World} {form : Value} {frame : FrameId} :
    macroCall? w frame form = none → Expands w form frame (.ok form w)
  | step {w u : World} {form expansion : Value} {frame : FrameId} {c : Closure}
    {forms : List Value} {r : Ending Value} :
    macroCall? w frame form = some (c, forms) → ExpandsOnce w c forms (.ok expansion u) →
    Expands u expansion frame r → Expands w form frame r
  | fails {w u : World} {form : Value} {frame : FrameId} {c : Closure} {forms : List Value}
    {e : Failure} :
    macroCall? w frame form = some (c, forms) → ExpandsOnce w c forms (.error e u) →
    Expands w form frame (.error e u)

/-- What a quasiquoted template stands for. -/
inductive Fills : World → Value → FrameId → Ending Value → Prop
  | hole {w : World} {template form : Value} {frame : FrameId} {r : Ending Value} :
    holeForms? .unquote w.heap template = some [form] → Evaluates w form frame r →
    Fills w template frame r
  | malformed {w : World} {template : Value} {frame : FrameId} {forms : List Value} :
    holeForms? .unquote w.heap template = some forms → forms.length ≠ 1 →
    Fills w template frame (.error (.fault (.malformed .unquote .oneForm)) w)
  | list {w : World} {template : Value} {frame : FrameId} {cell : CellId}
    {r : Ending (List Value)} :
    holeForms? .unquote w.heap template = none → w.heap.content template = .list cell →
    FillsAll w (w.heap.items cell) frame r → Fills w template frame (r.andThen Run.makeList)
  | vector {w : World} {template : Value} {frame : FrameId} {cell : CellId}
    {r : Ending (List Value)} :
    holeForms? .unquote w.heap template = none → w.heap.content template = .vector cell →
    FillsAll w (w.heap.items cell) frame r → Fills w template frame (r.andThen Run.makeVector)
  | map {w : World} {template : Value} {frame : FrameId} {entries : Entries}
    {r : Ending (List Value)} :
    holeForms? .unquote w.heap template = none → w.heap.content template = .map entries →
    FillsEntries w entries.toList frame r → Fills w template frame (r.andThen Run.makeMap)
  | constant {w : World} {template : Value} {frame : FrameId} :
    holeForms? .unquote w.heap template = none →
    (∀ cell, w.heap.content template ≠ .list cell) →
    (∀ cell, w.heap.content template ≠ .vector cell) →
    (∀ entries, w.heap.content template ≠ .map entries) →
    Fills w template frame (.ok template w)

/-- What the elements of a template stand for. -/
inductive FillsAll : World → List Value → FrameId → Ending (List Value) → Prop
  | nil {w : World} {frame : FrameId} : FillsAll w [] frame (.ok [] w)
  | splice {w u : World} {item form v : Value} {items spliced : List Value} {frame : FrameId}
    {r : Ending (List Value)} :
    holeForms? .splice w.heap item = some [form] → Evaluates w form frame (.ok v u) →
    splicedItems u.heap v = .ok spliced → FillsAll u items frame r →
    FillsAll w (item :: items) frame (r.andThen fun more => pure (spliced ++ more))
  | spliceRefused {w u : World} {item form v : Value} {items : List Value} {frame : FrameId}
    {f : Fault} :
    holeForms? .splice w.heap item = some [form] → Evaluates w form frame (.ok v u) →
    splicedItems u.heap v = .error f → FillsAll w (item :: items) frame (.error (.fault f) u)
  | spliceFails {w u : World} {item form : Value} {items : List Value} {frame : FrameId}
    {e : Failure} :
    holeForms? .splice w.heap item = some [form] → Evaluates w form frame (.error e u) →
    FillsAll w (item :: items) frame (.error e u)
  | spliceMalformed {w : World} {item : Value} {items forms : List Value} {frame : FrameId} :
    holeForms? .splice w.heap item = some forms → forms.length ≠ 1 →
    FillsAll w (item :: items) frame (.error (.fault (.malformed .splice .oneForm)) w)
  | cons {w u : World} {item v : Value} {items : List Value} {frame : FrameId}
    {r : Ending (List Value)} :
    holeForms? .splice w.heap item = none → Fills w item frame (.ok v u) →
    FillsAll u items frame r →
    FillsAll w (item :: items) frame (r.andThen fun more => pure (v :: more))
  | fails {w u : World} {item : Value} {items : List Value} {frame : FrameId} {e : Failure} :
    holeForms? .splice w.heap item = none → Fills w item frame (.error e u) →
    FillsAll w (item :: items) frame (.error e u)

/-- The entries of a map in a template: keys are kept as they are. -/
inductive FillsEntries : World → List (Value × Value) → FrameId → Ending (List Value) → Prop
  | nil {w : World} {frame : FrameId} : FillsEntries w [] frame (.ok [] w)
  | cons {w u : World} {key value v : Value} {entries : List (Value × Value)} {frame : FrameId}
    {r : Ending (List Value)} :
    Fills w value frame (.ok v u) → FillsEntries u entries frame r →
    FillsEntries w ((key, value) :: entries) frame (r.andThen fun more => pure (key :: v :: more))
  | fails {w u : World} {key value : Value} {entries : List (Value × Value)} {frame : FrameId}
    {e : Failure} :
    Fills w value frame (.error e u) → FillsEntries w ((key, value) :: entries) frame (.error e u)

/-- A call of a native on values. -/
inductive Invokes : World → Native → List Value → Ending Value → Prop
  | operation {w : World} {op : Operation} {args : List Value} :
    Invokes w (.operation op) args (op.call args w)
  | apply {w : World} {f x : Value} {more items : List Value} {r : Ending Value} :
    Collection.elements Native.apply.name w.heap ((x :: more).getLastD .nil) = .ok items →
    Applies w f ((x :: more).dropLast ++ items) r → Invokes w .apply (f :: x :: more) r
  | applyRefused {w : World} {f x : Value} {more : List Value} {e : Fault} :
    Collection.elements Native.apply.name w.heap ((x :: more).getLastD .nil) = .error e →
    Invokes w .apply (f :: x :: more) (.error (.fault e) w)
  | applyArguments {w : World} {args : List Value} :
    args.length < 2 →
    Invokes w .apply args (.error (.fault (.argumentsAtLeast Native.apply.name 2 args.length)) w)
  | map {w : World} {f coll : Value} {items : List Value} {r : Ending (List Value)} :
    Collection.elements Native.map.name w.heap coll = .ok items → Maps w f items r →
    Invokes w .map [f, coll] (r.andThen Run.makeList)
  | mapRefused {w : World} {f coll : Value} {e : Fault} :
    Collection.elements Native.map.name w.heap coll = .error e →
    Invokes w .map [f, coll] (.error (.fault e) w)
  | mapArguments {w : World} {args : List Value} :
    args.length ≠ 2 →
    Invokes w .map args (.error (.fault (.arguments Native.map.name 2 args.length)) w)
  | swap {w : World} {target f : Value} {extra : List Value} {atom : AtomId} {r : Ending Value} :
    w.heap.content target = .atom atom → Swaps w atom f extra r →
    Invokes w .swap (target :: f :: extra) r
  | swapRefused {w : World} {target f : Value} {extra : List Value} :
    (∀ atom, w.heap.content target ≠ .atom atom) →
    Invokes w .swap (target :: f :: extra)
      (.error (.fault (.operand Native.swap.name (Text.of "an atom") (w.heap.kind target))) w)
  | swapArguments {w : World} {args : List Value} :
    args.length < 2 →
    Invokes w .swap args (.error (.fault (.argumentsAtLeast Native.swap.name 2 args.length)) w)
  | eval {w : World} {form : Value} {r : Ending Value} :
    Evaluates w form World.root r → Invokes w .eval [form] r
  | evalArguments {w : World} {args : List Value} :
    args.length ≠ 1 →
    Invokes w .eval args (.error (.fault (.arguments Native.eval.name 1 args.length)) w)
  | inert {w : World} {name : Text} {args : List Value} :
    Invokes w (.inert name) args (.ok .nil w)

/-- A call of a function value on values. -/
inductive Applies : World → Value → List Value → Ending Value → Prop
  | native {w : World} {f : Value} {args : List Value} {n : Native} {r : Ending Value} :
    w.heap.callee f = .native n → Invokes w n args r → Applies w f args r
  | closure {w u : World} {f : Value} {args : List Value} {c : Closure} {frame : FrameId}
    {r : Ending Value} :
    w.heap.callee f = .closure c → Run.bindClosure c args w = .ok frame u →
    Evaluates u c.body frame r → Applies w f args r
  | fails {w u : World} {f : Value} {args : List Value} {c : Closure} {e : Failure} :
    w.heap.callee f = .closure c → Run.bindClosure c args w = .error e u →
    Applies w f args (.error e u)
  | nothing {w : World} {f : Value} {args : List Value} {got : Kind} :
    w.heap.callee f = .nothing got →
    Applies w f args (.error (.fault (.notFunction got (w.heap.render .readable f))) w)

/-- Calls on each element, from left to right. -/
inductive Maps : World → Value → List Value → Ending (List Value) → Prop
  | nil {w : World} {f : Value} : Maps w f [] (.ok [] w)
  | cons {w u : World} {f item v : Value} {items : List Value} {r : Ending (List Value)} :
    Applies w f [item] (.ok v u) → Maps u f items r →
    Maps w f (item :: items) (r.andThen fun vs => pure (v :: vs))
  | fails {w u : World} {f item : Value} {items : List Value} {e : Failure} :
    Applies w f [item] (.error e u) → Maps w f (item :: items) (.error e u)

/-- A function called on what an atom holds, until it leaves the atom alone. -/
inductive Swaps : World → AtomId → Value → List Value → Ending Value → Prop
  | done {w u : World} {atom : AtomId} {f new : Value} {extra : List Value} :
    Applies w f (w.heap.deref atom :: extra) (.ok new u) →
    u.heap.deref atom = w.heap.deref atom →
    Swaps w atom f extra (.ok new { u with heap := u.heap.reset atom new })
  | again {w u : World} {atom : AtomId} {f new : Value} {extra : List Value} {r : Ending Value} :
    Applies w f (w.heap.deref atom :: extra) (.ok new u) →
    u.heap.deref atom ≠ w.heap.deref atom → Swaps u atom f extra r → Swaps w atom f extra r
  | fails {w u : World} {atom : AtomId} {f : Value} {extra : List Value} {e : Failure} :
    Applies w f (w.heap.deref atom :: extra) (.error e u) → Swaps w atom f extra (.error e u)

end

end Meaning

end Lisp
