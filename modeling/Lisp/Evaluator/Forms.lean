import Lisp.Evaluator.Template

/-!
The special forms, each on the forms behind its name. A form first sees how many forms there are,
and takes them one by one after that; for each there is an equation by the forms it is given.
-/
namespace Lisp.Evaluator

/-- Binds names to values in turn, in the frame that the values are evaluated in. -/
def bindAll (eval : Evaluation) (frame : FrameId) : List Value → Run Unit
  | [] => pure ()
  | [target] => do
    match ← Run.look (·.content target) with
    | .symbol _ => Run.check ((fetch [target] 1).map fun _ => ())
    | content => Run.malformed .letStar (.bindingName content.kind)
  | target :: form :: rest => do
    match ← Run.look (·.content target) with
    | .symbol name =>
      let v ← eval form frame
      Run.define frame name v
      bindAll eval frame rest
    | content => Run.malformed .letStar (.bindingName content.kind)

def letStar (eval : Evaluation) (frame : FrameId) (forms : List Value) : Run Turn := do
  if forms.length < 1 then Run.malformed .letStar .bindings
  else
    let bindings ← Run.check (fetch forms 0)
    match ← Run.look (·.elements? bindings) with
    | none => Run.malformed .letStar .bindings
    | some bindings =>
      if bindings.length % 2 ≠ 0 then Run.malformed .letStar (.unpairedBindings bindings.length)
      else
        let inner ← Run.newFrame (some frame) {}
        bindAll eval inner bindings
        let body ← Run.check (behind forms 1)
        return .next (← bodyOf body) inner

/-- Evaluates all forms but the last, and goes on with that one. -/
def sequence (eval : Evaluation) (frame : FrameId) (forms : List Value) : Run Turn := do
  if forms.length = 0 then return .done .nil
  else
    let leading ← Run.check (part forms 0 (forms.length - 1))
    let _ ← evalAll eval frame leading
    return .next (← Run.check (fetch forms (forms.length - 1))) frame

def conditional (eval : Evaluation) (frame : FrameId) (forms : List Value) : Run Turn := do
  if forms.length < 2 ∨ 3 < forms.length then Run.malformed .conditional .conditionalParts
  else
    let condition ← Run.check (fetch forms 0)
    let v ← eval condition frame
    if ← Run.look (·.isTruthy v) then return .next (← Run.check (fetch forms 1)) frame
    else if forms.length < 3 then return .done .nil
    else return .next (← Run.check (fetch forms 2)) frame

/-- The name and the handler of a `catch*` clause. -/
def catchClause (h : Heap) (clause : Value) : Except Failure (Text × Value) :=
  match h.content clause with
  | .list cell =>
    let items := h.items cell
    if items.length ≠ 3 then .error (.malformed .tryStar .catchClause)
    else do
      let head ← Failure.check (fetch items 0)
      if !h.isSymbol head Special.catchStar.name then .error (.malformed .tryStar .catchClause)
      else
        let target ← Failure.check (fetch items 1)
        match h.content target with
        | .symbol name => return (name, ← Failure.check (fetch items 2))
        | content => .error (.malformed .catchStar (.catchName content.kind))
  | _ => .error (.malformed .tryStar .catchClause)

/-- Goes on with the handler when a value is raised; every other failure passes. -/
@[inline] def catching (attempt : Run Value) (frame : FrameId) (name : Text) (handler : Value) :
    Run Turn := fun w =>
  match attempt w with
  | .ok v w => .ok (.done v) w
  | .error (.thrown v) w =>
    (do
      let inner ← Run.newFrame (some frame) (.ofPairs [(name, v)])
      return Turn.next handler inner : Run Turn) w
  | .error e w => .error e w

def tryStar (eval : Evaluation) (frame : FrameId) (forms : List Value) : Run Turn := do
  if forms.length < 1 ∨ 2 < forms.length then Run.malformed .tryStar .tryParts
  else if forms.length = 2 then
    let clause ← Run.check (fetch forms 1)
    let (name, handler) ← Run.settle (catchClause · clause)
    let body ← Run.check (fetch forms 0)
    catching (eval body frame) frame name handler
  else
    let body ← Run.check (fetch forms 0)
    return .done (← eval body frame)

/-- The name and the value of a form that binds one. -/
def definition (eval : Evaluation) (frame : FrameId) (form : Special) (forms : List Value) :
    Run (Text × Value) := do
  if forms.length ≠ 2 then Run.malformed form .nameAndValue
  else
    let target ← Run.check (fetch forms 0)
    match ← Run.look (·.content target) with
    | .symbol name =>
      let value ← Run.check (fetch forms 1)
      let v ← eval value frame
      pure (name, v)
    | content => Run.malformed form (.definedName content.kind)

def define (eval : Evaluation) (frame : FrameId) (forms : List Value) : Run Value := do
  let (name, v) ← definition eval frame .define forms
  Run.define frame name v
  pure v

def assign (eval : Evaluation) (frame : FrameId) (forms : List Value) : Run Value := do
  let (name, v) ← definition eval frame .assign forms
  Run.assign frame name v
  pure v

/-- Binds a macro made of a closure; the closure itself stays a function. -/
def defineMacro (eval : Evaluation) (frame : FrameId) (forms : List Value) : Run Value := do
  let (name, f) ← definition eval frame .defineMacro forms
  match ← Run.look (·.callee f) with
  | .closure c =>
    let metadata ← Run.look (·.metadata? f)
    let v ← Run.onHeap (·.makeClosure { c with isMacro := true } metadata)
    Run.define frame name v
    pure v
  | _ => Run.fault (.notClosure (← Run.look (·.kind f)))

/-- Parameter names, and the name behind `&`. An empty name there is no tail. -/
def parameters (h : Heap) : List Value → Except Failure (List Text × Option Text)
  | [] => .ok ([], none)
  | param :: rest =>
    match h.content param with
    | .symbol name =>
      if name = Text.of "&" then
        if rest.length ≠ 1 then .error (.malformed .function (.afterAmpersand rest.length))
        else do
          let tail ← Failure.check (fetch rest 0)
          match h.content tail with
          | .symbol [] => .ok ([], none)
          | .symbol tail => .ok ([], some tail)
          | content => .error (.malformed .function (.tailName content.kind))
      else do
        let (names, tail) ← parameters h rest
        return (name :: names, tail)
    | content => .error (.malformed .function (.parameterName content.kind))

def function (frame : FrameId) (forms : List Value) : Run Value := do
  if forms.length < 1 then Run.malformed .function .parameters
  else
    let params ← Run.check (fetch forms 0)
    match ← Run.look (·.elements? params) with
    | none => Run.malformed .function .parameters
    | some params =>
      let (names, tail) ← Run.settle (parameters · params)
      let body ← bodyOf (← Run.check (behind forms 1))
      Run.onHeap (·.makeClosure ⟨frame, names, tail, body, false⟩ none)

/-- For forms that take one form. -/
def single (special : Special) (forms : List Value) (go : Value → Run Value) : Run Value := do
  if forms.length ≠ 1 then Run.malformed special .oneForm
  else go (← Run.check (fetch forms 0))

/-- A special form; `steps` bounds templates and repeated expansion. -/
def special (eval : Evaluation) (steps : Nat) (frame : FrameId) (form : Special)
    (forms : List Value) : Run Turn :=
  match form with
  | .letStar => letStar eval frame forms
  | .sequence => sequence eval frame forms
  | .conditional => conditional eval frame forms
  | .tryStar => tryStar eval frame forms
  | .quasiquote => Turn.done <$> single form forms (fill eval frame steps)
  | .define => Turn.done <$> define eval frame forms
  | .defineMacro => Turn.done <$> defineMacro eval frame forms
  | .assign => Turn.done <$> assign eval frame forms
  | .function => Turn.done <$> function frame forms
  | .quote => Turn.done <$> single form forms pure
  | .macroexpand => Turn.done <$> single form forms (expandAll eval frame steps)
  | .unquote | .splice => Run.malformed form .outsideQuasiquote
  | .catchStar => Run.malformed form .outsideTry

section Equations

variable (eval : Evaluation) (frame : FrameId) (forms : List Value)

theorem letStar_eq :
    letStar eval frame forms =
      match forms with
      | [] => Run.malformed .letStar .bindings
      | bindings :: body => (do
        match ← Run.look (·.elements? bindings) with
        | none => Run.malformed .letStar .bindings
        | some bindings =>
          if bindings.length % 2 ≠ 0 then Run.malformed .letStar (.unpairedBindings bindings.length)
          else
            let inner ← Run.newFrame (some frame) {}
            bindAll eval inner bindings
            return .next (← bodyOf body) inner) := by
  cases forms <;> simp [letStar]

theorem sequence_eq :
    sequence eval frame forms =
      match forms.getLast? with
      | none => pure (.done .nil)
      | some last => do
        let _ ← evalAll eval frame forms.dropLast
        return .next last frame := by
  rcases List.eq_nil_or_concat forms with rfl | ⟨leading, last, rfl⟩
  · rfl
  · rw [List.concat_eq_append, sequence, if_neg (by simp), part_leading, fetch_last,
      List.getLast?_concat, List.dropLast_concat]
    rfl

theorem conditional_eq :
    conditional eval frame forms =
      match forms with
      | [condition, yes] => do
        let v ← eval condition frame
        if ← Run.look (·.isTruthy v) then return .next yes frame else return .done .nil
      | [condition, yes, no] => do
        let v ← eval condition frame
        if ← Run.look (·.isTruthy v) then return .next yes frame else return .next no frame
      | _ => Run.malformed .conditional .conditionalParts := by
  rcases forms with _ | ⟨condition, _ | ⟨yes, _ | ⟨no, _ | ⟨x, more⟩⟩⟩⟩ <;> simp [conditional]

theorem catchClause_eq (h : Heap) (clause : Value) :
    catchClause h clause =
      match h.content clause with
      | .list cell =>
        match h.items cell with
        | [head, target, handler] =>
          if !h.isSymbol head Special.catchStar.name then .error (.malformed .tryStar .catchClause)
          else
            match h.content target with
            | .symbol name => .ok (name, handler)
            | content => .error (.malformed .catchStar (.catchName content.kind))
        | _ => .error (.malformed .tryStar .catchClause)
      | _ => .error (.malformed .tryStar .catchClause) := by
  unfold catchClause
  cases h.content clause with
  | list cell =>
    dsimp only
    rcases h.items cell with _ | ⟨head, _ | ⟨target, _ | ⟨handler, _ | ⟨x, more⟩⟩⟩⟩
    · rfl
    · rfl
    · rfl
    · simp only [fetch_zero, fetch_one, fetch_two, Failure.check_ok_bind]
      rfl
    · simp
  | _ => rfl

theorem tryStar_eq :
    tryStar eval frame forms =
      match forms with
      | [body] => do return .done (← eval body frame)
      | [body, clause] => do
        let (name, handler) ← Run.settle (catchClause · clause)
        catching (eval body frame) frame name handler
      | _ => Run.malformed .tryStar .tryParts := by
  rcases forms with _ | ⟨body, _ | ⟨clause, _ | ⟨x, more⟩⟩⟩ <;> simp [tryStar]

theorem definition_eq (form : Special) :
    definition eval frame form forms =
      match forms with
      | [target, value] => do
        match ← Run.look (·.content target) with
        | .symbol name =>
          let v ← eval value frame
          pure (name, v)
        | content => Run.malformed form (.definedName content.kind)
      | _ => Run.malformed form .nameAndValue := by
  rcases forms with _ | ⟨target, _ | ⟨value, _ | ⟨x, more⟩⟩⟩ <;> simp [definition]

theorem parameters_cons (h : Heap) (param : Value) (rest : List Value) :
    parameters h (param :: rest) =
      match h.content param with
      | .symbol name =>
        if name = Text.of "&" then
          match rest with
          | [tail] =>
            match h.content tail with
            | .symbol [] => .ok ([], none)
            | .symbol tail => .ok ([], some tail)
            | content => .error (.malformed .function (.tailName content.kind))
          | _ => .error (.malformed .function (.afterAmpersand rest.length))
        else do
          let (names, tail) ← parameters h rest
          return (name :: names, tail)
      | content => .error (.malformed .function (.parameterName content.kind)) := by
  rw [parameters]
  cases h.content param with
  | symbol name =>
    by_cases hname : name = Text.of "&"
    · simp only [hname, if_true]
      rcases rest with _ | ⟨tail, _ | ⟨x, more⟩⟩
      · rfl
      · rfl
      · simp
    · simp only [if_neg hname]
  | _ => rfl

theorem function_eq :
    function frame forms =
      match forms with
      | [] => Run.malformed .function .parameters
      | params :: body => (do
        match ← Run.look (·.elements? params) with
        | none => Run.malformed .function .parameters
        | some params =>
          let (names, tail) ← Run.settle (parameters · params)
          let body ← bodyOf body
          Run.onHeap (·.makeClosure ⟨frame, names, tail, body, false⟩ none)) := by
  cases forms <;> simp [function]

theorem single_eq (special : Special) (go : Value → Run Value) :
    single special forms go =
      match forms with
      | [form] => go form
      | _ => Run.malformed special .oneForm := by
  rcases forms with _ | ⟨form, _ | ⟨x, more⟩⟩ <;> simp [single]

end Equations

section Refusals

variable {h : Heap} {e : Failure}

theorem malformed_of_catchClause {clause : Value} (hclause : catchClause h clause = .error e) :
    ∃ form why, e = .malformed form why := by
  rw [catchClause_eq] at hclause
  repeat' split at hclause
  all_goals
    first
    | exact ⟨_, _, (Except.error.inj hclause).symm⟩
    | cases hclause

theorem malformed_of_parameters {params : List Value} (hparams : parameters h params = .error e) :
    ∃ form why, e = .malformed form why := by
  induction params with
  | nil => cases hparams
  | cons param rest ih =>
    rw [parameters_cons] at hparams
    cases hparam : h.content param with
    | symbol name =>
      simp only [hparam] at hparams
      by_cases hname : name = Text.of "&"
      · rw [if_pos hname] at hparams
        repeat' split at hparams
        all_goals
          first
          | exact ⟨_, _, (Except.error.inj hparams).symm⟩
          | cases hparams
      · rw [if_neg hname] at hparams
        cases hrest : parameters h rest with
        | error e' =>
          rw [hrest] at hparams
          exact ih (hrest.trans hparams)
        | ok found =>
          rw [hrest] at hparams
          cases hparams
    | _ =>
      simp only [hparam] at hparams
      exact ⟨_, _, (Except.error.inj hparams).symm⟩

end Refusals

end Lisp.Evaluator
