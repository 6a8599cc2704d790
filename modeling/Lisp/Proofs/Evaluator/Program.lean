import Lisp.Evaluator.Eval
import Lisp.Proofs.World.Quiet

/-!
The shape of the evaluator. What it does is put together from steps of its own, from calls of
operations, from tasks that it has run for it, from sequences of such parts, and from attempts
around which a raised value is caught. The tasks are run by a parameter, so a property of all
evaluations is proved once for the five parts and not for each function of the evaluator. Only the
operations generate symbols.
-/
namespace Lisp.Evaluator

/-- What holds of the steps of programs that have to be quiet. -/
class QuietIf (quiet : Prop) {α : Type} (m : Run α) : Prop where
  isQuiet : quiet → m.Quiet

instance (quiet : Prop) {α : Type} (m : Run α) [hm : m.Quiet] : QuietIf quiet m := ⟨fun _ => hm⟩

instance {α : Type} (m : Run α) : QuietIf False m := ⟨False.elim⟩

/-- A computation that has tasks run for it. If it has to be quiet, then its own steps are. -/
inductive ProgramIf [Library] (quiet : Prop) {T : Type} :
    {α : Type} → ((T → Run Value) → Run α) → Prop
  | own {α : Type} (m : Run α) [QuietIf quiet m] : ProgramIf quiet fun _ => m
  | operation (op : Operation) (args : List Value) : ProgramIf quiet fun _ => Library.call op args
  | task (t : T) : ProgramIf quiet fun run => run t
  | bind {α β : Type} {m : (T → Run Value) → Run α} {f : (T → Run Value) → α → Run β} :
    ProgramIf quiet m → (∀ a, ProgramIf quiet fun run => f run a) →
    ProgramIf quiet fun run => m run >>= f run
  | attempt {m : (T → Run Value) → Run Value} (frame : FrameId) (name : Text) (handler : Value) :
    ProgramIf quiet m → ProgramIf quiet fun run => catching (m run) frame name handler

/-- A computation that has tasks run for it, with any steps of its own. -/
abbrev Program [Library] {T α : Type} (P : (T → Run Value) → Run α) : Prop := ProgramIf False P

section Functions

open ProgramIf Run

instance quiet_bodyOf (forms : List Value) : Quiet (bodyOf forms) := by
  unfold bodyOf
  infer_instance

instance quiet_function (frame : FrameId) (forms : List Value) : Quiet (function frame forms) := by
  rw [function_eq]
  cases forms with
  | nil => exact quiet_malformed _ _
  | cons params body =>
    refine @quiet_bind _ _ _ _ _ fun elements => ?_
    cases elements with
    | none => exact quiet_malformed _ _
    | some params => exact @quiet_bind _ _ _ _ _ fun names => quiet_bind _ _

instance quiet_single (special : Special) (forms : List Value) :
    Quiet (single special forms pure) := by
  unfold single
  infer_instance

variable [Library] {quiet : Prop} {T : Type} {eval : (T → Run Value) → Evaluation}
  {apply : (T → Run Value) → Application}

/-- Nothing is started between a result and what is made of it. -/
theorem program_map {α β : Type} {m : (T → Run Value) → Run α} (f : α → β) (h : ProgramIf quiet m) :
    ProgramIf quiet fun run => f <$> m run := by
  simp only [map_eq_pure_bind]
  exact bind h fun a => own _

theorem program_single {go : (T → Run Value) → Value → Run Value}
    (hgo : ∀ form, ProgramIf quiet fun run => go run form) (special : Special)
    (forms : List Value) : ProgramIf quiet fun run => single special forms (go run) := by
  simp only [single_eq]
  match forms with
  | [form] => exact hgo form
  | [] => exact own (Run.malformed _ _)
  | _ :: _ :: _ => exact own (Run.malformed _ _)

theorem program_mapItems (happly : ∀ f args, ProgramIf quiet fun run => apply run f args)
    (f : Value) (items : List Value) : ProgramIf quiet fun run => mapItems (apply run) f items := by
  induction items with
  | nil => exact own (pure [])
  | cons item rest ih =>
    simp only [mapItems]
    refine bind (happly f [item]) fun v => ?_
    exact bind ih fun vs => own _

/-- The function may be called several times, and each call is a task of its own. -/
theorem program_swap (happly : ∀ f args, ProgramIf quiet fun run => apply run f args)
    (atom : AtomId) (f : Value) (extra : List Value) (steps : Nat) :
    ProgramIf quiet fun run => swap (apply run) atom f extra steps := by
  induction steps with
  | zero => exact own (throw _)
  | succ steps ih =>
    simp only [swap]
    refine bind (own _) fun old => ?_
    refine bind (happly f (old :: extra)) fun new => ?_
    refine bind (own _) fun now => ?_
    by_cases hsame : now = old
    · simp only [if_pos hsame]
      exact own _
    · simp only [if_neg hsame]
      exact ih

section Evaluating

variable (heval : ∀ form frame, ProgramIf quiet fun run => eval run form frame)
include heval

theorem program_evalAll (frame : FrameId) (forms : List Value) :
    ProgramIf quiet fun run => evalAll (eval run) frame forms := by
  induction forms with
  | nil => exact own (pure [])
  | cons form rest ih =>
    simp only [evalAll]
    refine bind (heval form frame) fun v => ?_
    exact bind ih fun vs => own _

theorem program_evalEntries (frame : FrameId) (entries : List (Value × Value)) :
    ProgramIf quiet fun run => evalEntries (eval run) frame entries := by
  induction entries with
  | nil => exact own (pure [])
  | cons entry rest ih =>
    simp only [evalEntries]
    refine bind (heval entry.1 frame) fun k => ?_
    refine bind (heval entry.2 frame) fun v => ?_
    exact bind ih fun more => own _

theorem program_expand (c : Closure) (forms : List Value) :
    ProgramIf quiet fun run => expand (eval run) c forms := by
  simp only [expand]
  refine bind (own _) fun frame => ?_
  refine bind (heval c.body frame) fun expansion => ?_
  exact bind (own _) fun _ => own _

theorem program_expandAll (frame : FrameId) (steps : Nat) (form : Value) :
    ProgramIf quiet fun run => expandAll (eval run) frame steps form := by
  induction steps generalizing form with
  | zero => exact own (throw _)
  | succ steps ih =>
    simp only [expandAll_succ]
    refine bind (own _) fun w => ?_
    cases macroCall? w frame form with
    | none => exact own (pure form)
    | some found => exact bind (program_expand heval found.1 found.2) fun form => ih form

theorem program_fillItems {fill : (T → Run Value) → Value → Run Value}
    (hfill : ∀ item, ProgramIf quiet fun run => fill run item) (frame : FrameId)
    (items : List Value) :
    ProgramIf quiet fun run => fillItems (eval run) (fill run) frame items := by
  induction items with
  | nil => exact own (pure [])
  | cons item rest ih =>
    simp only [fillItems_cons]
    refine bind (own _) fun hole => ?_
    cases hole with
    | none => exact bind (hfill item) fun v => bind ih fun more => own _
    | some forms =>
      match forms with
      | [form] =>
        refine bind (heval form frame) fun v => ?_
        exact bind (own _) fun spliced => bind ih fun more => own _
      | [] => exact own (Run.malformed _ _)
      | _ :: _ :: _ => exact own (Run.malformed _ _)

omit heval in
theorem program_fillEntries {fill : (T → Run Value) → Value → Run Value}
    (hfill : ∀ item, ProgramIf quiet fun run => fill run item) (entries : List (Value × Value)) :
    ProgramIf quiet fun run => fillEntries (fill run) entries := by
  induction entries with
  | nil => exact own (pure [])
  | cons entry rest ih =>
    simp only [fillEntries]
    refine bind (hfill entry.2) fun v => ?_
    exact bind ih fun more => own _

/-- Only the forms of holes are evaluated in a template. -/
theorem program_fill (frame : FrameId) (steps : Nat) (template : Value) :
    ProgramIf quiet fun run => fill (eval run) frame steps template := by
  induction steps generalizing template with
  | zero => exact own (throw _)
  | succ steps ih =>
    simp only [fill_succ]
    refine bind (own _) fun hole => ?_
    cases hole with
    | some forms =>
      match forms with
      | [form] => exact heval form frame
      | [] => exact own (Run.malformed _ _)
      | _ :: _ :: _ => exact own (Run.malformed _ _)
    | none =>
      refine bind (own _) fun content => ?_
      cases content with
      | list cell =>
        refine bind (own _) fun items => ?_
        exact bind (program_fillItems heval ih frame items) fun vs => own _
      | vector cell =>
        refine bind (own _) fun items => ?_
        exact bind (program_fillItems heval ih frame items) fun vs => own _
      | map entries => exact bind (program_fillEntries ih entries.toList) fun vs => own _
      | _ => exact own (pure template)

theorem program_bindAll (frame : FrameId) (bindings : List Value) :
    ProgramIf quiet fun run => bindAll (eval run) frame bindings := by
  match bindings with
  | [] => exact own (pure ())
  | [target] =>
    simp only [bindAll]
    refine bind (own _) fun content => ?_
    cases content with
    | symbol name => exact own (Run.check _)
    | _ => exact own (Run.malformed _ _)
  | target :: form :: rest =>
    simp only [bindAll]
    refine bind (own _) fun content => ?_
    cases content with
    | symbol name =>
      refine bind (heval form frame) fun v => ?_
      exact bind (own _) fun _ => program_bindAll frame rest
    | _ => exact own (Run.malformed _ _)

theorem program_letStar (frame : FrameId) (forms : List Value) :
    ProgramIf quiet fun run => letStar (eval run) frame forms := by
  simp only [letStar_eq]
  cases forms with
  | nil => exact own (Run.malformed _ _)
  | cons bindings body =>
    refine bind (own _) fun elements => ?_
    cases elements with
    | none => exact own (Run.malformed _ _)
    | some bindings =>
      by_cases hpairs : bindings.length % 2 ≠ 0
      · simp only [if_pos hpairs]
        exact own _
      · simp only [if_neg hpairs]
        refine bind (own _) fun inner => ?_
        refine bind (program_bindAll heval inner bindings) fun _ => ?_
        exact bind (own _) fun form => own _

theorem program_sequence (frame : FrameId) (forms : List Value) :
    ProgramIf quiet fun run => sequence (eval run) frame forms := by
  simp only [sequence_eq]
  cases forms.getLast? with
  | none => exact own (pure _)
  | some last => exact bind (program_evalAll heval frame forms.dropLast) fun _ => own _

theorem program_conditional (frame : FrameId) (forms : List Value) :
    ProgramIf quiet fun run => conditional (eval run) frame forms := by
  simp only [conditional_eq]
  match forms with
  | [condition, yes] =>
    exact bind (heval condition frame) fun v => own _
  | [condition, yes, no] =>
    exact bind (heval condition frame) fun v => own _
  | [] => exact own (Run.malformed _ _)
  | [_] => exact own (Run.malformed _ _)
  | _ :: _ :: _ :: _ :: _ => exact own (Run.malformed _ _)

/-- With a handler the body is an attempt; without one it is evaluated like any form. -/
theorem program_tryStar (frame : FrameId) (forms : List Value) :
    ProgramIf quiet fun run => tryStar (eval run) frame forms := by
  simp only [tryStar_eq]
  match forms with
  | [body] =>
    exact bind (heval body frame) fun v => own _
  | [body, clause] =>
    refine bind (own _) fun parts => ?_
    exact attempt frame parts.1 parts.2 (heval body frame)
  | [] => exact own (Run.malformed _ _)
  | _ :: _ :: _ :: _ => exact own (Run.malformed _ _)

theorem program_definition (frame : FrameId) (form : Special) (forms : List Value) :
    ProgramIf quiet fun run => definition (eval run) frame form forms := by
  simp only [definition_eq]
  match forms with
  | [target, value] =>
    refine bind (own _) fun content => ?_
    cases content with
    | symbol name => exact bind (heval value frame) fun v => own _
    | _ => exact own (Run.malformed _ _)
  | [] => exact own (Run.malformed _ _)
  | [_] => exact own (Run.malformed _ _)
  | _ :: _ :: _ :: _ => exact own (Run.malformed _ _)

/-- Every special form; quoting and making a function start nothing. -/
theorem program_special (steps : Nat) (frame : FrameId) (form : Special) (forms : List Value) :
    ProgramIf quiet fun run => special (eval run) steps frame form forms := by
  have hdefinition := program_definition heval frame
  cases form with
  | letStar => exact program_letStar heval frame forms
  | sequence => exact program_sequence heval frame forms
  | conditional => exact program_conditional heval frame forms
  | tryStar => exact program_tryStar heval frame forms
  | quasiquote =>
    exact program_map _ (program_single (program_fill heval frame steps) .quasiquote forms)
  | define => exact program_map _ (bind (hdefinition .define forms) fun _ => own _)
  | defineMacro =>
    refine program_map _ (bind (hdefinition .defineMacro forms) fun found => ?_)
    refine bind (own (Run.look _)) fun callee => ?_
    cases callee with
    | closure c =>
      refine bind (own (Run.look _)) fun metadata => bind (own (Run.onHeap _)) fun v => ?_
      exact bind (own (Run.define frame found.1 v)) fun _ => own (pure v)
    | _ => exact bind (own (Run.look _)) fun kind => own (Run.fault _)
  | assign => exact program_map _ (bind (hdefinition .assign forms) fun _ => own _)
  | macroexpand =>
    exact program_map _ (program_single (program_expandAll heval frame steps) .macroexpand forms)
  | function => exact own (Turn.done <$> function frame forms)
  | quote => exact own (Turn.done <$> single .quote forms pure)
  | unquote => exact own (Run.malformed _ _)
  | splice => exact own (Run.malformed _ _)
  | catchStar => exact own (Run.malformed _ _)

section Applying

variable (happly : ∀ f args, ProgramIf quiet fun run => apply run f args)
include happly

/-- Four natives start tasks, and all of them in sequence. -/
theorem program_invoke (steps : Nat) (n : Native) (args : List Value) :
    ProgramIf quiet fun run => invoke (eval run) (apply run) steps n args := by
  simp only [invoke_eq]
  cases n with
  | operation op => exact operation op args
  | apply =>
    match args with
    | f :: x :: more =>
      exact bind (own _) fun items => happly f _
    | [] => exact own (Run.fault _)
    | [_] => exact own (Run.fault _)
  | map =>
    match args with
    | [f, coll] =>
      refine bind (own _) fun items => ?_
      exact bind (program_mapItems happly f items) fun vs => own _
    | [] => exact own (Run.fault _)
    | [_] => exact own (Run.fault _)
    | _ :: _ :: _ :: _ => exact own (Run.fault _)
  | swap =>
    match args with
    | target :: f :: extra =>
      refine bind (own _) fun content => ?_
      cases content with
      | atom atom => exact program_swap happly atom f extra steps
      | _ => exact own (Run.fault _)
    | [] => exact own (Run.fault _)
    | [_] => exact own (Run.fault _)
  | eval =>
    match args with
    | [form] => exact heval form World.root
    | [] => exact own (Run.fault _)
    | _ :: _ :: _ => exact own (Run.fault _)
  | inert name => exact own (pure _)

theorem program_applyOnce (steps : Nat) (f : Value) (args : List Value) :
    ProgramIf quiet fun run => applyOnce (eval run) (apply run) steps f args := by
  simp only [applyOnce]
  refine bind (own _) fun callee => ?_
  cases callee with
  | native n => exact program_invoke heval happly steps n args
  | closure c => exact bind (own _) fun frame => heval c.body frame
  | nothing got => exact bind (own (Run.print _ _)) fun shown => own (Run.fault _)

theorem program_call (steps : Nat) (frame : FrameId) (head : Value) (forms : List Value) :
    ProgramIf quiet fun run => call (eval run) (apply run) steps frame head forms := by
  simp only [call, callValue]
  refine bind (heval head frame) fun f => ?_
  refine bind (own _) fun callee => ?_
  cases callee with
  | closure c =>
    by_cases hmacro : c.isMacro
    · simp only [if_pos hmacro]
      exact bind (program_expand heval c forms) fun expansion => own _
    · simp only [if_neg hmacro]
      exact bind (program_evalAll heval frame forms) fun args => own _
  | native n =>
    refine bind (program_evalAll heval frame forms) fun args => ?_
    exact bind (program_invoke heval happly steps n args) fun v => own _
  | nothing got => exact bind (own (Run.print _ _)) fun shown => own (Run.fault _)

theorem program_turn (steps : Nat) (form : Value) (frame : FrameId) :
    ProgramIf quiet fun run => turn (eval run) (apply run) steps form frame := by
  simp only [turn_eq]
  refine bind (own _) fun content => ?_
  cases content with
  | symbol name => exact bind (own (Run.lookup frame name)) fun v => own (pure _)
  | vector cell =>
    refine bind (own _) fun items => ?_
    exact bind (program_evalAll heval frame items) fun vs => own _
  | map entries => exact bind (program_evalEntries heval frame entries.toList) fun vs => own _
  | list cell =>
    refine bind (own _) fun items => ?_
    cases items with
    | nil => exact own (pure _)
    | cons head forms =>
      refine bind (own _) fun name => ?_
      cases name with
      | some name => exact program_special heval steps frame name forms
      | none => exact program_call heval happly steps frame head forms
  | _ => exact own (pure _)

/-- The whole of an evaluation, turn after turn. -/
theorem program_loop (limit steps : Nat) (form : Value) (frame : FrameId) :
    ProgramIf quiet fun run => loop (turn (eval run) (apply run) limit) steps form frame := by
  induction steps generalizing form frame with
  | zero => exact own (throw _)
  | succ steps ih =>
    simp only [loop]
    refine bind (program_turn heval happly limit form frame) fun result => ?_
    cases result with
    | done v => exact own (pure v)
    | next form frame => exact ih form frame

end Applying

theorem program_apply (steps : Nat) (f : Value) (args : List Value) :
    ProgramIf quiet fun run => Evaluator.apply (eval run) steps f args := by
  induction steps generalizing f args with
  | zero => exact own (throw _)
  | succ steps ih => exact program_applyOnce heval ih steps f args

end Evaluating

end Functions

end Lisp.Evaluator
