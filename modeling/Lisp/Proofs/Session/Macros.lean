import Lisp.Proofs.Evaluator.Unwinding
import Lisp.Proofs.World.Adding
import Lisp.Session

/-!
What the macros of the prelude are built from. A macro is called on forms in a frame of its own,
inside the outermost one, where it sees the list of the forms and the natives. What it makes is new,
and all there was stays as it was; a form that was made of known parts ends as its parts do.
-/
namespace Lisp

namespace Meaning

open Evaluator Ending

variable {w u y : World} {form target symbol init body v : Value} {frame inner : FrameId}
  {name : Text} {r : Ending Value}

/-- A `let*` of one name ends as its body does, once the name is bound. -/
theorem evaluates_letStar_iff (hform : IsSpecial w.heap form .letStar [target, body])
    (htarget : w.heap.elements? target = some [symbol, init])
    (hsymbol : w.heap.content symbol = .symbol name)
    (hnew : Run.newFrame (some frame) {} w = .ok inner y)
    (hinit : Evaluates y init inner (.ok v u)) :
    Evaluates w form frame r ↔ Evaluates (u.binding inner name v) body inner r := by
  have hheap : y.heap = w.heap := (World.Adds.newFrame hnew).2.1
  have hbinds : Binds y [symbol, init] inner (.ok () (u.binding inner name v)) :=
    .cons (hheap ▸ hsymbol) hinit rfl .nil
  have hturn := turns_letStar hform htarget (by simp) hnew hbinds.runs
  simp only [andThen_ok, bodyOf_eq, pure_bind, run_pure] at hturn
  exact evaluates_iff_of_next hturn

/-- A conditional ends as the branch that its condition chooses. -/
theorem evaluates_conditional_iff {condition yes no : Value}
    (hform : IsSpecial w.heap form .conditional [condition, yes, no])
    (hcondition : Evaluates w condition frame (.ok v u)) :
    Evaluates w form frame r ↔
      Evaluates u (if u.heap.isTruthy v then yes else no) frame r := by
  have hturn := turns_conditional (some no) hform hcondition.loops
  refine evaluates_iff_of_next (hturn.imp fun b hb => hb.trans ?_)
  cases htruthy : u.heap.isTruthy v <;> simp [htruthy]

/-- A `let*` of one name ends only if the form that the name is bound to does. -/
theorem exists_evaluates_init (hform : IsSpecial w.heap form .letStar [target, body])
    (htarget : w.heap.elements? target = some [symbol, init])
    (hsymbol : w.heap.content symbol = .symbol name)
    (hnew : Run.newFrame (some frame) {} w = .ok inner y) (h : Evaluates w form frame r) :
    ∃ r', Evaluates y init inner r' := by
  have hheap : y.heap = w.heap := (World.Adds.newFrame hnew).2.1
  obtain ⟨n, -, hr⟩ := h.exists_turn (.of_forall fun _ => trivial)
  rw [show Bounds.turn ⟨n, n, n, n⟩ form frame w = _ from turn_special hform] at hr
  cases hinit : eval n n init inner y with
  | ok v u => exact ⟨_, faithful_eval n n hinit settled_ok⟩
  | error e u =>
    simp [Evaluator.special, Evaluator.letStar, bindAll, htarget, hnew, hheap, hsymbol, Bounds.eval,
      hinit] at hr
    subst hr
    exact ⟨_, faithful_eval n n hinit h.settled.error⟩

/-- A conditional ends only if its condition does. -/
theorem exists_evaluates_condition {condition yes no : Value}
    (hform : IsSpecial w.heap form .conditional [condition, yes, no])
    (h : Evaluates w form frame r) : ∃ r', Evaluates w condition frame r' := by
  obtain ⟨n, -, hr⟩ := h.exists_turn (.of_forall fun _ => trivial)
  rw [show Bounds.turn ⟨n, n, n, n⟩ form frame w = _ from turn_special hform] at hr
  cases hcondition : eval n n condition frame w with
  | ok v u => exact ⟨_, faithful_eval n n hcondition settled_ok⟩
  | error e u =>
    simp [Evaluator.special, Evaluator.conditional, Bounds.eval, hcondition] at hr
    subst hr
    exact ⟨_, faithful_eval n n hcondition h.settled.error⟩

end Meaning

/-- The value is a list of a name and of values. -/
def Heap.IsForm (h : Heap) (v : Value) (name : Text) (vs : List Value) : Prop :=
  ∃ head, h.parts? v = some (.round, head :: vs) ∧ h.Unfolds head (.symbol name)

section Forms

variable {h h' : Heap} {v : Value} {name : Text} {vs : List Value}

theorem Heap.IsForm.grows (hv : h.IsForm v name vs) (hgrows : h.Grows h') :
    h'.IsForm v name vs := by
  obtain ⟨head, hparts, hhead⟩ := hv
  exact ⟨head, hgrows.parts? hparts, hgrows.unfolds hhead⟩

theorem Heap.elements?_of_parts? (hv : h.parts? v = some (.round, vs)) :
    h.elements? v = some vs := by
  obtain ⟨cell, hcontent, hcell⟩ := elements_of_parts? hv
  rw [elements?, sequence?, hcontent]
  exact congrArg some hcell

theorem Heap.has_of_parts? (hv : h.parts? v = some (.round, vs)) : h.Has v := by
  obtain ⟨cell, hcontent, -⟩ := elements_of_parts? hv
  exact has_of_content_ne_nil (by simp [hcontent])

theorem Heap.IsForm.isSpecial {special : Special} (hv : h.IsForm v special.name vs) :
    Meaning.IsSpecial h v special vs := by
  obtain ⟨head, hparts, hhead⟩ := hv
  obtain ⟨cell, hlist, hitems⟩ := elements_of_parts? hparts
  refine ⟨cell, head, hlist, hitems, ?_⟩
  rw [symbol?_of_unfolds hhead]
  cases special <;> rfl

theorem Heap.IsForm.isCall (hv : h.IsForm v name vs) (hname : Special.ofName? name = none) :
    ∃ head, Meaning.IsCall h v head vs ∧ h.Unfolds head (.symbol name) := by
  obtain ⟨head, hparts, hhead⟩ := hv
  obtain ⟨cell, hlist, hitems⟩ := elements_of_parts? hparts
  refine ⟨head, ⟨cell, hlist, hitems, ?_⟩, hhead⟩
  rw [symbol?_of_unfolds hhead]
  exact hname

end Forms

/-- A symbol unfolds to nothing but its name. -/
theorem Heap.Unfolds.eq_symbol {h : Heap} {v : Value} {d : Datum} {name : Text}
    (hv : h.Unfolds v d) (hname : h.symbol? v = some name) : d = .symbol name := by
  unfold Heap.symbol? at hname
  cases d with
  | symbol other =>
    rw [Heap.content_of_content? hv] at hname
    cases hname
    rfl
  | group b items =>
    obtain ⟨vs, hparts, -⟩ := Heap.unfolds_group.mp hv
    rcases Heap.parts?_cases hparts with ⟨_, _, _, hcontent, -⟩ | ⟨_, _, _, hcontent, -⟩ |
      ⟨_, _, hcontent, -⟩ <;> rw [Heap.content_of_content? hcontent] at hname <;> cases hname
  | string s =>
    obtain ⟨r, hr, -⟩ := hv
    rw [Heap.content_of_content? hr] at hname
    cases hname
  | _ =>
    rw [Heap.content_of_content? hv] at hname
    cases hname

namespace Evaluator

variable {h : Heap} {v : Value} {special : Special} {d : Datum} {ds : List Datum}

/-- A hole, as it is written. -/
theorem holeForms?_of_unfolds (hv : h.Unfolds v (.call special.name ds)) :
    ∃ forms, holeForms? special h v = some forms ∧ List.Forall₂ h.Unfolds forms ds := by
  obtain ⟨cell, head, forms, hlist, hitems, hhead, hforms⟩ := Meaning.starts_of_unfolds hv
  refine ⟨forms, ?_, hforms⟩
  simp [holeForms?, hlist, hitems, Heap.isSymbol, Heap.symbol?_of_unfolds hhead]

/-- Nothing else is a hole. -/
theorem holeForms?_eq_none (hv : h.Unfolds v d) (hd : ∀ forms, d ≠ .call special.name forms) :
    holeForms? special h v = none := by
  unfold holeForms?
  cases d with
  | group b items =>
    obtain ⟨vs, hparts, hitems⟩ := Heap.unfolds_group.mp hv
    rcases Heap.parts?_cases hparts with ⟨cell, seq, rfl, hcontent, hcell, hvs⟩ |
      ⟨cell, seq, rfl, hcontent, -⟩ | ⟨entries, rfl, hcontent, -⟩
    · rw [Heap.content_of_content? hcontent]
      simp only [Heap.items_eq hcell, ← hvs]
      cases hitems with
      | nil => rfl
      | @cons head e _ ds hhead _ =>
        have hsymbol : h.isSymbol head special.name = false := by
          rw [Heap.isSymbol, beq_eq_false_iff_ne]
          intro hname
          rw [hhead.eq_symbol hname] at hd
          exact hd ds rfl
        simp [hsymbol]
    · rw [Heap.content_of_content? hcontent]
    · rw [Heap.content_of_content? hcontent]
  | string s =>
    obtain ⟨r, hr, -⟩ := hv
    rw [Heap.content_of_content? hr]
  | _ => rw [Heap.content_of_content? hv]

end Evaluator

namespace Macro

open Meaning Ending Evaluator

/-- What the macros of the prelude call the list of the forms they are called on. -/
def formsName : Text := Text.of "xs"

def onForms (op : Operation) : Datum := .call op.name [.symbol formsName]

/-- The outermost frame binds the natives to their names, as it did at the start. -/
def HasNatives (ops : List Operation) (w : World) : Prop :=
  ∀ op ∈ ops, ∃ f, w.scopes.get? World.root op.name = some f ∧
    w.heap.callee f = .native (.operation op)

/-- The frame sees the natives, and the list of the forms. -/
structure Sees (ops : List Operation) (w : World) (frame : FrameId) (forms : List Value) :
    Prop where
  path : w.scopes.HasPath frame
  natives : ∀ op ∈ ops, ∃ f, w.scopes.find? frame op.name = some f ∧
    w.heap.callee f = .native (.operation op)
  list : ∃ v, w.scopes.find? frame formsName = some v ∧ w.heap.parts? v = some (.round, forms)

variable {ops : List Operation} {w u x : World} {frame inner : FrameId} {form : Value}
  {forms : List Value} {c : Closure}

theorem ofName?_operation (op : Operation) : Special.ofName? op.name = none := by
  cases op with
  | compare c => cases c <;> decide
  | isKind k => cases k <;> decide
  | _ => decide

theorem formsName_ne_operation (op : Operation) : formsName ≠ op.name := by
  cases op with
  | compare c => cases c <;> decide
  | isKind k => cases k <;> decide
  | _ => decide

theorem HasNatives.adds (hops : HasNatives ops w) (hadds : w.Adds u) : HasNatives ops u := by
  intro op hop
  obtain ⟨f, hfound, hcallee⟩ := hops op hop
  exact ⟨f, hadds.get? hfound, hadds.callee_eq hcallee (by simp)⟩

theorem Sees.adds (hsees : Sees ops w frame forms) (hadds : w.Adds u) : Sees ops u frame forms where
  path := hadds.hasPath hsees.path
  natives op hop := by
    obtain ⟨f, hfound, hcallee⟩ := hsees.natives op hop
    exact ⟨f, (hadds.find? hsees.path).trans hfound, hadds.callee_eq hcallee (by simp)⟩
  list := by
    obtain ⟨v, hfound, hparts⟩ := hsees.list
    exact ⟨v, (hadds.find? hsees.path).trans hfound, hadds.heap.parts? hparts⟩

/-- A frame inside that binds none of these names sees the same. -/
theorem Sees.inside {b : Bindings} (hsees : Sees ops w frame forms)
    (hframe : w.scopes.frames[inner]? = some ⟨b, w.scopes.path frame⟩)
    (hb : ∀ op ∈ ops, b.get? op.name = none) (hlist : b.get? formsName = none) :
    Sees ops w inner forms where
  path := Scopes.hasPath_of_frame hframe hsees.path
  natives op hop := by
    obtain ⟨f, hfound, hc⟩ := hsees.natives op hop
    exact ⟨f, by rw [Scopes.find?_of_frame hframe, hb op hop, hfound]; rfl, hc⟩
  list := by
    obtain ⟨v, hfound, hparts⟩ := hsees.list
    exact ⟨v, by rw [Scopes.find?_of_frame hframe, hlist, hfound]; rfl, hparts⟩

/-- A call of a native. -/
theorem Sees.evaluates_operation (hsees : Sees ops w frame forms) {op : Operation} (hop : op ∈ ops)
    {items : List Datum} (hform : w.heap.Unfolds form (.call op.name items)) :
    ∃ args, List.Forall₂ w.heap.Unfolds args items ∧
      ∀ {vs x}, EvaluatesAll w args frame (.ok vs x) → Evaluates w form frame (op.call vs x) := by
  obtain ⟨f, hfound, hcallee⟩ := hsees.natives op hop
  exact Meaning.evaluates_operation hform (ofName?_operation op) hfound hcallee

/-- A call of a native fails where one of its arguments does. -/
theorem Sees.operation_fails (hsees : Sees ops w frame forms) {op : Operation} (hop : op ∈ ops)
    {items : List Datum} (hform : w.heap.Unfolds form (.call op.name items)) :
    ∃ args, List.Forall₂ w.heap.Unfolds args items ∧
      ∀ {e x}, EvaluatesAll w args frame (.error e x) → Evaluates w form frame (.error e x) := by
  obtain ⟨f, hfound, hcallee⟩ := hsees.natives op hop
  obtain ⟨head, args, hcall, hhead, hargs⟩ := isCall_of_unfolds hform (ofName?_operation op)
  exact ⟨args, hargs, .callArgumentsFail hcall (evaluates_symbol hhead hfound)
    (by simp [hcallee]) (by simp [hcallee])⟩

/-- A call of a native on the list of the forms. -/
theorem Sees.evaluates_onForms (hsees : Sees ops w frame forms) {op : Operation}
    (hop : op ∈ ops) (hform : w.heap.Unfolds form (onForms op)) :
    ∃ v, w.heap.parts? v = some (.round, forms) ∧ Evaluates w form frame (op.call [v] w) := by
  obtain ⟨_, hargs, hcall⟩ := hsees.evaluates_operation hop hform
  obtain ⟨v, hv, hparts⟩ := hsees.list
  rcases hargs with _ | ⟨hlist, _ | _⟩
  exact ⟨v, hparts, hcall (.cons (evaluates_symbol hlist hv) .nil)⟩

section Operations

variable {v : Value}

theorem isEmpty_call (hv : w.heap.parts? v = some (.round, forms)) :
    Operation.isEmpty.call [v] w = .ok (.bool forms.isEmpty) w := by
  obtain ⟨cell, hcontent, rfl⟩ := Heap.elements_of_parts? hv
  have hempty : ((w.heap.sequence cell).size == 0) = (w.heap.sequence cell).toList.isEmpty := by
    rw [← Sequence.length_toList]
    cases (w.heap.sequence cell).toList <;> rfl
  simp [Operation.call, Operation.answer, Answer.unary_eq, Collection.size, hcontent, hempty,
    Answer.perform, Reply.ofBool, Reply.perform, bind, Except.bind, pure, Except.pure]
  rfl

theorem count_call (hv : w.heap.parts? v = some (.round, forms)) :
    Operation.count.call [v] w = Run.make (.int (.ofNat forms.length)) w := by
  obtain ⟨cell, hcontent, rfl⟩ := Heap.elements_of_parts? hv
  simp [Operation.call, Operation.answer, Answer.unary_eq, Collection.size, hcontent,
    Answer.perform, Reply.perform, bind, Except.bind, pure, Except.pure]

theorem first_call (hv : w.heap.parts? v = some (.round, forms)) :
    Operation.first.call [v] w = .ok (forms.headD .nil) w := by
  obtain ⟨cell, hcontent, rfl⟩ := Heap.elements_of_parts? hv
  simp [Operation.call, Operation.answer, Answer.unary_eq, Collection.first, Collection.sequence,
    hcontent, Sequence.nth_eq, Sequence.get?_eq, List.headD_eq_head?_getD, List.head?_eq_getElem?,
    Answer.perform, Reply.perform, bind, Except.bind, pure]
  rfl

theorem rest_call (hv : w.heap.parts? v = some (.round, forms)) :
    ∃ items : Sequence Value, items.toList = forms.tail ∧
      Operation.rest.call [v] w = Run.onHeap (·.makeSequence .list items none) w := by
  obtain ⟨cell, hcontent, rfl⟩ := Heap.elements_of_parts? hv
  generalize hseq : w.heap.sequence cell = seq
  refine ⟨if seq.size = 0 then .empty else (seq.take seq.size).drop 1, ?_, ?_⟩
  · split
    · rename_i hzero
      simp [Sequence.toList_eq_nil hzero]
    · simp [← Sequence.length_toList]
  · simp [Operation.call, Operation.answer, Answer.unary_eq, Collection.rest_eq,
      Collection.sequence, hcontent, hseq, Answer.perform, Reply.perform, bind, Except.bind, pure,
      Except.pure]

end Operations

/-- A macro called on forms sees them, in a frame of its own. -/
theorem exists_bindClosure (hscope : c.scope = World.root) (hparams : c.params = [])
    (htail : c.tail = some formsName) (hops : HasNatives ops w)
    (hroot : w.scopes.HasPath World.root) (forms : List Value) :
    ∃ inner u, Run.bindClosure c forms w = .ok inner u ∧ w.Enlarges forms u ∧
      Sees ops u inner forms := by
  obtain ⟨list, y, hlist⟩ : ∃ list y, Run.makeList forms w = .ok list y := ⟨_, _, rfl⟩
  have hparts := (World.AddsOnly.makeSequence hlist).2
  have hadds : w.Enlarges forms y := .makeSequence hlist (by simp)
  obtain ⟨inner, u, hnew⟩ : ∃ inner u,
      Run.newFrame (some World.root) (({} : Bindings).put formsName list) y = .ok inner u :=
    ⟨_, _, rfl⟩
  have hbind : Run.bindClosure c forms w = .ok inner u := by
    simp [Run.bindClosure, Run.bind_some, hscope, hparams, htail, hlist, Bindings.ofPairs, hnew]
  obtain ⟨-, hheap, hframe⟩ := World.Adds.newFrame hnew
  have hmore : y.Enlarges forms u := by
    refine .newFrame hnew (hadds.hasPath hroot World.root List.mem_cons_self) fun _ name v hv => ?_
    rw [Bindings.get?_put, Bindings.get?_empty] at hv
    split at hv <;> cases hv
    exact Heap.has_of_parts? hparts
  have hwu := hadds.trans hmore
  have hbinds : u.Binds inner World.root formsName list := by
    refine ⟨?_, hwu.hasPath hroot⟩
    rw [hframe, hmore.path (hadds.hasPath hroot)]
    rfl
  refine ⟨inner, u, hbind, hwu, hbinds.hasPath, fun op hop => ?_, list, ?_, ?_⟩
  · obtain ⟨f, hfound, hcallee⟩ := hops op hop
    refine ⟨f, ?_, hwu.callee_eq hcallee (by simp)⟩
    rw [hbinds.find?, if_neg (formsName_ne_operation op)]
    exact Scopes.find?_of_get? (hwu.get? hfound)
  · rw [hbinds.find?, if_pos rfl]
  · rw [hheap]
    simpa using hparts

/-- A macro whose body gives a form stands for it; that is noted in the log. -/
theorem exists_expandsOnce {v : Value} (hbind : Run.bindClosure c forms w = .ok inner u)
    (hbody : Evaluates u c.body inner (.ok v x)) :
    ∃ log, ExpandsOnce w c forms (.ok v { x with log := log }) := by
  obtain ⟨log, hlog⟩ := Run.exists_log (fun h =>
    Log.line "macro expanded" [("expansion", h.render .readable v)]) x
  have hnote : noteExpansion v x = .ok v { x with log := log } := by
    simp [noteExpansion, hlog]
  exact ⟨log, hnote ▸ .body hbind hbody⟩

end Macro

end Lisp
