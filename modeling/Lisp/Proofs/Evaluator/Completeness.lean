import Lisp.Proofs.Evaluator.Turns

/-!
What has a derivation is found by evaluation. For every derivation there are bounds on depth and
steps from which on the evaluator ends as derived; by induction on the derivation, with one case for
each of its rules.
-/
namespace Lisp.Meaning

open Evaluator

section Rules

variable {w u x y : World} {form : Value} {frame : FrameId} {forms : List Value} {r : Ending Value}

section Forms

variable {last condition yes target value body clause handler : Value} {name : Text}

/-- All but the last form, and then that one. -/
theorem turns_sequence {earlier : List Value} {r : Ending (List Value)}
    (hform : IsSpecial w.heap form .sequence (earlier ++ [last]))
    (hearlier : Eventually fun b => evalAll b.eval frame earlier w = r) :
    Eventually fun b => b.turn form frame w = r.andThen fun _ => pure (.next last frame) := by
  refine hearlier.imp fun b hearlier => (turn_special hform).trans ?_
  simp [Evaluator.special, sequence_eq, hearlier]

theorem conditional_of_branches (eval : Evaluation) (frame : FrameId) (condition yes : Value)
    (no : Option Value) :
    conditional eval frame (condition :: yes :: no.toList) = do
      let v ← eval condition frame
      if ← Run.look (·.isTruthy v) then return .next yes frame
      else return (no.map fun no => Turn.next no frame).getD (.done .nil) := by
  rw [conditional_eq]
  cases no <;> rfl

theorem turns_conditional (no : Option Value) {r : Ending Value}
    (hform : IsSpecial w.heap form .conditional (condition :: yes :: no.toList))
    (hcondition : Loops w condition frame r) :
    Eventually fun b => b.turn form frame w = r.andThen fun v => do
      if ← Run.look (·.isTruthy v) then return .next yes frame
      else return (no.map fun no => Turn.next no frame).getD (.done .nil) := by
  refine hcondition.eval.imp fun b hcondition => (turn_special hform).trans ?_
  rw [Evaluator.special, conditional_of_branches, run_bind, hcondition]

theorem run_letStar (eval : Evaluation) {pairs : List Value} {inner : FrameId}
    (hpairs : w.heap.elements? target = some pairs) (heven : pairs.length % 2 = 0)
    (hframe : Run.newFrame (some frame) {} w = .ok inner u) :
    letStar eval frame (target :: forms) w =
      Ending.andThen (bindAll eval inner pairs u) fun _ => do
        return .next (← bodyOf forms) inner := by
  simp [letStar_eq, hpairs, heven, hframe]

theorem turns_letStar {pairs : List Value} {inner : FrameId} {r : Ending Unit}
    (hform : IsSpecial w.heap form .letStar (target :: forms))
    (hpairs : w.heap.elements? target = some pairs) (heven : pairs.length % 2 = 0)
    (hframe : Run.newFrame (some frame) {} w = .ok inner u)
    (hbinds : Eventually fun b => bindAll b.eval inner pairs u = r) :
    Eventually fun b => b.turn form frame w = r.andThen fun _ => do
      return .next (← bodyOf forms) inner := by
  refine hbinds.imp fun b hbinds => (turn_special hform).trans ?_
  rw [Evaluator.special, run_letStar b.eval hpairs heven hframe, hbinds]

theorem turns_attempt (hform : IsSpecial w.heap form .tryStar [body])
    (hbody : Loops w body frame r) :
    Eventually fun b => b.turn form frame w = r.andThen fun v => pure (.done v) := by
  refine hbody.eval.imp fun b hbody => (turn_special hform).trans ?_
  simp [Evaluator.special, tryStar_eq, hbody]

theorem run_tryStar (eval : Evaluation) (frame : FrameId) (body : Value)
    (hclause : catchClause w.heap clause = .ok (name, handler)) :
    tryStar eval frame [body, clause] w = catching (eval body frame) frame name handler w := by
  simp [tryStar_eq, hclause]

theorem turns_catching (hform : IsSpecial w.heap form .tryStar [body, clause])
    (hclause : catchClause w.heap clause = .ok (name, handler)) (hbody : Loops w body frame r) :
    Eventually fun b => b.turn form frame w = catching (fun _ => r) frame name handler w := by
  refine hbody.eval.imp fun b hbody => (turn_special hform).trans ?_
  simp only [Evaluator.special, run_tryStar b.eval frame body hclause, catching, hbody]

theorem run_definition (eval : Evaluation) (frame : FrameId) (special : Special) (value : Value)
    (htarget : w.heap.content target = .symbol name) :
    definition eval frame special [target, value] w =
      Ending.andThen (eval value frame w) fun v => pure (name, v) := by
  simp [definition_eq, htarget]

theorem turns_define (hform : IsSpecial w.heap form .define [target, value])
    (htarget : w.heap.content target = .symbol name) (hvalue : Loops w value frame r) :
    Eventually fun b => b.turn form frame w =
      (r.andThen fun v => do Run.define frame name v; pure v).andThen fun v => pure (.done v) := by
  refine hvalue.eval.imp fun b hvalue => (turn_special hform).trans ?_
  simp [Evaluator.special, Evaluator.define, run_definition _ _ _ _ htarget, hvalue,
    Ending.andThen_assoc]

theorem turns_assign (hform : IsSpecial w.heap form .assign [target, value])
    (htarget : w.heap.content target = .symbol name) (hvalue : Loops w value frame r) :
    Eventually fun b => b.turn form frame w =
      (r.andThen fun v => do Run.assign frame name v; pure v).andThen fun v => pure (.done v) := by
  refine hvalue.eval.imp fun b hvalue => (turn_special hform).trans ?_
  simp [Evaluator.special, Evaluator.assign, run_definition _ _ _ _ htarget, hvalue,
    Ending.andThen_assoc]

theorem defineMacro_eq (eval : Evaluation) (frame : FrameId) (forms : List Value) :
    Evaluator.defineMacro eval frame forms =
      definition eval frame .defineMacro forms >>= fun found =>
        bindMacro frame found.1 found.2 := rfl

theorem turns_defineMacro (hform : IsSpecial w.heap form .defineMacro [target, value])
    (htarget : w.heap.content target = .symbol name) (hvalue : Loops w value frame r) :
    Eventually fun b => b.turn form frame w =
      (r.andThen (bindMacro frame name)).andThen fun v => pure (.done v) := by
  refine hvalue.eval.imp fun b hvalue => (turn_special hform).trans ?_
  simp [Evaluator.special, defineMacro_eq, run_definition _ _ _ _ htarget, hvalue,
    Ending.andThen_assoc]

theorem run_function (frame : FrameId) (forms : List Value) {params : List Value}
    {names : List Text} {tail : Option Text} (hparams : w.heap.elements? target = some params)
    (hnames : parameters w.heap params = .ok (names, tail)) :
    function frame (target :: forms) w = Ending.andThen (bodyOf forms w) fun body =>
      Run.onHeap (·.makeClosure ⟨frame, names, tail, body, false⟩ none) := by
  simp [function_eq, hparams, hnames]

theorem turns_function {params : List Value} {names : List Text} {tail : Option Text}
    (hform : IsSpecial w.heap form .function (target :: forms))
    (hparams : w.heap.elements? target = some params)
    (hnames : parameters w.heap params = .ok (names, tail)) :
    Eventually fun b => b.turn form frame w =
      (Ending.andThen (bodyOf forms w) fun body =>
        Run.onHeap (·.makeClosure ⟨frame, names, tail, body, false⟩ none)).andThen
          fun v => pure (.done v) := by
  refine .of_forall fun b => (turn_special hform).trans ?_
  rw [Evaluator.special, run_map, run_function frame forms hparams hnames]

theorem turns_quote {quoted : Value} (hform : IsSpecial w.heap form .quote [quoted]) :
    Eventually fun b => b.turn form frame w = .ok (.done quoted) w :=
  .of_forall fun _ => turn_special hform

theorem turns_quasiquote {template : Value} (hform : IsSpecial w.heap form .quasiquote [template])
    (hfill : Eventually fun b => fill b.eval frame b.steps template w = r) :
    Eventually fun b => b.turn form frame w = r.andThen fun v => pure (.done v) := by
  refine hfill.given.imp fun b hfill => (turn_special hform).trans ?_
  simp only [Evaluator.special, single_eq, run_map]
  rw [hfill]

theorem turns_macroexpand (hform : IsSpecial w.heap form .macroexpand [target])
    (hexpand : Eventually fun b => expandAll b.eval frame b.steps target w = r) :
    Eventually fun b => b.turn form frame w = r.andThen fun v => pure (.done v) := by
  refine hexpand.given.imp fun b hexpand => (turn_special hform).trans ?_
  simp only [Evaluator.special, single_eq, run_map]
  rw [hexpand]

end Forms

section Calls

variable {head f : Value} {args : List Value} {c : Closure} {n : Native} {e : Failure}

theorem turns_callFails (hform : IsCall w.heap form head forms)
    (hhead : Loops w head frame (.error e u)) :
    Eventually fun b => b.turn form frame w = .error e u := by
  refine hhead.eval.imp fun b hhead => (turn_call hform).trans ?_
  simp [call, hhead]

theorem turns_callNothing {got : Kind} (hform : IsCall w.heap form head forms)
    (hhead : Loops w head frame (.ok f u)) (hf : u.heap.callee f = .nothing got) :
    Eventually fun b => b.turn form frame w =
      .error (.fault (.notFunction got (u.heap.render .readable head))) u := by
  refine hhead.eval.imp fun b hhead => (turn_call hform).trans ?_
  simp [call, callValue, hhead, hf, Run.print_eq]

theorem turns_callMacro (hform : IsCall w.heap form head forms)
    (hhead : Loops w head frame (.ok f u)) (hf : u.heap.callee f = .closure c)
    (hc : c.isMacro = true) (hexpand : Eventually fun b => expand b.eval c forms u = r) :
    Eventually fun b => b.turn form frame w =
      r.andThen fun expansion => pure (.next expansion frame) := by
  refine (hhead.eval.and hexpand).imp fun b hb => (turn_call hform).trans ?_
  simp [call, callValue, hb.1, hf, hc, hb.2]

theorem turns_callClosure {r : Ending (List Value)} (hform : IsCall w.heap form head forms)
    (hhead : Loops w head frame (.ok f u)) (hf : u.heap.callee f = .closure c)
    (hc : c.isMacro = false) (hargs : Eventually fun b => evalAll b.eval frame forms u = r) :
    Eventually fun b => b.turn form frame w = r.andThen fun args => do
      let inner ← Run.bindClosure c args
      return .next c.body inner := by
  refine (hhead.eval.and hargs).imp fun b hb => (turn_call hform).trans ?_
  simp [call, callValue, hb.1, hf, hc, hb.2]

theorem turns_callNative (hform : IsCall w.heap form head forms)
    (hhead : Loops w head frame (.ok f u)) (hf : u.heap.callee f = .native n)
    (hargs : Eventually fun b => evalAll b.eval frame forms u = .ok args x)
    (hinvoke : Eventually fun b => invoke b.eval b.apply b.steps n args x = r) :
    Eventually fun b => b.turn form frame w = r.andThen fun v => pure (.done v) := by
  refine ((hhead.eval.and hargs).and hinvoke.given).imp fun b hb => (turn_call hform).trans ?_
  obtain ⟨⟨hhead, hargs⟩, hinvoke⟩ := hb
  simp only [call, callValue, run_bind, run_look, Ending.andThen_ok, hhead, hf, hargs]
  rw [hinvoke]

theorem turns_callArgumentsFail (hform : IsCall w.heap form head forms)
    (hhead : Loops w head frame (.ok f u))
    (hclosure : ∀ c, u.heap.callee f = .closure c → c.isMacro = false)
    (hnothing : ∀ got, u.heap.callee f ≠ .nothing got)
    (hargs : Eventually fun b => evalAll b.eval frame forms u = .error e x) :
    Eventually fun b => b.turn form frame w = .error e x := by
  refine (hhead.eval.and hargs).imp fun b hb => (turn_call hform).trans ?_
  cases hf : u.heap.callee f with
  | nothing got => exact absurd hf (hnothing got)
  | closure c => simp [call, callValue, hb.1, hf, hclosure c hf, hb.2]
  | native n => simp [call, callValue, hb.1, hf, hb.2]

end Calls

section Arguments

variable {eval : Evaluation} {apply : Application} {steps : Nat} {args : List Value}

/-- The two natives that take a function and more. -/
theorem invoke_short {n : Native} (hn : n = .apply ∨ n = .swap) (h : args.length < 2) :
    invoke eval apply steps n args w =
      .error (.fault (.argumentsAtLeast n.name 2 args.length)) w := by
  rcases hn with rfl | rfl
  · simp [invoke, callApply, h]
  · simp [invoke, callSwap, h]

theorem invoke_swap_refused {target f : Value} {extra : List Value}
    (htarget : ∀ atom, w.heap.content target ≠ .atom atom) :
    invoke eval apply steps .swap (target :: f :: extra) w =
      .error (.fault (.operand Native.swap.name (Text.of "an atom") (w.heap.kind target))) w := by
  simp only [invoke_eq, run_bind, run_look, Ending.andThen_ok]
  rfl

theorem invoke_map_arguments (h : args.length ≠ 2) :
    invoke eval apply steps .map args w =
      .error (.fault (.arguments Native.map.name 2 args.length)) w := by
  simp [invoke, callMap, h]

theorem invoke_eval_arguments (h : args.length ≠ 1) :
    invoke eval apply steps .eval args w =
      .error (.fault (.arguments Native.eval.name 1 args.length)) w := by
  simp [invoke, callEval, h]

end Arguments

section Holes

variable {eval : Evaluation} {forms : List Value}

theorem fill_malformed {template : Value} {steps : Nat}
    (hhole : holeForms? .unquote w.heap template = some forms) (hforms : forms.length ≠ 1) :
    fill eval frame (steps + 1) template w =
      .error (.fault (.malformed .unquote .oneForm)) w := by
  simp only [fill_succ, run_bind, run_look, Ending.andThen_ok, hhole]
  rcases forms with _ | ⟨_, _ | ⟨_, _⟩⟩
  · rfl
  · exact absurd rfl hforms
  · rfl

theorem fillItems_malformed {go : Value → Run Value} {item : Value} {items : List Value}
    (hhole : holeForms? .splice w.heap item = some forms) (hforms : forms.length ≠ 1) :
    fillItems eval go frame (item :: items) w =
      .error (.fault (.malformed .splice .oneForm)) w := by
  simp only [fillItems_cons, run_bind, run_look, Ending.andThen_ok, hhole]
  rcases forms with _ | ⟨_, _ | ⟨_, _⟩⟩
  · rfl
  · exact absurd rfl hforms
  · rfl

end Holes

end Rules

-- The induction on derivations. A rule for a failing part uses the same turn as the rule that goes
-- on, because the turn passes the failure on.
mutual

theorem Evaluates.loops {w : World} {form : Value} {frame : FrameId} {r : Ending Value}
    (h : Evaluates w form frame r) : Loops w form frame r := by
  match h with
  | .constant hform => exact loops_constant hform
  | .symbol hform => exact loops_symbol hform
  | .vector hform hitems => exact loops_vector hform (EvaluatesAll.runs hitems)
  | .map hform hentries => exact loops_map hform (EvaluatesAll.runs hentries)
  | .malformed hform hfault => exact loops_malformed hform hfault
  | .sequenceEmpty hform => exact loops_of_done (.of_forall fun _ => turn_special hform)
  | .sequence hform hearlier hlast =>
    exact loops_of_next (turns_sequence hform (EvaluatesAll.runs hearlier)) (Evaluates.loops hlast)
  | .sequenceFails hform hearlier =>
    exact loops_of_done (turns_sequence hform (EvaluatesAll.runs hearlier))
  | .conditionalThen hform hcondition hv hyes =>
    refine loops_of_next ?_ (Evaluates.loops hyes)
    exact (turns_conditional _ hform (Evaluates.loops hcondition)).imp fun _ h =>
      h.trans (by simp [hv])
  | .conditionalElse hform hcondition hv hno =>
    refine loops_of_next ?_ (Evaluates.loops hno)
    exact (turns_conditional (some _) hform (Evaluates.loops hcondition)).imp fun _ h =>
      h.trans (by simp [hv])
  | .conditionalNone hform hcondition hv =>
    refine loops_of_done ?_
    exact (turns_conditional none hform (Evaluates.loops hcondition)).imp fun _ h =>
      h.trans (by simp [hv])
  | .conditionalFails hform hcondition =>
    exact loops_of_done (turns_conditional _ hform (Evaluates.loops hcondition))
  | .letStar hform hpairs heven hframe hbinds hbody hlast =>
    refine loops_of_next ?_ (Evaluates.loops hlast)
    exact (turns_letStar hform hpairs heven hframe (Binds.runs hbinds)).imp fun _ h =>
      h.trans (by simp [hbody])
  | .letStarFails hform hpairs heven hframe hbinds =>
    exact loops_of_done (turns_letStar hform hpairs heven hframe (Binds.runs hbinds))
  | .attempt hform hbody => exact loops_of_done (turns_attempt hform (Evaluates.loops hbody))
  | .attemptGives hform hclause hbody =>
    exact loops_of_done (turns_catching hform hclause (Evaluates.loops hbody))
  | .attemptCatches hform hclause hbody hframe hhandler =>
    refine loops_of_next ?_ (Evaluates.loops hhandler)
    exact (turns_catching hform hclause (Evaluates.loops hbody)).imp fun _ h =>
      h.trans (by simp [catching, hframe])
  | .attemptFails hform hclause hbody he =>
    refine loops_of_done ?_
    exact (turns_catching hform hclause (Evaluates.loops hbody)).imp fun _ h =>
      h.trans (catching_error rfl he)
  | .define hform htarget hvalue =>
    exact loops_of_done (turns_define hform htarget (Evaluates.loops hvalue))
  | .assign hform htarget hvalue =>
    exact loops_of_done (turns_assign hform htarget (Evaluates.loops hvalue))
  | .defineMacro hform htarget hvalue =>
    exact loops_of_done (turns_defineMacro hform htarget (Evaluates.loops hvalue))
  | .function hform hparams hnames => exact loops_of_done (turns_function hform hparams hnames)
  | .quote hform => exact loops_of_done (turns_quote hform)
  | .quasiquote hform hfills => exact loops_of_done (turns_quasiquote hform (Fills.runs hfills))
  | .macroexpand hform hexpands =>
    exact loops_of_done (turns_macroexpand hform (Expands.runs hexpands))
  | .callFails hform hhead => exact loops_of_done (turns_callFails hform (Evaluates.loops hhead))
  | .callNothing hform hhead hf =>
    exact loops_of_done (turns_callNothing hform (Evaluates.loops hhead) hf)
  | .callMacro hform hhead hf hc hexpands hrest =>
    refine loops_of_next ?_ (Evaluates.loops hrest)
    exact turns_callMacro hform (Evaluates.loops hhead) hf hc (ExpandsOnce.runs hexpands)
  | .callMacroFails hform hhead hf hc hexpands =>
    refine loops_of_done ?_
    exact turns_callMacro hform (Evaluates.loops hhead) hf hc (ExpandsOnce.runs hexpands)
  | .callClosure hform hhead hf hc hargs hbind hbody =>
    refine loops_of_next ?_ (Evaluates.loops hbody)
    exact (turns_callClosure hform (Evaluates.loops hhead) hf hc
      (EvaluatesAll.runs hargs)).imp fun _ h => h.trans (by simp [hbind])
  | .callClosureFails hform hhead hf hc hargs hbind =>
    refine loops_of_done ?_
    exact (turns_callClosure hform (Evaluates.loops hhead) hf hc
      (EvaluatesAll.runs hargs)).imp fun _ h => h.trans (by simp [hbind])
  | .callNative hform hhead hf hargs hinvokes =>
    refine loops_of_done ?_
    exact turns_callNative hform (Evaluates.loops hhead) hf (EvaluatesAll.runs hargs)
      (Invokes.runs hinvokes)
  | .callArgumentsFail hform hhead hclosure hnothing hargs =>
    refine loops_of_done ?_
    exact turns_callArgumentsFail hform (Evaluates.loops hhead) hclosure hnothing
      (EvaluatesAll.runs hargs)

theorem EvaluatesAll.runs {w : World} {forms : List Value} {frame : FrameId}
    {r : Ending (List Value)} (h : EvaluatesAll w forms frame r) :
    Eventually fun b => evalAll b.eval frame forms w = r := by
  match h with
  | .nil => exact .of_forall fun _ => rfl
  | .cons hform hforms =>
    refine ((Evaluates.loops hform).eval.and (EvaluatesAll.runs hforms)).imp fun b hb => ?_
    simp [evalAll, hb.1, hb.2]
  | .fails hform => exact (Evaluates.loops hform).eval.imp fun b hb => by simp [evalAll, hb]

theorem Binds.runs {w : World} {pairs : List Value} {frame : FrameId} {r : Ending Unit}
    (h : Binds w pairs frame r) : Eventually fun b => bindAll b.eval frame pairs w = r := by
  match h with
  | .nil => exact .of_forall fun _ => rfl
  | .cons htarget hform hdefine hrest =>
    refine ((Evaluates.loops hform).eval.and (Binds.runs hrest)).imp fun b hb => ?_
    simp [bindAll, htarget, hb.1, hdefine, hb.2]
  | .fails htarget hform =>
    exact (Evaluates.loops hform).eval.imp fun b hb => by simp [bindAll, htarget, hb]
  | .malformed htarget => exact .of_forall fun _ => bindAll_malformed htarget

theorem ExpandsOnce.runs {w : World} {c : Closure} {forms : List Value} {r : Ending Value}
    (h : ExpandsOnce w c forms r) : Eventually fun b => expand b.eval c forms w = r := by
  match h with
  | .body hbind hbody =>
    refine (Evaluates.loops hbody).eval.imp fun b hb => ?_
    simp [expand_eq, hbind, hb]
    rfl
  | .fails hbind => exact .of_forall fun b => by simp [expand_eq, hbind]

theorem Expands.runs {w : World} {form : Value} {frame : FrameId} {r : Ending Value}
    (h : Expands w form frame r) :
    Eventually fun b => expandAll b.eval frame b.steps form w = r := by
  match h with
  | .done hcall => exact .of_step fun b => by simp [expandAll_succ, hcall]
  | .step hcall honce hrest =>
    refine ((ExpandsOnce.runs honce).and (Expands.runs hrest)).step fun b hb => ?_
    simp [expandAll_succ, hcall, hb.1, hb.2]
  | .fails hcall honce =>
    exact (ExpandsOnce.runs honce).step fun b hb => by simp [expandAll_succ, hcall, hb]

theorem Fills.runs {w : World} {template : Value} {frame : FrameId} {r : Ending Value}
    (h : Fills w template frame r) :
    Eventually fun b => fill b.eval frame b.steps template w = r := by
  match h with
  | .hole hhole hform =>
    exact (Evaluates.loops hform).eval.step fun b hb => by simp [fill_succ, hhole, hb]
  | .malformed hhole hforms => exact .of_step fun _ => fill_malformed hhole hforms
  | .list hhole hcontent hitems =>
    exact (FillsAll.runs hitems).step fun b hb => by simp [fill_succ, hhole, hcontent, hb]
  | .vector hhole hcontent hitems =>
    exact (FillsAll.runs hitems).step fun b hb => by simp [fill_succ, hhole, hcontent, hb]
  | .map hhole hcontent hentries =>
    exact (FillsEntries.runs hentries).step fun b hb => by simp [fill_succ, hhole, hcontent, hb]
  | .constant hhole hlist hvector hmap =>
    refine .of_step fun b => ?_
    simp only [fill_succ, run_bind, run_look, Ending.andThen_ok, hhole]
    rfl

theorem FillsAll.runs {w : World} {items : List Value} {frame : FrameId}
    {r : Ending (List Value)} (h : FillsAll w items frame r) :
    Eventually fun b => fillItems b.eval (fill b.eval frame b.steps) frame items w = r := by
  match h with
  | .nil => exact .of_forall fun _ => rfl
  | .splice hhole hform hspliced hrest =>
    refine ((Evaluates.loops hform).eval.and (FillsAll.runs hrest)).imp fun b hb => ?_
    simp [fillItems_cons, hhole, hb.1, hb.2, hspliced]
  | .spliceRefused hhole hform hspliced =>
    refine (Evaluates.loops hform).eval.imp fun b hb => ?_
    simp [fillItems_cons, hhole, hb, hspliced]
  | .spliceFails hhole hform =>
    exact (Evaluates.loops hform).eval.imp fun b hb => by simp [fillItems_cons, hhole, hb]
  | .spliceMalformed hhole hforms => exact .of_forall fun _ => fillItems_malformed hhole hforms
  | .cons hhole hitem hrest =>
    refine ((Fills.runs hitem).and (FillsAll.runs hrest)).imp fun b hb => ?_
    simp [fillItems_cons, hhole, hb.1, hb.2]
  | .fails hhole hitem =>
    exact (Fills.runs hitem).imp fun b hb => by simp [fillItems_cons, hhole, hb]

theorem FillsEntries.runs {w : World} {entries : List (Value × Value)} {frame : FrameId}
    {r : Ending (List Value)} (h : FillsEntries w entries frame r) :
    Eventually fun b => fillEntries (fill b.eval frame b.steps) entries w = r := by
  match h with
  | .nil => exact .of_forall fun _ => rfl
  | .cons hvalue hrest =>
    refine ((Fills.runs hvalue).and (FillsEntries.runs hrest)).imp fun b hb => ?_
    simp [fillEntries, hb.1, hb.2]
  | .fails hvalue => exact (Fills.runs hvalue).imp fun b hb => by simp [fillEntries, hb]

theorem Invokes.runs {w : World} {n : Native} {args : List Value} {r : Ending Value}
    (h : Invokes w n args r) :
    Eventually fun b => invoke b.eval b.apply b.steps n args w = r := by
  match h with
  | .operation => exact .of_forall fun _ => rfl
  | .apply hitems happlies =>
    refine (Applies.runs happlies).imp fun b hb => ?_
    simp only [invoke_eq, run_bind, run_require, hitems, Ending.andThen_ok, hb]
  | .applyRefused hitems =>
    refine .of_forall fun b => ?_
    simp only [invoke_eq, run_bind, run_require, hitems, Ending.andThen_error]
  | .applyArguments hargs => exact .of_forall fun _ => invoke_short (.inl rfl) hargs
  | .map hitems hmaps =>
    refine (Maps.runs hmaps).imp fun b hb => ?_
    simp only [invoke_eq, run_bind, run_require, hitems, Ending.andThen_ok, hb]
  | .mapRefused hitems =>
    refine .of_forall fun b => ?_
    simp only [invoke_eq, run_bind, run_require, hitems, Ending.andThen_error]
  | .mapArguments hargs => exact .of_forall fun _ => invoke_map_arguments hargs
  | .swap htarget hswaps =>
    exact (Swaps.runs hswaps).imp fun b hb => by simp [invoke_eq, htarget, hb]
  | .swapRefused htarget => exact .of_forall fun _ => invoke_swap_refused htarget
  | .swapArguments hargs => exact .of_forall fun _ => invoke_short (.inr rfl) hargs
  | .eval hform => exact (Evaluates.loops hform).eval
  | .evalArguments hargs => exact .of_forall fun _ => invoke_eval_arguments hargs
  | .inert => exact .of_forall fun _ => rfl

theorem Applies.runs {w : World} {f : Value} {args : List Value} {r : Ending Value}
    (h : Applies w f args r) : Eventually fun b => b.apply f args w = r := by
  match h with
  | .native hf hinvokes =>
    refine (Invokes.runs hinvokes).call fun b hb => ?_
    simp [Evaluator.apply, applyOnce, hf, hb]
  | .closure hf hbind hbody =>
    refine (Evaluates.loops hbody).eval.call fun b hb => ?_
    simp [Evaluator.apply, applyOnce, hf, hbind, hb]
  | .fails hf hbind =>
    exact .of_call fun b => by simp [Evaluator.apply, applyOnce, hf, hbind]
  | .nothing hf => exact .of_call fun b => by simp [Evaluator.apply, applyOnce, hf, Run.print_eq]

theorem Maps.runs {w : World} {f : Value} {items : List Value} {r : Ending (List Value)}
    (h : Maps w f items r) : Eventually fun b => mapItems b.apply f items w = r := by
  match h with
  | .nil => exact .of_forall fun _ => rfl
  | .cons hitem hrest =>
    refine ((Applies.runs hitem).and (Maps.runs hrest)).imp fun b hb => ?_
    simp [mapItems, hb.1, hb.2]
  | .fails hitem => exact (Applies.runs hitem).imp fun b hb => by simp [mapItems, hb]

theorem Swaps.runs {w : World} {atom : AtomId} {f : Value} {extra : List Value}
    {r : Ending Value} (h : Swaps w atom f extra r) :
    Eventually fun b => swap b.apply atom f extra b.steps w = r := by
  match h with
  | .done hcall hsame =>
    refine (Applies.runs hcall).step fun b hb => ?_
    simp [swap, hb, hsame]
    rfl
  | .again hcall hchanged hrest =>
    refine ((Applies.runs hcall).and (Swaps.runs hrest)).step fun b hb => ?_
    simp [swap, hb.1, hchanged, hb.2]
  | .fails hcall => exact (Applies.runs hcall).step fun b hb => by simp [swap, hb]

end

end Lisp.Meaning
