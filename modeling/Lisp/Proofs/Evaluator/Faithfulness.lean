import Lisp.Proofs.Evaluator.Completeness

/-!
What evaluation finds has a derivation. An evaluation that was not cut short, whatever depth and
steps it was given, ends as the meaning of the form says: for each function of the evaluator, when
the evaluations it starts end so, it does. By induction on the steps of each loop and on the depth
of evaluation.
-/
namespace Lisp

/-- The computation was not cut short. -/
def Ending.Settled {α : Type} (r : Ending α) : Prop := ∀ w, r ≠ .error .exhausted w

namespace Ending

variable {α β : Type}

theorem settled_ok {a : α} {w : World} : Settled (.ok a w) := by
  rintro u ⟨⟩

theorem settled_error {e : Failure} {w : World} (he : e ≠ .exhausted) :
    Settled (.error e w : Ending α) := by
  rintro u ⟨⟩
  exact he rfl

theorem Settled.of_andThen {r : Ending α} {f : α → Run β} (h : Settled (r.andThen f)) :
    r.Settled := by
  rintro w rfl
  exact h w rfl

theorem not_settled_exhausted {w : World} : ¬ Settled (.error .exhausted w : Ending α) :=
  fun h => h w rfl

end Ending

namespace Meaning

open Evaluator Ending

/-- Evaluations end as the meaning of the form says, unless they are cut short. -/
def Faithful (eval : Evaluation) : Prop :=
  ∀ ⦃w form frame r⦄, eval form frame w = r → Settled r → Evaluates w form frame r

/-- Calls end as their meaning says, unless they are cut short. -/
def FaithfulCalls (apply : Application) : Prop :=
  ∀ ⦃w f args r⦄, apply f args w = r → Settled r → Applies w f args r

/-- Templates are filled as their meaning says, unless that is cut short. -/
def FaithfulFilling (fill : Value → Run Value) (frame : FrameId) : Prop :=
  ∀ ⦃w template r⦄, fill template w = r → Settled r → Fills w template frame r

section Parts

variable {eval : Evaluation} {frame : FrameId}

theorem evaluatesAll_of_evalAll (heval : Faithful eval) {forms : List Value} {w : World}
    {r : Ending (List Value)} (h : evalAll eval frame forms w = r) (hr : r.Settled) :
    EvaluatesAll w forms frame r := by
  subst h
  induction forms generalizing w with
  | nil => exact .nil
  | cons form rest ih =>
    simp only [evalAll, run_bind] at hr ⊢
    cases hform : eval form frame w with
    | error e u =>
      rw [hform] at hr
      exact .fails (heval hform hr.of_andThen)
    | ok v u =>
      rw [hform] at hr
      simp only [andThen_ok, run_bind] at hr ⊢
      exact .cons (heval hform settled_ok) (ih hr.of_andThen)

theorem binds_of_bindAll (heval : Faithful eval) {pairs : List Value} {w : World} {r : Ending Unit}
    (heven : pairs.length % 2 = 0) (h : bindAll eval frame pairs w = r) (hr : r.Settled) :
    Binds w pairs frame r := by
  subst h
  match pairs with
  | [] => exact .nil
  | [_] => cases heven
  | target :: form :: rest =>
    by_cases hname : ∃ name, w.heap.content target = .symbol name
    · obtain ⟨name, hname⟩ := hname
      simp only [bindAll, run_bind, run_look, andThen_ok, hname] at hr ⊢
      cases hform : eval form frame w with
      | error e u =>
        rw [hform] at hr
        exact .fails hname (heval hform hr.of_andThen)
      | ok v u =>
        rw [hform] at hr
        simp only [andThen_ok, run_bind] at hr ⊢
        have hrest : rest.length % 2 = 0 := by
          simp only [List.length_cons] at heven
          omega
        exact .cons hname (heval hform settled_ok) rfl (binds_of_bindAll heval hrest rfl hr)
    · have htarget : ∀ name, w.heap.content target ≠ .symbol name := not_exists.1 hname
      rw [bindAll_malformed htarget]
      exact .malformed htarget

theorem expandsOnce_of_expand (heval : Faithful eval) {c : Closure} {forms : List Value}
    {w : World} {r : Ending Value} (h : expand eval c forms w = r) (hr : r.Settled) :
    ExpandsOnce w c forms r := by
  subst h
  simp only [expand_eq, run_bind] at hr ⊢
  cases hbind : Run.bindClosure c forms w with
  | error e u => exact .fails hbind
  | ok inner u =>
    rw [hbind] at hr
    simp only [andThen_ok, run_bind] at hr ⊢
    exact .body hbind (heval rfl hr.of_andThen)

theorem expands_of_expandAll (heval : Faithful eval) {steps : Nat} {form : Value} {w : World}
    {r : Ending Value} (h : expandAll eval frame steps form w = r) (hr : r.Settled) :
    Expands w form frame r := by
  subst h
  induction steps generalizing form w with
  | zero => exact absurd hr not_settled_exhausted
  | succ steps ih =>
    simp only [expandAll_succ, run_bind, run_get, andThen_ok] at hr ⊢
    cases hcall : macroCall? w frame form with
    | none => exact .done hcall
    | some found =>
      obtain ⟨c, forms⟩ := found
      simp only [hcall, run_bind] at hr ⊢
      cases honce : expand eval c forms w with
      | error e u =>
        rw [honce] at hr
        exact .fails hcall (expandsOnce_of_expand heval honce hr)
      | ok expansion u =>
        rw [honce] at hr
        exact .step hcall (expandsOnce_of_expand heval honce settled_ok) (ih hr)

theorem fillsAll_of_fillItems (heval : Faithful eval) {go : Value → Run Value}
    (hgo : FaithfulFilling go frame) {items : List Value} {w : World} {r : Ending (List Value)}
    (h : fillItems eval go frame items w = r) (hr : r.Settled) : FillsAll w items frame r := by
  subst h
  induction items generalizing w with
  | nil => exact .nil
  | cons item rest ih =>
    cases hhole : holeForms? .splice w.heap item with
    | none =>
      simp only [fillItems_cons, run_bind, run_look, andThen_ok, hhole] at hr ⊢
      cases hitem : go item w with
      | error e u =>
        rw [hitem] at hr
        exact .fails hhole (hgo hitem hr.of_andThen)
      | ok v u =>
        rw [hitem] at hr
        simp only [andThen_ok, run_bind] at hr ⊢
        exact .cons hhole (hgo hitem settled_ok) (ih hr.of_andThen)
    | some forms =>
      by_cases hforms : forms.length = 1
      · obtain ⟨form, rfl⟩ := List.length_eq_one_iff.1 hforms
        simp only [fillItems_cons, run_bind, run_look, andThen_ok, hhole] at hr ⊢
        cases hform : eval form frame w with
        | error e u =>
          rw [hform] at hr
          exact .spliceFails hhole (heval hform hr.of_andThen)
        | ok v u =>
          rw [hform] at hr
          simp only [andThen_ok, run_bind, run_require] at hr ⊢
          cases hspliced : splicedItems u.heap v with
          | error f => exact .spliceRefused hhole (heval hform settled_ok) hspliced
          | ok spliced =>
            rw [hspliced] at hr
            simp only [andThen_ok, run_bind] at hr ⊢
            exact .splice hhole (heval hform settled_ok) hspliced (ih hr.of_andThen)
      · rw [fillItems_malformed hhole hforms]
        exact .spliceMalformed hhole hforms

theorem fillsEntries_of_fillEntries {go : Value → Run Value} (hgo : FaithfulFilling go frame)
    {entries : List (Value × Value)} {w : World} {r : Ending (List Value)}
    (h : fillEntries go entries w = r) (hr : r.Settled) : FillsEntries w entries frame r := by
  subst h
  induction entries generalizing w with
  | nil => exact .nil
  | cons entry rest ih =>
    obtain ⟨key, value⟩ := entry
    simp only [fillEntries, run_bind] at hr ⊢
    cases hvalue : go value w with
    | error e u =>
      rw [hvalue] at hr
      exact .fails (hgo hvalue hr.of_andThen)
    | ok v u =>
      rw [hvalue] at hr
      simp only [andThen_ok, run_bind] at hr ⊢
      exact .cons (hgo hvalue settled_ok) (ih hr.of_andThen)

theorem faithful_fill (heval : Faithful eval) (steps : Nat) :
    FaithfulFilling (fill eval frame steps) frame := by
  induction steps with
  | zero =>
    rintro w template r rfl hr
    exact absurd hr not_settled_exhausted
  | succ steps ih =>
    rintro w template r rfl hr
    cases hhole : holeForms? .unquote w.heap template with
    | some forms =>
      by_cases hforms : forms.length = 1
      · obtain ⟨form, rfl⟩ := List.length_eq_one_iff.1 hforms
        simp only [fill_succ, run_bind, run_look, andThen_ok, hhole] at hr ⊢
        exact .hole hhole (heval rfl hr)
      · rw [fill_malformed hhole hforms]
        exact .malformed hhole hforms
    | none =>
      simp only [fill_succ, run_bind, run_look, andThen_ok, hhole] at hr ⊢
      cases hcontent : w.heap.content template with
      | list cell =>
        simp only [hcontent, run_bind, run_look, andThen_ok] at hr ⊢
        exact .list hhole hcontent (fillsAll_of_fillItems heval ih rfl hr.of_andThen)
      | vector cell =>
        simp only [hcontent, run_bind, run_look, andThen_ok] at hr ⊢
        exact .vector hhole hcontent (fillsAll_of_fillItems heval ih rfl hr.of_andThen)
      | map entries =>
        simp only [hcontent, run_bind] at hr ⊢
        exact .map hhole hcontent (fillsEntries_of_fillEntries ih rfl hr.of_andThen)
      | _ =>
        dsimp only
        exact .constant hhole (by simp [hcontent]) (by simp [hcontent]) (by simp [hcontent])

end Parts

section Calls

variable {eval : Evaluation} {apply : Application}

theorem maps_of_mapItems (happly : FaithfulCalls apply) {f : Value} {items : List Value}
    {w : World} {r : Ending (List Value)} (h : mapItems apply f items w = r) (hr : r.Settled) :
    Maps w f items r := by
  subst h
  induction items generalizing w with
  | nil => exact .nil
  | cons item rest ih =>
    simp only [mapItems, run_bind] at hr ⊢
    cases hitem : apply f [item] w with
    | error e u =>
      rw [hitem] at hr
      exact .fails (happly hitem hr.of_andThen)
    | ok v u =>
      rw [hitem] at hr
      simp only [andThen_ok, run_bind] at hr ⊢
      exact .cons (happly hitem settled_ok) (ih hr.of_andThen)

theorem swaps_of_swap (happly : FaithfulCalls apply) {atom : AtomId} {f : Value}
    {extra : List Value} {steps : Nat} {w : World} {r : Ending Value}
    (h : swap apply atom f extra steps w = r) (hr : r.Settled) : Swaps w atom f extra r := by
  subst h
  induction steps generalizing w with
  | zero => exact absurd hr not_settled_exhausted
  | succ steps ih =>
    simp only [swap, run_bind, run_look, andThen_ok] at hr ⊢
    cases hcall : apply f (w.heap.deref atom :: extra) w with
    | error e u =>
      rw [hcall] at hr
      exact .fails (happly hcall hr)
    | ok new u =>
      rw [hcall] at hr
      simp only [andThen_ok, run_bind, run_look] at hr ⊢
      by_cases hsame : u.heap.deref atom = w.heap.deref atom
      · rw [if_pos hsame]
        exact .done (happly hcall settled_ok) hsame
      · rw [if_neg hsame] at hr ⊢
        exact .again (happly hcall settled_ok) hsame (ih hr)

theorem invokes_of_invoke (heval : Faithful eval) (happly : FaithfulCalls apply) {steps : Nat}
    {n : Native} {args : List Value} {w : World} {r : Ending Value}
    (h : invoke eval apply steps n args w = r) (hr : r.Settled) : Invokes w n args r := by
  subst h
  cases n with
  | operation op => exact .operation
  | inert name => exact .inert
  | apply =>
    rcases args with _ | ⟨f, _ | ⟨x, more⟩⟩
    · exact .applyArguments (by simp)
    · exact .applyArguments (by simp)
    · simp only [invoke_eq, run_bind, run_require] at hr ⊢
      cases hitems : Collection.elements Native.apply.name w.heap ((x :: more).getLastD .nil) with
      | error e => exact .applyRefused hitems
      | ok items =>
        rw [hitems] at hr
        exact .apply hitems (happly rfl hr)
  | map =>
    rcases args with _ | ⟨f, _ | ⟨coll, _ | ⟨_, _⟩⟩⟩
    · exact .mapArguments (by simp)
    · exact .mapArguments (by simp)
    · simp only [invoke_eq, run_bind, run_require] at hr ⊢
      cases hitems : Collection.elements Native.map.name w.heap coll with
      | error e => exact .mapRefused hitems
      | ok items =>
        rw [hitems] at hr
        simp only [andThen_ok, run_bind] at hr ⊢
        exact .map hitems (maps_of_mapItems happly rfl hr.of_andThen)
    · rw [invoke_map_arguments (by simp)]
      exact .mapArguments (by simp)
  | swap =>
    rcases args with _ | ⟨target, _ | ⟨f, extra⟩⟩
    · exact .swapArguments (by simp)
    · exact .swapArguments (by simp)
    · by_cases hatom : ∃ atom, w.heap.content target = .atom atom
      · obtain ⟨atom, hatom⟩ := hatom
        simp only [invoke_eq, run_bind, run_look, andThen_ok, hatom] at hr ⊢
        exact .swap hatom (swaps_of_swap happly rfl hr)
      · have htarget : ∀ atom, w.heap.content target ≠ .atom atom := not_exists.1 hatom
        rw [invoke_swap_refused htarget]
        exact .swapRefused htarget
  | eval =>
    by_cases hargs : args.length = 1
    · obtain ⟨form, rfl⟩ := List.length_eq_one_iff.1 hargs
      exact .eval (heval rfl hr)
    · rw [invoke_eval_arguments hargs]
      exact .evalArguments hargs

theorem faithful_apply (heval : Faithful eval) (steps : Nat) :
    FaithfulCalls (Evaluator.apply eval steps) := by
  induction steps with
  | zero =>
    rintro w f args r rfl hr
    exact absurd hr not_settled_exhausted
  | succ steps ih =>
    rintro w f args r rfl hr
    simp only [Evaluator.apply, applyOnce, run_bind, run_look, andThen_ok] at hr ⊢
    cases hf : w.heap.callee f with
    | native n =>
      rw [hf] at hr
      exact .native hf (invokes_of_invoke heval ih rfl hr)
    | closure c =>
      simp only [hf, run_bind] at hr ⊢
      cases hbind : Run.bindClosure c args w with
      | error e u => exact .fails hf hbind
      | ok frame u =>
        rw [hbind] at hr
        exact .closure hf hbind (heval rfl hr)
    | nothing got =>
      simp only [Run.print_eq]
      exact .nothing hf

end Calls

/-- A turn that ends so has done its part: with the value of the form, with a form that stands for
it, or with its failure. -/
def Completes (w : World) (form : Value) (frame : FrameId) : Ending Turn → Prop
  | .ok (.done v) u => Evaluates w form frame (.ok v u)
  | .ok (.next rest inner) u => ∀ r, Evaluates u rest inner r → Evaluates w form frame r
  | .error e u => e ≠ .exhausted → Evaluates w form frame (.error e u)

section Turns

variable {w : World} {form : Value} {frame : FrameId}

/-- A value that is reached ends the turn. -/
theorem completes_andThen {r : Ending Value} (h : r.Settled → Evaluates w form frame r) :
    Completes w form frame (r.andThen fun v => pure (.done v)) := by
  cases r with
  | ok v u => exact h settled_ok
  | error e u => exact fun he => h (settled_error he)

theorem completes_done {m : Run Value}
    (h : ∀ r, m w = r → Settled r → Evaluates w form frame r) :
    Completes w form frame ((Turn.done <$> m) w) := by
  rw [run_map]
  exact completes_andThen (h _ rfl)

theorem bodyOf_ok (forms : List Value) (w : World) : ∃ body u, bodyOf forms w = .ok body u := by
  rw [bodyOf_eq]
  match forms with
  | [] => exact ⟨_, _, rfl⟩
  | [_] => exact ⟨_, _, rfl⟩
  | _ :: _ :: _ => exact ⟨_, _, rfl⟩

section Special

variable {eval : Evaluation} {forms : List Value}

theorem completes_letStar (heval : Faithful eval) (hform : IsSpecial w.heap form .letStar forms)
    (hshape : shapeFailure? w.heap .letStar forms = none) :
    Completes w form frame (letStar eval frame forms w) := by
  match forms with
  | [] => cases hshape
  | target :: body =>
    simp only [shapeFailure?] at hshape
    cases hpairs : w.heap.elements? target with
    | none => simp [hpairs] at hshape
    | some pairs =>
      have heven : pairs.length % 2 = 0 := by simpa [hpairs] using hshape
      obtain ⟨inner, u, hframe⟩ : ∃ inner u, Run.newFrame (some frame) {} w = .ok inner u :=
        ⟨_, _, rfl⟩
      rw [run_letStar eval hpairs heven hframe]
      cases hbinds : bindAll eval inner pairs u with
      | error e x =>
        intro he
        have hbinds := binds_of_bindAll heval heven hbinds (settled_error he)
        exact .letStarFails hform hpairs heven hframe hbinds
      | ok _ x =>
        obtain ⟨rest, y, hbody⟩ := bodyOf_ok body x
        simp only [andThen_ok, run_bind, hbody]
        have hbinds := binds_of_bindAll heval heven hbinds settled_ok
        exact fun r hrest => .letStar hform hpairs heven hframe hbinds hbody hrest

theorem completes_sequence (heval : Faithful eval)
    (hform : IsSpecial w.heap form .sequence forms) :
    Completes w form frame (Evaluator.sequence eval frame forms w) := by
  rcases List.eq_nil_or_concat forms with rfl | ⟨earlier, last, rfl⟩
  · exact Evaluates.sequenceEmpty hform
  · simp only [List.concat_eq_append] at hform ⊢
    simp only [sequence_eq, List.getLast?_concat, List.dropLast_concat, run_bind]
    cases hearlier : evalAll eval frame earlier w with
    | error e u =>
      intro he
      exact .sequenceFails hform (evaluatesAll_of_evalAll heval hearlier (settled_error he))
    | ok vs u =>
      have hearlier := evaluatesAll_of_evalAll heval hearlier settled_ok
      exact fun r hlast => .sequence hform hearlier hlast

theorem exists_branches (hshape : shapeFailure? w.heap .conditional forms = none) :
    ∃ condition yes, ∃ no : Option Value, forms = condition :: yes :: no.toList := by
  match forms with
  | [] => cases hshape
  | [_] => cases hshape
  | [condition, yes] => exact ⟨condition, yes, none, rfl⟩
  | [condition, yes, no] => exact ⟨condition, yes, some no, rfl⟩
  | _ :: _ :: _ :: _ :: _ => cases hshape

theorem completes_conditional (heval : Faithful eval)
    (hform : IsSpecial w.heap form .conditional forms)
    (hshape : shapeFailure? w.heap .conditional forms = none) :
    Completes w form frame (conditional eval frame forms w) := by
  obtain ⟨condition, yes, no, rfl⟩ := exists_branches hshape
  rw [conditional_of_branches, run_bind]
  cases hcondition : eval condition frame w with
  | error e u =>
    intro he
    exact .conditionalFails hform (heval hcondition (settled_error he))
  | ok v u =>
    have hcondition := heval hcondition settled_ok
    simp only [andThen_ok, run_bind, run_look]
    cases hv : u.heap.isTruthy v with
    | true => exact fun r hyes => .conditionalThen hform hcondition hv hyes
    | false =>
      cases no with
      | none => exact Evaluates.conditionalNone hform hcondition hv
      | some no => exact fun r hno => .conditionalElse hform hcondition hv hno

theorem completes_tryStar (heval : Faithful eval) (hform : IsSpecial w.heap form .tryStar forms)
    (hshape : shapeFailure? w.heap .tryStar forms = none) :
    Completes w form frame (tryStar eval frame forms w) := by
  match forms with
  | [] => cases hshape
  | _ :: _ :: _ :: _ => cases hshape
  | [body] => exact completes_done fun r hbody hr => .attempt hform (heval hbody hr)
  | [body, clause] =>
    simp only [shapeFailure?] at hshape
    cases hclause : catchClause w.heap clause with
    | error f => simp [hclause] at hshape
    | ok parts =>
      obtain ⟨name, handler⟩ := parts
      rw [run_tryStar eval frame body hclause, catching]
      cases hbody : eval body frame w with
      | ok v u => exact Evaluates.attemptGives hform hclause (heval hbody settled_ok)
      | error e u =>
        cases e with
        | thrown v =>
          have hbody := heval hbody (settled_error Failure.noConfusion)
          exact fun r hhandler => .attemptCatches hform hclause hbody rfl hhandler
        | _ =>
          intro he
          exact .attemptFails hform hclause (heval hbody (settled_error he)) (by simp)

/-- The name and the value of a form that binds one. -/
theorem exists_definition {special : Special}
    (hspecial : special = .define ∨ special = .defineMacro ∨ special = .assign)
    (hshape : shapeFailure? w.heap special forms = none) :
    ∃ target value name, forms = [target, value] ∧ w.heap.content target = .symbol name := by
  match forms with
  | [] => rcases hspecial with rfl | rfl | rfl <;> cases hshape
  | [_] => rcases hspecial with rfl | rfl | rfl <;> cases hshape
  | _ :: _ :: _ :: _ => rcases hspecial with rfl | rfl | rfl <;> cases hshape
  | [target, value] =>
    have hshape : nameFailure? w.heap special target = none := by
      rcases hspecial with rfl | rfl | rfl <;> exact hshape
    unfold nameFailure? at hshape
    cases hcontent : w.heap.content target with
    | symbol name => exact ⟨target, value, name, rfl, hcontent⟩
    | _ => simp [hcontent] at hshape

theorem evaluates_of_define (heval : Faithful eval) {r : Ending Value}
    (hform : IsSpecial w.heap form .define forms)
    (hshape : shapeFailure? w.heap .define forms = none)
    (h : Evaluator.define eval frame forms w = r) (hr : r.Settled) : Evaluates w form frame r := by
  obtain ⟨target, value, name, rfl, htarget⟩ := exists_definition (.inl rfl) hshape
  subst h
  simp only [Evaluator.define, run_bind, run_definition _ _ _ _ htarget, andThen_assoc] at hr ⊢
  exact .define hform htarget (heval rfl hr.of_andThen)

theorem evaluates_of_assign (heval : Faithful eval) {r : Ending Value}
    (hform : IsSpecial w.heap form .assign forms)
    (hshape : shapeFailure? w.heap .assign forms = none)
    (h : Evaluator.assign eval frame forms w = r) (hr : r.Settled) : Evaluates w form frame r := by
  obtain ⟨target, value, name, rfl, htarget⟩ := exists_definition (.inr (.inr rfl)) hshape
  subst h
  simp only [Evaluator.assign, run_bind, run_definition _ _ _ _ htarget, andThen_assoc] at hr ⊢
  exact .assign hform htarget (heval rfl hr.of_andThen)

theorem evaluates_of_defineMacro (heval : Faithful eval) {r : Ending Value}
    (hform : IsSpecial w.heap form .defineMacro forms)
    (hshape : shapeFailure? w.heap .defineMacro forms = none)
    (h : Evaluator.defineMacro eval frame forms w = r) (hr : r.Settled) :
    Evaluates w form frame r := by
  obtain ⟨target, value, name, rfl, htarget⟩ := exists_definition (.inr (.inl rfl)) hshape
  have heq : Evaluator.defineMacro eval frame [target, value] w =
      Ending.andThen (eval value frame w) (bindMacro frame name) := by
    rw [defineMacro_eq, run_bind, run_definition _ _ _ _ htarget, andThen_assoc]
    rfl
  rw [heq] at h
  subst h
  exact .defineMacro hform htarget (heval rfl hr.of_andThen)

theorem evaluates_of_function {r : Ending Value} (hform : IsSpecial w.heap form .function forms)
    (hshape : shapeFailure? w.heap .function forms = none) (h : function frame forms w = r) :
    Evaluates w form frame r := by
  match forms with
  | [] => cases hshape
  | target :: body =>
    simp only [shapeFailure?] at hshape
    cases hparams : w.heap.elements? target with
    | none => simp [hparams] at hshape
    | some params =>
      cases hnames : parameters w.heap params with
      | error why => simp [hparams, hnames] at hshape
      | ok found =>
        obtain ⟨names, tail⟩ := found
        rw [← h, run_function frame body hparams hnames]
        exact .function hform hparams hnames

/-- The form that a special form of one form takes. -/
theorem exists_single {special : Special}
    (hspecial : special = .quote ∨ special = .quasiquote ∨ special = .macroexpand)
    (hshape : shapeFailure? w.heap special forms = none) : ∃ target, forms = [target] := by
  match forms with
  | [target] => exact ⟨target, rfl⟩
  | [] => rcases hspecial with rfl | rfl | rfl <;> cases hshape
  | _ :: _ :: _ => rcases hspecial with rfl | rfl | rfl <;> cases hshape

theorem completes_special (heval : Faithful eval) {special : Special} {steps : Nat}
    (hform : IsSpecial w.heap form special forms) :
    Completes w form frame (Evaluator.special eval steps frame special forms w) := by
  cases hshape : shapeFailure? w.heap special forms with
  | some f =>
    rw [special_malformed hshape]
    exact fun _ => .malformed hform hshape
  | none =>
    cases special with
    | letStar => exact completes_letStar heval hform hshape
    | sequence => exact completes_sequence heval hform
    | conditional => exact completes_conditional heval hform hshape
    | tryStar => exact completes_tryStar heval hform hshape
    | define => exact completes_done fun r => evaluates_of_define heval hform hshape
    | assign => exact completes_done fun r => evaluates_of_assign heval hform hshape
    | defineMacro => exact completes_done fun r => evaluates_of_defineMacro heval hform hshape
    | function => exact completes_done fun r h _ => evaluates_of_function hform hshape h
    | quote =>
      obtain ⟨quoted, rfl⟩ := exists_single (.inl rfl) hshape
      exact Evaluates.quote hform
    | quasiquote =>
      obtain ⟨template, rfl⟩ := exists_single (.inr (.inl rfl)) hshape
      refine completes_done fun r h hr => ?_
      exact .quasiquote hform (faithful_fill heval steps h hr)
    | macroexpand =>
      obtain ⟨target, rfl⟩ := exists_single (.inr (.inr rfl)) hshape
      refine completes_done fun r h hr => ?_
      exact .macroexpand hform (expands_of_expandAll heval h hr)
    | unquote => cases hshape
    | splice => cases hshape
    | catchStar => cases hshape

end Special

section Call

variable {eval : Evaluation} {apply : Application} {steps : Nat} {head : Value}
  {forms : List Value}

theorem completes_call (heval : Faithful eval) (happly : FaithfulCalls apply)
    (hform : IsCall w.heap form head forms) :
    Completes w form frame (call eval apply steps frame head forms w) := by
  simp only [call, callValue, run_bind]
  cases hhead : eval head frame w with
  | error e u =>
    intro he
    exact .callFails hform (heval hhead (settled_error he))
  | ok f u =>
    have hhead := heval hhead settled_ok
    simp only [andThen_ok, run_bind, run_look]
    cases hf : u.heap.callee f with
    | nothing got =>
      simp only [Run.print_eq]
      exact fun _ => .callNothing hform hhead hf
    | native n =>
      simp only [run_bind]
      cases hargs : evalAll eval frame forms u with
      | error e x =>
        intro he
        have hargs := evaluatesAll_of_evalAll heval hargs (settled_error he)
        exact .callArgumentsFail hform hhead (by simp [hf]) (by simp [hf]) hargs
      | ok args x =>
        have hargs := evaluatesAll_of_evalAll heval hargs settled_ok
        simp only [andThen_ok, run_bind]
        refine completes_andThen fun hr => ?_
        exact .callNative hform hhead hf hargs (invokes_of_invoke heval happly rfl hr)
    | closure c =>
      cases hc : c.isMacro with
      | true =>
        simp only [hc, if_true, run_bind]
        cases hexpand : expand eval c forms u with
        | error e x =>
          intro he
          have hexpand := expandsOnce_of_expand heval hexpand (settled_error he)
          exact .callMacroFails hform hhead hf hc hexpand
        | ok expansion x =>
          have hexpand := expandsOnce_of_expand heval hexpand settled_ok
          exact fun r hrest => .callMacro hform hhead hf hc hexpand hrest
      | false =>
        simp only [hc, Bool.false_eq_true, if_false, run_bind]
        cases hargs : evalAll eval frame forms u with
        | error e x =>
          intro he
          have hargs := evaluatesAll_of_evalAll heval hargs (settled_error he)
          exact .callArgumentsFail hform hhead (by simp [hf, hc]) (by simp [hf]) hargs
        | ok args x =>
          have hargs := evaluatesAll_of_evalAll heval hargs settled_ok
          simp only [andThen_ok, run_bind]
          cases hbind : Run.bindClosure c args x with
          | error e y => exact fun _ => .callClosureFails hform hhead hf hc hargs hbind
          | ok inner y => exact fun r hbody => .callClosure hform hhead hf hc hargs hbind hbody

end Call

/-- A turn does its part. -/
theorem completes_turn {eval : Evaluation} {apply : Application} (heval : Faithful eval)
    (happly : FaithfulCalls apply) (steps : Nat) (w : World) (form : Value) (frame : FrameId) :
    Completes w form frame (Evaluator.turn eval apply steps form frame w) := by
  cases hcontent : w.heap.content form with
  | symbol name =>
    simp only [turn_eq, run_bind, run_look, andThen_ok, hcontent]
    exact completes_andThen fun _ => .symbol hcontent
  | vector cell =>
    simp only [turn_eq, run_bind, run_look, andThen_ok, hcontent]
    rw [← andThen_assoc]
    refine completes_andThen fun hr => ?_
    exact .vector hcontent (evaluatesAll_of_evalAll heval rfl hr.of_andThen)
  | map entries =>
    simp only [turn_eq, run_bind, run_look, andThen_ok, hcontent, evalEntries_eq]
    rw [← andThen_assoc]
    refine completes_andThen fun hr => ?_
    exact .map hcontent (evaluatesAll_of_evalAll heval rfl hr.of_andThen)
  | list cell =>
    cases hitems : w.heap.items cell with
    | nil =>
      simp only [turn_eq, run_bind, run_look, andThen_ok, hcontent, hitems]
      exact Evaluates.constant (by simp [IsConstant, hcontent, hitems])
    | cons head forms =>
      cases hname : (w.heap.symbol? head).bind Special.ofName? with
      | some special =>
        have hform : IsSpecial w.heap form special forms := ⟨cell, head, hcontent, hitems, hname⟩
        rw [turn_special hform]
        exact completes_special heval hform
      | none =>
        have hform : IsCall w.heap form head forms := ⟨cell, hcontent, hitems, hname⟩
        rw [turn_call hform]
        exact completes_call heval happly hform
  | _ =>
    simp only [turn_eq, run_bind, run_look, andThen_ok, hcontent]
    exact Evaluates.constant (by simp [IsConstant, hcontent])

end Turns

/-- The loop over turns that do their part ends as the meaning of the form says. -/
theorem faithful_loop {turn : Value → FrameId → Run Turn}
    (hturn : ∀ w form frame, Completes w form frame (turn form frame w)) (steps : Nat) :
    Faithful (loop turn steps) := by
  induction steps with
  | zero =>
    rintro w form frame r rfl hr
    exact absurd hr not_settled_exhausted
  | succ steps ih =>
    rintro w form frame r rfl hr
    simp only [loop, run_bind] at hr ⊢
    have hcompletes := hturn w form frame
    cases ht : turn form frame w with
    | error e u =>
      rw [ht] at hr hcompletes
      exact hcompletes fun he => hr u (by rw [he]; rfl)
    | ok t u =>
      rw [ht] at hr hcompletes
      cases t with
      | done v => exact hcompletes
      | next rest inner => exact hcompletes _ (ih rfl hr)

theorem faithful_eval (limit depth : Nat) : Faithful (Evaluator.eval limit depth) := by
  induction depth with
  | zero =>
    rintro w form frame r rfl hr
    exact absurd hr not_settled_exhausted
  | succ depth ih =>
    exact faithful_loop (completes_turn ih (faithful_apply ih limit) limit) limit

end Meaning

end Lisp
