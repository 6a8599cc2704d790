import Lisp.Proofs.Session.Reachable
import Lisp.Proofs.Session.Stages

/-!
The macro `cond`. A call on a condition, a form and more stands for an `if` of the condition and the
form, with a call on the others where the condition does not hold. So the conditions are evaluated
one after the other until one holds, and then the form behind it. A condition without a form behind
it is noticed only when it is reached.
-/
namespace Lisp.Clauses

open Meaning Ending Evaluator Macro Session

def name : Text := Text.of "cond"

/-- What is raised when a condition has no form behind it. -/
def message : Text := Text.of "odd number of forms to cond"

/-- Whether there are more forms than that. -/
def moreThan (n : Int64) : Datum :=
  .call (Operation.compare .greater).name [onForms .count, .int n]

def quoted (name : Text) : Datum := .call Special.quote.name [.symbol name]

/-- The form behind the first condition. -/
def consequence : Datum :=
  .call Special.conditional.name [moreThan 1,
    .call Operation.nth.name [.symbol formsName, .int 1],
    .call Operation.throw.name [.string message]]

/-- The call on the forms behind the first clause. -/
def again : Datum :=
  .call Operation.cons.name [quoted name, .call Operation.rest.name [onForms .rest]]

def body : Datum :=
  .call Special.conditional.name [moreThan 0,
    .call Operation.list.name [quoted Special.conditional.name, onForms .first, consequence, again]]

/-- The natives that the macro calls. -/
def operations : List Operation :=
  [.compare .greater, .count, .list, .first, .nth, .throw, .cons, .rest]

set_option maxRecDepth 10000 in
theorem read_conditions : Datum.read (Text.of Prelude.conditions) =
    .ok (.call Special.defineMacro.name [.symbol name, .call Special.function.name
      [.group .round [.symbol (Text.of "&"), .symbol formsName], body]]) := by
  rfl

/-- The macro is the one that the prelude defines. -/
structure IsMacro (h : Heap) (c : Closure) : Prop where
  scope : c.scope = World.root
  params : c.params = []
  isMacro : c.isMacro = true
  text : ∃ tail body, c.tail = some tail ∧ h.Unfolds c.body body ∧
    Datum.read (Text.of Prelude.conditions) = .ok (.call Special.defineMacro.name
      [.symbol name, .call Special.function.name
        [.group .round [.symbol (Text.of "&"), .symbol tail], body]])

/-- Seen from the frame, the macro and the natives that it calls are those of the prelude. -/
structure Intact (w : World) (frame : FrameId) : Prop where
  known : ∃ f c, w.scopes.find? frame name = some f ∧ w.heap.callee f = .closure c ∧
    IsMacro w.heap c
  natives : HasNatives operations w

section Calls

variable {w u : World} {v x i : Value} {vs : List Value} {n m : Int64}

theorem greater_order (n m : Int64) :
    Comparison.greater.holds (Numeral.order (.int n) (.int m)) = decide (m < n) := by
  unfold Numeral.order
  by_cases hless : n < m
  · have hnot : ¬ m < n := fun hmore => Int64.lt_irrefl (Int64.lt_trans hless hmore)
    simp [hless, hnot, Comparison.holds]
  · by_cases hmore : m < n <;> simp [hless, hmore, Comparison.holds]

theorem greater_ints (hv : w.heap.Unfolds v (.int n)) (hx : w.heap.Unfolds x (.int m)) :
    (Operation.compare .greater).call [v, x] w = .ok (.bool (decide (m < n))) w := by
  simp [Operation.call, Operation.answer, Arithmetic.comparison, Answer.variadic_eq,
    Arithmetic.numerals, Numeral.ofValue?, Heap.content_of_content? hv,
    Heap.content_of_content? hx, Arithmetic.chain, greater_order, Answer.perform, Reply.ofBool,
    Reply.perform, bind, Except.bind, pure, Except.pure]
  rfl

theorem nth_call {first second : Value} {others : List Value}
    (hv : w.heap.parts? v = some (.round, first :: second :: others))
    (hi : w.heap.Unfolds i (.int 1)) : Operation.nth.call [v, i] w = .ok second w := by
  obtain ⟨cell, hcontent, hitems⟩ := Heap.elements_of_parts? hv
  simp [Operation.call, Operation.answer, Answer.binary_eq, Collection.nth, Heap.sequence?,
    hcontent, Heap.content_of_content? hi, Sequence.nth_eq, Sequence.get?_eq, hitems,
    Answer.perform, Reply.perform]

theorem cons_call (hv : w.heap.parts? v = some (.round, vs)) (x : Value) :
    ∃ items : Sequence Value, items.toList = x :: vs ∧
      Operation.cons.call [x, v] w = Run.onHeap (·.makeSequence .list items none) w := by
  obtain ⟨cell, hcontent, rfl⟩ := Heap.elements_of_parts? hv
  refine ⟨(w.heap.sequence cell).cons x, Sequence.toList_cons .., ?_⟩
  simp [Operation.call, Operation.answer, Answer.binary_eq, Collection.cons, Collection.sequence,
    hcontent, Answer.perform, Reply.perform, bind, Except.bind, pure, Except.pure]

theorem list_call (vs : List Value) : Operation.list.call vs w = Run.makeList vs w := by
  simp [Operation.call, Operation.answer, Answer.perform, Reply.perform]
  rfl

theorem throw_call (v : Value) : Operation.throw.call [v] w = .error (.thrown v) w := by
  simp [Operation.call, Operation.answer, Answer.unary_eq, Answer.perform, Reply.perform]

end Calls

section Expanding

variable {w u : World} {frame inner : FrameId} {form condition consequent : Value}
  {forms others : List Value} {c : Closure}

theorem lt_ofNat_iff {k n : Nat} (hk : k < 2 ^ 63) (hn : n < 2 ^ 63) :
    Int64.ofNat k < Int64.ofNat n ↔ k < n := by
  rw [Int64.lt_iff_toInt_lt, Int64.toInt_ofNat_of_lt hk, Int64.toInt_ofNat_of_lt hn, Int.ofNat_lt]

theorem evaluates_moreThan (hsees : Sees operations w frame forms) (hcount : forms.length < 2 ^ 63)
    (k : Nat) (hk : k < 2 ^ 63) (hform : w.heap.Unfolds form (moreThan (.ofNat k))) :
    ∃ u, w.Enlarges forms u ∧
      Evaluates w form frame (.ok (.bool (decide (k < forms.length))) u) := by
  obtain ⟨_, hargs, hcall⟩ := hsees.evaluates_operation (by decide) hform
  rcases hargs with _ | ⟨hlength, _ | @⟨number, _, _, _, hnumber, _ | _⟩⟩
  obtain ⟨list, hlist, hcounted⟩ := hsees.evaluates_onForms (by decide) hlength
  rw [count_call hlist] at hcounted
  obtain ⟨count, u, hmake⟩ : ∃ count u, Run.make (.int (.ofNat forms.length)) w = .ok count u :=
    ⟨_, _, rfl⟩
  rw [hmake] at hcounted
  have hadds : w.Enlarges forms u := .makeInt hmake
  have hnumber' := hadds.heap.unfolds hnumber
  have hcompared := hcall (.cons hcounted (.cons (evaluates_int hnumber') .nil))
  simp only [greater_ints (World.Adds.make hmake).2.1 hnumber', lt_ofNat_iff hk hcount] at hcompared
  exact ⟨u, hadds, hcompared⟩

theorem evaluates_quoted {name : Text} (frame : FrameId)
    (hform : w.heap.Unfolds form (quoted name)) :
    ∃ v, w.heap.Unfolds v (.symbol name) ∧ Evaluates w form frame (.ok v w) := by
  obtain ⟨_, hspecial, hforms⟩ := isSpecial_of_unfolds hform
  rcases hforms with _ | ⟨hsymbol, _ | _⟩
  exact ⟨_, hsymbol, .quote hspecial⟩

/-- The call on the forms behind the first clause is made last. -/
theorem evaluates_again (hsees : Sees operations w frame forms)
    (hform : w.heap.Unfolds form again) :
    ∃ v head z u, ∃ items : Sequence Value, Evaluates w form frame (.ok v u) ∧
      w.Enlarges forms z ∧ z.heap.Unfolds head (.symbol name) ∧
      items.toList = head :: forms.tail.tail ∧
      Run.onHeap (·.makeSequence .list items none) z = .ok v u := by
  obtain ⟨_, hargs, hcall⟩ := hsees.evaluates_operation (by decide) hform
  rcases hargs with _ | ⟨hquoted, _ | ⟨hrest, _ | _⟩⟩
  obtain ⟨head, hhead, hheadEnds⟩ := evaluates_quoted frame hquoted
  -- The first clause is two forms.
  obtain ⟨_, hargs, hrestCall⟩ := hsees.evaluates_operation (by decide) hrest
  rcases hargs with _ | ⟨hinner, _ | _⟩
  obtain ⟨list, hlist, hinnerCall⟩ := hsees.evaluates_onForms (by decide) hinner
  obtain ⟨seq, hseq, hlist⟩ := rest_call hlist
  obtain ⟨rest, y, hmake⟩ : ∃ rest y, Run.onHeap (·.makeSequence .list seq none) w = .ok rest y :=
    ⟨_, _, rfl⟩
  rw [hlist, hmake] at hinnerCall
  have hrestParts := (World.AddsOnly.makeSequence hmake).2
  have hwy : w.Enlarges forms y := .makeSequence hmake fun hforms v hv =>
    hforms v (List.mem_of_mem_tail (hseq ▸ hv))
  have hrestCall := hrestCall (.cons hinnerCall .nil)
  obtain ⟨seq', hseq', hlist'⟩ := rest_call hrestParts
  obtain ⟨others, z, hmake'⟩ : ∃ others z,
      Run.onHeap (·.makeSequence .list seq' none) y = .ok others z := ⟨_, _, rfl⟩
  rw [hlist', hmake'] at hrestCall
  have hothersParts := (World.AddsOnly.makeSequence hmake').2
  rw [hseq] at hseq'
  have hyz : y.Enlarges forms z := .makeSequence hmake' fun hforms v hv =>
    hforms v (List.mem_of_mem_tail (List.mem_of_mem_tail (hseq' ▸ hv)))
  obtain ⟨items, hitems, hcons⟩ := cons_call hothersParts head
  obtain ⟨v, u, hmade⟩ : ∃ v u, Run.onHeap (·.makeSequence .list items none) z = .ok v u :=
    ⟨_, _, rfl⟩
  have hends := hcall (.cons hheadEnds (.cons hrestCall .nil))
  rw [hcons, hmade] at hends
  have hwz := hwy.trans hyz
  exact ⟨v, head, z, u, items, hends, hwz, hwz.heap.unfolds hhead, by rw [hitems, hseq'], hmade⟩

/-- The form behind the condition, if there is one. -/
theorem evaluates_consequence (hsees : Sees operations w frame (condition :: consequent :: others))
    (hcount : (condition :: consequent :: others).length < 2 ^ 63)
    (hform : w.heap.Unfolds form consequence) :
    ∃ u, w.Enlarges (condition :: consequent :: others) u ∧
      Evaluates w form frame (.ok consequent u) := by
  obtain ⟨_, hspecial, hparts⟩ := isSpecial_of_unfolds hform
  rcases hparts with _ | ⟨hmore, _ | ⟨hnth, _ | ⟨-, _ | _⟩⟩⟩
  obtain ⟨u, hadds, hmore⟩ := evaluates_moreThan hsees hcount 1 (by decide) hmore
  rw [decide_eq_true (by simp)] at hmore
  refine ⟨u, hadds, (evaluates_conditional_iff hspecial hmore).mpr ?_⟩
  have hsees' := hsees.adds hadds.toAdds
  obtain ⟨list, hlist, hparts⟩ := hsees'.list
  obtain ⟨_, hargs, hcall⟩ := hsees'.evaluates_operation (by decide) (hadds.heap.unfolds hnth)
  rcases hargs with _ | ⟨hsymbol, _ | @⟨index, _, _, _, hindex, _ | _⟩⟩
  have hends := hcall
    (.cons (evaluates_symbol hsymbol hlist) (.cons (evaluates_int hindex) .nil))
  rw [nth_call hparts hindex] at hends
  exact hends

/-- Without one, a string is raised. -/
theorem raises_consequence (hsees : Sees operations w frame [condition])
    (hform : w.heap.Unfolds form consequence) :
    ∃ v u, w.Enlarges [condition] u ∧ u.heap.Unfolds v (.string message) ∧
      Evaluates w form frame (.error (.thrown v) u) := by
  obtain ⟨_, hspecial, hparts⟩ := isSpecial_of_unfolds hform
  rcases hparts with _ | ⟨hmore, _ | ⟨-, _ | ⟨hthrow, _ | _⟩⟩⟩
  obtain ⟨u, hadds, hmore⟩ := evaluates_moreThan hsees (by simp) 1 (by decide) hmore
  rw [decide_eq_false (by simp)] at hmore
  obtain ⟨_, hargs, hcall⟩ := (hsees.adds hadds.toAdds).evaluates_operation (by decide)
    (hadds.heap.unfolds hthrow)
  rcases hargs with _ | @⟨v, _, _, _, hv, _ | _⟩
  have hends := hcall (.cons (evaluates_string hv) .nil)
  rw [throw_call] at hends
  exact ⟨v, u, hadds, hv, (evaluates_conditional_iff hspecial hmore).mpr hends⟩

/-- An `if` of the condition and the form behind it is made last, and before it the call on the
others; all else that it is made of is there before. -/
structure MakesClause (z u : World) (v condition consequent : Value) (others : List Value)
    (again : Value) : Prop where
  made : ∃ head againHead x, ∃ items : Sequence Value, items.toList = againHead :: others ∧
    Run.onHeap (·.makeSequence .list items none) z = .ok again x ∧
    Run.makeList [head, condition, consequent, again] x = .ok v u ∧
    z.heap.Unfolds head (.symbol Special.conditional.name) ∧
    z.heap.Unfolds againHead (.symbol name)

theorem MakesClause.isForm {z : World} {v again : Value}
    (hmade : MakesClause z u v condition consequent others again) :
    z.AddsOnly u ∧ u.heap.IsForm v Special.conditional.name [condition, consequent, again] ∧
      u.heap.IsForm again name others := by
  obtain ⟨head, againHead, x, items, hitems, hagain, hv, hhead, hagainHead⟩ := hmade.made
  obtain ⟨hzx, hagainParts⟩ := World.AddsOnly.makeSequence hagain
  obtain ⟨hxu, hparts⟩ := World.AddsOnly.makeSequence hv
  rw [hitems] at hagainParts
  rw [Sequence.toList_ofList] at hparts
  have hzu := hzx.trans hxu
  exact ⟨hzu, ⟨head, hparts, hzu.heap.unfolds hhead⟩, againHead, hxu.heap.parts? hagainParts,
    hzu.heap.unfolds hagainHead⟩

/-- What is made for a clause goes behind a veil. -/
theorem MakesClause.exists_midway {z : World} {v again : Value}
    (hmade : MakesClause z u v condition consequent others again) (hz : z.Ready .all)
    (hframe : z.Opens .all frame) (hforms : GivesAll z (condition :: consequent :: others)) :
    ∃ address veil, again = .object address ∧ Midway z.heap frame veil u ∧
      veil.object address := by
  obtain ⟨head, againHead, x, items, hitems, hagain, hv, hhead, hagainHead⟩ := hmade.made
  obtain ⟨hcondition, hforms⟩ := List.forall_mem_cons.mp hforms
  obtain ⟨hconsequent, hothers⟩ := List.forall_mem_cons.mp hforms
  have hgiven : GivesAll z items.toList := by
    rw [hitems]
    exact List.forall_mem_cons.mpr ⟨Heap.has_of_unfolds_symbol hagainHead, hothers⟩
  obtain ⟨address, veil, rfl, hhidden, hx, hzx⟩ := (midway_start hz hframe).addList hagain hgiven
  have hparts : GivesAll x [head, condition, consequent, .object address] := by
    intro item hitem
    simp only [List.mem_cons, List.not_mem_nil, or_false] at hitem
    rcases hitem with rfl | rfl | rfl | rfl
    · exact hzx.before.notSmaller.has (Heap.has_of_unfolds_symbol hhead)
    · exact hzx.before.notSmaller.has hcondition
    · exact hzx.before.notSmaller.has hconsequent
    · exact hx.hides.heap.object_lt address hhidden
  obtain ⟨_, veil', -, -, hu, hxu⟩ := hx.makeList hv hparts
  exact ⟨address, veil', rfl, hu, hxu.object address hhidden⟩

theorem IsMacro.body {h : Heap} (hc : IsMacro h c) :
    c.tail = some formsName ∧ h.Unfolds c.body body := by
  obtain ⟨tail, body, htail, hbody, htext⟩ := hc.text
  cases read_conditions.symm.trans htext
  exact ⟨htail, hbody⟩

/-- The macro asks first whether there are forms. -/
theorem IsMacro.starts (hc : IsMacro w.heap c) (hops : HasNatives operations w)
    (hroot : w.scopes.HasPath World.root) (forms : List Value) (hcount : forms.length < 2 ^ 63) :
    ∃ inner y u condition list, Run.bindClosure c forms w = .ok inner y ∧ w.Enlarges forms u ∧
      Sees operations u inner forms ∧
      IsSpecial y.heap c.body .conditional (condition :: list :: (none : Option Value).toList) ∧
      Evaluates y condition inner (.ok (.bool (decide (0 < forms.length))) u) ∧
      u.heap.Unfolds list (.call Operation.list.name
        [quoted Special.conditional.name, onForms .first, consequence, again]) := by
  obtain ⟨htail, hbody⟩ := hc.body
  obtain ⟨inner, y, hbind, hadds, hsees⟩ :=
    exists_bindClosure hc.scope hc.params htail hops hroot forms
  obtain ⟨_, hspecial, hparts⟩ := isSpecial_of_unfolds (hadds.heap.unfolds hbody)
  rcases hparts with _ | ⟨hmore, _ | ⟨hlist, _ | _⟩⟩
  obtain ⟨u, hyu, hmore⟩ := evaluates_moreThan hsees hcount 0 (by decide) hmore
  exact ⟨inner, y, u, _, _, hbind, hadds.trans hyu, hsees.adds hyu.toAdds, hspecial, hmore,
    hyu.heap.unfolds hlist⟩

/-- A call on no forms stands for nil. -/
theorem IsMacro.expandsOnce_none (hc : IsMacro w.heap c) (hops : HasNatives operations w)
    (hroot : w.scopes.HasPath World.root) :
    ∃ u, ExpandsOnce w c [] (.ok .nil u) ∧ w.AddsOnly u := by
  obtain ⟨inner, y, u, condition, list, hbind, hadds, -, hspecial, hmore, -⟩ :=
    hc.starts hops hroot [] (by simp)
  obtain ⟨log, hexpands⟩ := exists_expandsOnce hbind
    (.conditionalNone hspecial hmore rfl)
  exact ⟨_, hexpands, (hadds.logged log).toAddsOnly⟩

/-- A call on a condition alone fails. -/
theorem IsMacro.expandsOnce_odd (hc : IsMacro w.heap c) (hops : HasNatives operations w)
    (hroot : w.scopes.HasPath World.root) (condition : Value) :
    ∃ v u, ExpandsOnce w c [condition] (.error (.thrown v) u) ∧ w.AddsOnly u ∧
      u.heap.Unfolds v (.string message) := by
  obtain ⟨inner, y, u, _, list, hbind, hadds, hsees, hspecial, hmore, hlist⟩ :=
    hc.starts hops hroot [condition] (by simp)
  obtain ⟨_, hargs, hfails⟩ := hsees.operation_fails (by decide) hlist
  rcases hargs with _ | ⟨hquoted, _ | ⟨hfirst, _ | ⟨hconsequence, _⟩⟩⟩
  obtain ⟨head, -, hhead⟩ := evaluates_quoted inner hquoted
  obtain ⟨forms, hforms, hfirstCall⟩ := hsees.evaluates_onForms (by decide) hfirst
  rw [first_call hforms] at hfirstCall
  obtain ⟨v, x, hux, hv, hthrown⟩ := raises_consequence hsees hconsequence
  have hends := hfails (.cons hhead (.cons hfirstCall (.fails hthrown)))
  have hbody : Evaluates y c.body inner (.error (.thrown v) x) :=
    .conditionalThen hspecial hmore rfl hends
  exact ⟨v, x, .body hbind hbody, (hadds.trans hux).toAddsOnly, hv⟩

/-- A call on a condition, a form and more stands for an `if`. -/
theorem IsMacro.expandsOnce_clause (hc : IsMacro w.heap c) (hops : HasNatives operations w)
    (hroot : w.scopes.HasPath World.root) (condition consequent : Value) {others : List Value}
    (hcount : (condition :: consequent :: others).length < 2 ^ 63) :
    ∃ v z u log again,
      ExpandsOnce w c (condition :: consequent :: others) (.ok v { u with log := log }) ∧
      w.Enlarges (condition :: consequent :: others) z ∧
      MakesClause z u v condition consequent others again := by
  obtain ⟨inner, y, x, _, list, hbind, hadds, hsees, hspecial, hmore, hlist⟩ :=
    hc.starts hops hroot _ hcount
  rw [decide_eq_true (by simp)] at hmore
  obtain ⟨_, hargs, hcall⟩ := hsees.evaluates_operation (by decide) hlist
  rcases hargs with _ | ⟨hquoted, _ | ⟨hfirst, _ | ⟨hconsequence, _ | ⟨hagain, _ | _⟩⟩⟩⟩
  obtain ⟨head, hhead, hheadEnds⟩ := evaluates_quoted inner hquoted
  obtain ⟨forms, hforms, hfirstCall⟩ := hsees.evaluates_onForms (by decide) hfirst
  rw [first_call hforms] at hfirstCall
  obtain ⟨x', hxx', hsecond⟩ := evaluates_consequence hsees hcount hconsequence
  obtain ⟨again, againHead, z, z', items, hagainEnds, hx'z, hagainHead, hitems, hmakeAgain⟩ :=
    evaluates_again (hsees.adds hxx'.toAdds) (hxx'.heap.unfolds hagain)
  have hends := hcall (.cons hheadEnds (.cons hfirstCall (.cons hsecond (.cons hagainEnds .nil))))
  obtain ⟨v, u, hmake⟩ : ∃ v u,
      Run.makeList [head, condition, consequent, again] z' = .ok v u := ⟨_, _, rfl⟩
  rw [list_call] at hends
  have hbody : Evaluates y c.body inner (.ok v u) :=
    .conditionalThen hspecial hmore rfl (hmake ▸ hends)
  obtain ⟨log, hexpands⟩ := exists_expandsOnce hbind hbody
  have hxz := hxx'.trans hx'z
  exact ⟨v, z, u, log, again, hexpands, hadds.trans hxz, head, againHead, z', items, hitems,
    hmakeAgain, hmake, hxz.heap.unfolds hhead, hagainHead⟩

end Expanding

/-- A call on a clause and more is expanded, the condition is evaluated where the call stands, and
it does not hold. -/
def Pass (s s' : Stage) : Prop :=
  ∃ condition consequent others v u value y, s.forms = condition :: consequent :: others ∧
    s.Expands name (.ok v u) ∧ s.world.AddsOnly u ∧
    Evaluates u condition s.frame (.ok value y) ∧ y.heap.isTruthy value = false ∧
    s' = ⟨y, s.frame, others⟩

/-- No form is left, and the value is nil; or one is left, and a string is raised; or the first
condition holds, and the form behind it is evaluated, or it fails. -/
def Finishes (s : Stage) (r : Ending Value) : Prop :=
  match s.forms with
  | [] => ∃ u, s.Expands name (.ok .nil u) ∧ s.world.AddsOnly u ∧ r = .ok .nil u
  | [_] => ∃ v u, s.Expands name (.error (.thrown v) u) ∧ s.world.AddsOnly u ∧
      u.heap.Unfolds v (.string message) ∧ r = .error (.thrown v) u
  | condition :: consequent :: _ => ∃ v u, s.Expands name (.ok v u) ∧ s.world.AddsOnly u ∧
      ((∃ value y, Evaluates u condition s.frame (.ok value y) ∧ y.heap.isTruthy value = true ∧
          Evaluates y consequent s.frame r) ∨
        ∃ e y, Evaluates u condition s.frame (.error e y) ∧ r = .error e y)

theorem Pass.fewer (s s' : Stage) (hpass : Pass s s') : s'.forms.length < s.forms.length := by
  obtain ⟨_, _, others, _, _, _, _, hforms, _, _, _, _, rfl⟩ := hpass
  rw [hforms]
  exact Nat.lt_succ_of_lt (Nat.lt_succ_self _)

/-- What a call on a clause and more stands for, when the condition is about to be evaluated. The
call on the others is out of its reach. -/
structure Opened (s : Stage) (condition consequent : Value) (others : List Value) (v : Value)
    (u : World) (again : Nat) : Prop where
  expands : s.Expands name (.ok v u)
  adds : s.world.AddsOnly u
  isIf : u.heap.IsForm v Special.conditional.name [condition, consequent, .object again]
  isAgain : u.heap.IsForm (.object again) name others
  hidden : ∃ base veil, Midway base s.frame veil u ∧ condition.IsBelow base.objects.size ∧
    veil.object again

section Steps

variable {s s' : Stage} {u y : World} {form form' v condition consequent : Value}
  {others : List Value} {again : Nat} {r : Ending Value}

theorem exists_opened (hs : Stands name Pass Intact s form)
    (hforms : s.forms = condition :: consequent :: others) :
    ∃ v u again, Opened s condition consequent others v u again := by
  obtain ⟨f, c, hfound, hcallee, hc⟩ := (hs.intact s .refl).known
  have hroot := hs.hasPath_root
  have hcount := hs.count
  have hgiven := hs.sound.forms
  rw [hforms] at hcount hgiven
  obtain ⟨v, z, u, log, again, hexpands, hz, hmade⟩ :=
    hc.expandsOnce_clause (hs.intact s .refl).natives hroot condition consequent hcount
  -- What is made for the call is made in a sound world.
  have hsteps := hz.steps hgiven
  have hthere : GivesAll z (condition :: consequent :: others) := fun item hitem =>
    hsteps.notSmaller.1.has (hgiven item hitem)
  obtain ⟨address, veil, rfl, hmidway, hhidden⟩ := hmade.exists_midway
    (hs.sound.ready.steps hsteps) (hsteps.opens hs.sound.frame) hthere
  obtain ⟨hzu, hif, hagain⟩ := hmade.isForm
  have hadds : s.world.AddsOnly { u with log := log } := { hz.toAddsOnly.trans hzu with }
  exact ⟨v, _, address, ⟨f, c, hfound, hcallee, hc.isMacro, hforms ▸ hexpands⟩, hadds, hif, hagain,
    z.heap, veil, hmidway.congr rfl rfl, hthere condition List.mem_cons_self, hhidden⟩

section Opening

variable (hs : Stands name Pass Intact s form) (ho : Opened s condition consequent others v u again)
include hs ho

theorem Opened.evaluates_if : Evaluates s.world form s.frame r ↔ Evaluates u v s.frame r :=
  ho.expands.evaluates_iff hs.isForm (by decide)

/-- The call ends only if the condition does. -/
theorem Opened.exists_evaluates (h : Evaluates s.world form s.frame r) :
    ∃ r', Evaluates u condition s.frame r' :=
  exists_evaluates_condition ho.isIf.isSpecial ((ho.evaluates_if hs).mp h)

/-- Where the condition fails, so does the call. -/
theorem Opened.evaluates_error {e : Failure} (h : Evaluates u condition s.frame (.error e y)) :
    Evaluates s.world form s.frame (.error e y) := by
  have hspecial : IsSpecial u.heap v .conditional
    (condition :: consequent :: (some (Value.object again)).toList) := ho.isIf.isSpecial
  exact (ho.evaluates_if hs).mpr (.conditionalFails hspecial h)

/-- Where the condition holds, the call ends as the form behind it, and otherwise as a call on the
others. -/
theorem Opened.evaluates_ok {value : Value} (h : Evaluates u condition s.frame (.ok value y)) :
    Stage.IsSound ⟨y, s.frame, others⟩ ∧ y.heap.IsForm (.object again) name others ∧
      ∀ r, Evaluates s.world form s.frame r ↔
        Evaluates y (if y.heap.isTruthy value then consequent else .object again) s.frame r := by
  obtain ⟨base, veil, hmidway, hbelow, hhidden⟩ := ho.hidden
  obtain ⟨hy, hdeepens, -⟩ := (hmidway.evaluates hbelow h).2 value y rfl
  have hagain := hmidway.isForm hdeepens hhidden ho.isAgain
  refine ⟨⟨hy.ready, hy.frame, hy.ready.sound.heap.has_of_isForm hagain⟩, hagain, fun r => ?_⟩
  rw [ho.evaluates_if hs]
  exact evaluates_conditional_iff ho.isIf.isSpecial h

end Opening

theorem evaluates_none (hs : Stands name Pass Intact s form) (hforms : s.forms = []) :
    ∃ u, s.Expands name (.ok .nil u) ∧ s.world.AddsOnly u ∧
      ∀ r, Evaluates s.world form s.frame r ↔ r = .ok .nil u := by
  obtain ⟨f, c, hfound, hcallee, hc⟩ := (hs.intact s .refl).known
  have hroot := hs.hasPath_root
  obtain ⟨u, hexpands, hadds⟩ := hc.expandsOnce_none (hs.intact s .refl).natives hroot
  have hexpanded : s.Expands name (.ok .nil u) :=
    ⟨f, c, hfound, hcallee, hc.isMacro, hforms ▸ hexpands⟩
  have hnil : Evaluates u .nil s.frame (.ok .nil u) := .constant trivial
  refine ⟨u, hexpanded, hadds, fun r => ?_⟩
  rw [hexpanded.evaluates_iff hs.isForm (by decide)]
  exact ⟨fun h => h.unique hnil, fun h => h ▸ hnil⟩

/-- A condition without a form behind it is not evaluated. -/
theorem evaluates_odd (hs : Stands name Pass Intact s form) (hforms : s.forms = [condition]) :
    ∃ v u, s.Expands name (.error (.thrown v) u) ∧ s.world.AddsOnly u ∧
      u.heap.Unfolds v (.string message) ∧
      ∀ r, Evaluates s.world form s.frame r ↔ r = .error (.thrown v) u := by
  obtain ⟨f, c, hfound, hcallee, hc⟩ := (hs.intact s .refl).known
  have hroot := hs.hasPath_root
  obtain ⟨v, u, hexpands, hadds, hv⟩ :=
    hc.expandsOnce_odd (hs.intact s .refl).natives hroot condition
  have hexpanded : s.Expands name (.error (.thrown v) u) :=
    ⟨f, c, hfound, hcallee, hc.isMacro, hforms ▸ hexpands⟩
  have hthrown := hexpanded.evaluates_error hs.isForm (by decide)
  exact ⟨v, u, hexpanded, hadds, hv, fun r =>
    ⟨fun h => h.unique hthrown, fun h => h ▸ hthrown⟩⟩

/-- A call that ends finishes at its stage, or passes to one where the rest of it ends. -/
theorem ends (hs : Stands name Pass Intact s form) (h : Evaluates s.world form s.frame r) :
    Finishes s r ∨ ∃ s' form', Pass s s' ∧ Stands name Pass Intact s' form' ∧
      Evaluates s'.world form' s'.frame r := by
  unfold Finishes
  rcases hforms : s.forms with _ | ⟨condition, _ | ⟨consequent, others⟩⟩
  · obtain ⟨u, hexpanded, hadds, hends⟩ := evaluates_none hs hforms
    exact .inl ⟨u, hexpanded, hadds, (hends r).mp h⟩
  · obtain ⟨v, u, hexpanded, hadds, hv, hends⟩ := evaluates_odd hs hforms
    exact .inl ⟨v, u, hexpanded, hadds, hv, (hends r).mp h⟩
  · obtain ⟨v, u, again, ho⟩ := exists_opened hs hforms
    obtain ⟨r', hr'⟩ := ho.exists_evaluates hs h
    cases r' with
    | error e y =>
      exact .inl ⟨v, u, ho.expands, ho.adds, .inr ⟨e, y, hr', h.unique (ho.evaluates_error hs hr')⟩⟩
    | ok value y =>
      obtain ⟨hsound, hagain, hends⟩ := ho.evaluates_ok hs hr'
      have hrest := (hends r).mp h
      cases htruthy : y.heap.isTruthy value with
      | true =>
        rw [htruthy] at hrest
        exact .inl ⟨v, u, ho.expands, ho.adds, .inl ⟨value, y, hr', htruthy, hrest⟩⟩
      | false =>
        rw [htruthy] at hrest
        have hpass : Pass s ⟨y, s.frame, others⟩ := ⟨condition, consequent, others, v, u, value, y,
          hforms, ho.expands, ho.adds, hr', htruthy, rfl⟩
        exact .inr ⟨_, _, hpass, hs.pass Pass.fewer hpass hsound hagain, hrest⟩

theorem evaluates_of_finishes (hs : Stands name Pass Intact s form) (h : Finishes s r) :
    Evaluates s.world form s.frame r := by
  unfold Finishes at h
  rcases hforms : s.forms with _ | ⟨condition, _ | ⟨consequent, others⟩⟩ <;> rw [hforms] at h
  · obtain ⟨u, hexpanded, -, hends⟩ := evaluates_none hs hforms
    obtain ⟨u', hexpanded', -, rfl⟩ := h
    cases hexpanded.unique hexpanded'
    exact (hends _).mpr rfl
  · obtain ⟨v, u, hexpanded, -, -, hends⟩ := evaluates_odd hs hforms
    obtain ⟨v', u', hexpanded', -, -, rfl⟩ := h
    cases hexpanded.unique hexpanded'
    exact (hends _).mpr rfl
  · obtain ⟨v, u, again, ho⟩ := exists_opened hs hforms
    obtain ⟨v', u', hexpanded', -, h⟩ := h
    cases ho.expands.unique hexpanded'
    rcases h with ⟨value, y, hcondition, htruthy, hrest⟩ | ⟨e, y, hcondition, rfl⟩
    · obtain ⟨-, -, hends⟩ := ho.evaluates_ok hs hcondition
      refine (hends r).mpr ?_
      rw [htruthy]
      exact hrest
    · exact ho.evaluates_error hs hcondition

theorem exists_of_pass (hs : Stands name Pass Intact s form) (hpass : Pass s s') :
    ∃ form', Stands name Pass Intact s' form' ∧
      ∀ r, Evaluates s'.world form' s'.frame r → Evaluates s.world form s.frame r := by
  have hstep := hpass
  obtain ⟨condition, consequent, others, v', u', value, y, hforms, hexpanded', -, hcondition,
    htruthy, hs'⟩ := hstep
  obtain ⟨v, u, again, ho⟩ := exists_opened hs hforms
  cases ho.expands.unique hexpanded'
  obtain ⟨hsound, hagain, hends⟩ := ho.evaluates_ok hs hcondition
  subst hs'
  refine ⟨_, hs.pass Pass.fewer hpass hsound hagain, fun r hr => (hends r).mpr ?_⟩
  rw [htruthy]
  exact hr

end Steps

/-- `cond` selects the first clause whose condition holds: a call passes stages whose condition does
not hold, and ends as it finishes at the first other stage. -/
theorem cond_selects_first {w : World} (hw : Reachable w) {frame : FrameId}
    (hframe : frame < w.scopes.frames.size) {form : Value} {forms : List Value}
    (hform : w.heap.IsForm form name forms) (hcount : forms.length < 2 ^ 63)
    (hintact : ∀ s, Relation.ReflTransGen Pass ⟨w, frame, forms⟩ s → Intact s.world s.frame)
    (r : Ending Value) (hr : r.Settled) :
    (∃ limit depth, eval limit depth form frame w = r) ↔
      ∃ s, Relation.ReflTransGen Pass ⟨w, frame, forms⟩ s ∧ Finishes s r := by
  rw [← evaluates_iff_exists_eval hr]
  exact (stands_start hw hframe hform hcount hintact).evaluates_iff_passes Pass.fewer ends
    evaluates_of_finishes exists_of_pass r

theorem Intact.adds {w u : World} {frame : FrameId} (hintact : Intact w frame)
    (hpath : w.scopes.HasPath frame) (hadds : w.Adds u) : Intact u frame := by
  obtain ⟨f, c, hfound, hcallee, hc⟩ := hintact.known
  obtain ⟨tail, body, htail, hbody, htext⟩ := hc.text
  exact ⟨⟨f, c, (hadds.find? hpath).trans hfound, hadds.callee_eq hcallee (by simp), hc.scope,
    hc.params, hc.isMacro, tail, body, htail, hadds.heap.unfolds hbody, htext⟩,
    hintact.natives.adds hadds⟩

/-- A session with the form `(cond false boom true 7 boom)`. -/
def selecting : World :=
  (start [] true {}).after
    (runSource (Text.of "(def! seven 7) (def! form (list 'cond false 'boom true seven 'boom))"))

def selected (seven : Value) : List Value :=
  [.bool false, .symbol (Text.of "boom"), .bool true, seven, .symbol (Text.of "boom")]

set_option maxRecDepth 10000 in
theorem selecting_spec :
    let v := selecting.global
    let c := selecting.globalClosure "cond"
    selecting.scopes.find? World.root name = some (v "cond") ∧
    selecting.heap.callee (v "cond") = .closure c ∧
    (c.scope = World.root ∧ c.params = [] ∧ c.isMacro = true ∧ c.tail = some formsName ∧
      selecting.heap.Unfolds c.body body) ∧
    (∀ op ∈ operations, (selecting.scopes.get? World.root op.name).map selecting.heap.callee =
      some (.native (.operation op))) ∧
    selecting.heap.parts? (v "form") = some (.round, .symbol name :: selected (v "seven")) ∧
    selecting.heap.Unfolds (v "seven") (.int 7) ∧ 0 < selecting.scopes.frames.size := by
  decide +kernel

theorem reachable_selecting : Reachable selecting := reachable_run ..

theorem intact_selecting : Intact selecting World.root := by
  obtain ⟨hfound, hcallee, ⟨hscope, hparams, hmacro, htail, hbody⟩, hops, _⟩ := selecting_spec
  refine ⟨⟨_, _, hfound, hcallee, hscope, hparams, hmacro, formsName, _, htail, hbody,
    read_conditions⟩, ?_⟩
  intro op hop
  exact Option.map_eq_some_iff.mp (hops op hop)

/-- A condition that is a truth value is not passed unless it is false, and leaves the macro intact.
-/
theorem Pass.intact {s s' : Stage} {b : Bool} {consequent : Value} {others : List Value}
    (hpass : Pass s s') (hforms : s.forms = .bool b :: consequent :: others)
    (hintact : Intact s.world s.frame) (hpath : s.world.scopes.HasPath s.frame) :
    b = false ∧ Intact s'.world s'.frame ∧ s'.world.scopes.HasPath s'.frame ∧
      s'.forms = others := by
  obtain ⟨_, _, _, v, u, value, y, hsame, -, hadds, hends, htruthy, rfl⟩ := hpass
  cases hforms.symm.trans hsame
  cases hends.unique (.constant trivial)
  refine ⟨?_, hintact.adds hpath hadds.toAdds, hadds.toAdds.hasPath hpath, rfl⟩
  cases b with
  | true => cases htruthy
  | false => rfl

theorem intact_of_passes {w : World} {s : Stage} (hintact : Intact w World.root)
    (hpath : w.scopes.HasPath World.root)
    {seven : Value} (hs : Relation.ReflTransGen Pass ⟨w, World.root, selected seven⟩ s) :
    Intact s.world s.frame := by
  rcases hs.cases_head with rfl | ⟨s₁, hfirst, hrest⟩
  · exact hintact
  obtain ⟨-, hintact₁, hpath₁, hforms⟩ := hfirst.intact rfl hintact hpath
  rcases hrest.cases_head with rfl | ⟨s₂, hsecond, -⟩
  · exact hintact₁
  · obtain ⟨hfalse, -⟩ := hsecond.intact hforms hintact₁ hpath₁
    cases hfalse

/-- The first condition does not hold and the second does; that there is a condition without a form
behind these goes unnoticed, and nothing is evaluated that is not bound. -/
theorem cond_selects_first_selecting :
    Reachable selecting ∧
    selecting.heap.IsForm (selecting.global "form") name (selected (selecting.global "seven")) ∧
    selecting.heap.Unfolds (selecting.global "seven") (.int 7) ∧
    (∀ s, Relation.ReflTransGen Pass
        ⟨selecting, World.root, selected (selecting.global "seven")⟩ s →
      Intact s.world s.frame) ∧
    ∃ limit depth u, eval limit depth (selecting.global "form") World.root selecting =
      .ok (selecting.global "seven") u := by
  obtain ⟨-, -, -, -, hparts, hseven, hframe⟩ := selecting_spec
  have hw := reachable_selecting
  have hintact := intact_selecting
  generalize selecting.global "form" = form, selecting.global "seven" = seven at *
  generalize selecting = w at *
  have hpath := hw.ready.sound.hasPath hframe
  have hform : w.heap.IsForm form name (selected seven) := ⟨_, hparts, rfl⟩
  have hcount : (selected seven).length < 2 ^ 63 := by simp [selected]
  have hpasses : ∀ s, Relation.ReflTransGen Pass ⟨w, World.root, selected seven⟩ s →
      Intact s.world s.frame := fun s hs => intact_of_passes hintact hpath hs
  have hends := cond_selects_first hw hframe hform hcount hpasses
  refine ⟨hw, hform, hseven, hpasses, ?_⟩
  have hs := stands_start hw hframe hform hcount hpasses
  obtain ⟨v, u, _, ho⟩ := exists_opened hs rfl
  have hfalse : Evaluates u (.bool false) World.root (.ok (.bool false) u) := .constant trivial
  have hpass : Pass ⟨w, World.root, selected seven⟩ _ :=
    ⟨_, _, _, v, u, _, u, rfl, ho.expands, ho.adds, hfalse, rfl, rfl⟩
  obtain ⟨_, hs', -⟩ := exists_of_pass hs hpass
  obtain ⟨v', u', _, ho'⟩ := exists_opened hs' rfl
  have htrue : Evaluates u' (.bool true) World.root (.ok (.bool true) u') := .constant trivial
  have hvalue : Evaluates u' seven World.root (.ok seven u') :=
    evaluates_int (ho'.adds.heap.unfolds (ho.adds.heap.unfolds hseven))
  obtain ⟨limit, depth, heval⟩ := (hends _ settled_ok).mpr
    ⟨_, .single hpass, v', u', ho'.expands, ho'.adds, .inl ⟨_, _, htrue, rfl, hvalue⟩⟩
  exact ⟨limit, depth, _, heval⟩

end Lisp.Clauses
