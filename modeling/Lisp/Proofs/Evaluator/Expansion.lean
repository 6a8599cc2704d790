import Lisp.Proofs.Evaluator.Unwinding
import Lisp.Proofs.Evaluator.Written
import Lisp.Proofs.Session.Reachable

/-!
Macro calls, expanded ahead of evaluation or as evaluation meets them. Expansion goes by the name at
the head of a list, evaluation by the value of the head, and only where the list is no special form.
On a list that starts with any other name the two agree, so that a form ends as what it expands to.
A list that starts with the name of a special form is expanded nevertheless, if the name is bound to
a macro.
-/
namespace Lisp.Evaluator

open Meaning Ending Session

variable {w u x : World} {form expansion list head : Value} {frame : FrameId} {c : Closure}
  {forms rest : List Value} {special : Special} {r found : Ending Value} {limit depth steps : Nat}

section Calls

/-- The form is a list that starts with the name of a special form. -/
def IsReserved (h : Heap) (form : Value) : Prop := ∃ special forms, IsSpecial h form special forms

/-- Evaluation takes the form for a macro call: it is no special form, and the value of its head is
the macro. -/
def CallsMacro (w : World) (form : Value) (frame : FrameId) (c : Closure) (forms : List Value) :
    Prop :=
  ∃ head f u limit depth, IsCall w.heap form head forms ∧
    eval limit depth head frame w = .ok f u ∧ u.heap.callee f = .closure c ∧ c.isMacro = true

theorem not_isCall (hform : IsSpecial w.heap form special rest) :
    ¬ IsCall w.heap form head forms := by
  rintro ⟨cell, hlist, hitems, hcall⟩
  obtain ⟨cell', head', hlist', hitems', hspecial⟩ := hform
  cases hlist.symm.trans hlist'
  cases hitems.symm.trans hitems'
  cases hcall.symm.trans hspecial

theorem not_isReserved {h : Heap} {name : Text}
    (hform : h.elements? form = some (.symbol name :: forms))
    (hname : Special.ofName? name = none) : ¬ IsReserved h form := by
  rintro ⟨special, rest, cell, head, hlist, hitems, hspecial⟩
  simp only [Heap.elements?, Heap.sequence?, hlist, Option.map_some, Option.some.injEq] at hform
  cases hform.symm.trans hitems
  cases hname.symm.trans hspecial

/-- The name of a special form stands at its head. -/
theorem symbol?_of_isSpecial (hform : IsSpecial w.heap form special forms) :
    ∃ cell head, w.heap.content form = .list cell ∧ w.heap.items cell = head :: forms ∧
      w.heap.symbol? head = some special.name := by
  obtain ⟨cell, head, hlist, hitems, hspecial⟩ := hform
  obtain ⟨name, hname, hof⟩ := Option.bind_eq_some_iff.mp hspecial
  rw [Special.ofName?_eq] at hof
  have hsame := List.find?_some hof
  exact ⟨cell, head, hlist, hitems, hname.trans (congrArg some (eq_of_beq hsame).symm)⟩

theorem eval_symbol {name : Text} (hform : w.heap.content form = .symbol name) :
    eval (limit + 1) (depth + 1) form frame w = Run.lookup frame name w := by
  simp only [eval, loop, turn, run_bind, run_look, andThen_ok, hform]
  cases Run.lookup frame name w <;> rfl

/-- What expansion takes for a macro call is a call to evaluation as well, unless it is a special
form, and the value of its head is the macro. -/
theorem exists_isCall (hcall : macroCall? w frame form = some (c, forms))
    (hplain : ¬ IsReserved w.heap form) :
    ∃ head name f, IsCall w.heap form head forms ∧ w.heap.content head = .symbol name ∧
      Run.lookup frame name w = .ok f w ∧ w.heap.callee f = .closure c ∧ c.isMacro = true := by
  obtain ⟨cell, head, name, f, hlist, hitems, hname, hfound, hcallee, hmacro⟩ :=
    macroCall?_eq_some_iff.mp hcall
  have hcontent : w.heap.content head = .symbol name := by
    unfold Heap.symbol? at hname
    split at hname
    · cases hname
      assumption
    · cases hname
  have hlookup : Run.lookup frame name w = .ok f w := by simp [Run.lookup, Run.inScopes, hfound]
  refine ⟨head, name, f, ⟨cell, hlist, hitems, ?_⟩, hcontent, hlookup, hcallee, hmacro⟩
  exact Option.eq_none_iff_forall_ne_some.mpr fun special hspecial =>
    hplain ⟨special, forms, cell, head, hlist, hitems, hspecial⟩

/-- Expansion and evaluation agree on what a macro call is, but for special forms: these are never
macro calls to evaluation, and are expanded just when their name is bound to a macro. -/
theorem expansion_agrees_unless_special (w : World) (form : Value) (frame : FrameId) :
    (∀ c forms, macroCall? w frame form = some (c, forms) → ¬ IsReserved w.heap form →
      CallsMacro w form frame c forms ∧
      ∀ limit depth apply steps, turn (eval (limit + 1) (depth + 1)) apply steps form frame w =
        Ending.andThen (expand (eval (limit + 1) (depth + 1)) c forms w) fun expansion =>
          pure (.next expansion frame)) ∧
    ∀ special forms, IsSpecial w.heap form special forms →
      (∀ c rest, ¬ CallsMacro w form frame c rest) ∧
      (∀ eval apply steps, turn eval apply steps form frame w =
        Evaluator.special eval steps frame special forms w) ∧
      ∀ c, macroCall? w frame form = some (c, forms) ↔
        ∃ f, w.scopes.find? frame special.name = some f ∧ w.heap.callee f = .closure c ∧
          c.isMacro = true := by
  refine ⟨fun c forms hcall hplain => ?_, fun special forms hform => ⟨?_, ?_, fun c => ?_⟩⟩
  · obtain ⟨head, name, f, hform, hhead, hlookup, hf, hc⟩ := exists_isCall hcall hplain
    have hvalue : ∀ limit depth, eval (limit + 1) (depth + 1) head frame w = .ok f w :=
      fun limit depth => (eval_symbol hhead).trans hlookup
    refine ⟨⟨head, f, w, 1, 1, hform, hvalue 0 0, hf, hc⟩, fun limit depth apply steps => ?_⟩
    rw [turn_call hform]
    simp [call, callValue, hvalue, hf, hc]
  · rintro c rest ⟨head, _, _, _, _, hcall, _⟩
    exact not_isCall hform hcall
  · exact fun eval apply steps => turn_special hform
  · obtain ⟨cell, head, hlist, hitems, hname⟩ := symbol?_of_isSpecial hform
    rw [macroCall?_eq_some_iff]
    constructor
    · rintro ⟨cell', head', name, f, hlist', hitems', hname', hfound, hmacro⟩
      cases hlist.symm.trans hlist'
      cases hitems.symm.trans hitems'
      cases hname.symm.trans hname'
      exact ⟨f, hfound, hmacro⟩
    · rintro ⟨f, hfound, hmacro⟩
      exact ⟨cell, head, _, f, hlist, hitems, hname, hfound, hmacro⟩

/-- A session in which `if` was bound to a macro. -/
def masked : World :=
  (start [] false {}).after
    (runSource (Text.of "(defmacro! if (fn* (& forms) nil)) (def! form '(if true false))"))

def maskingMacro : Closure := ⟨World.root, [], some (Text.of "forms"), .nil, true⟩

set_option maxRecDepth 10000 in
theorem masked_spec :
    masked.heap.parts? (masked.global "form") =
      some (.round, [.symbol (Text.of "if"), .bool true, .bool false]) ∧
    masked.scopes.find? World.root (Text.of "if") = some (masked.global "if") ∧
    masked.heap.callee (masked.global "if") = .closure maskingMacro := by
  decide +kernel

/-- In a session that bound `if` to a macro, `(if true false)` is expanded, but evaluated as the
special form. -/
theorem expansion_agrees_unless_special_masked :
    Reachable masked ∧ macroCall? masked World.root (masked.global "form") =
      some (maskingMacro, [.bool true, .bool false]) ∧
    (∀ c forms, ¬ CallsMacro masked (masked.global "form") World.root c forms) ∧
    ∀ eval apply steps, turn eval apply steps (masked.global "form") World.root masked =
      Evaluator.special eval steps World.root .conditional [.bool true, .bool false] masked := by
  obtain ⟨hparts, hfound, hcallee⟩ := masked_spec
  have hreach : Reachable masked := reachable_run ..
  obtain ⟨cell, hlist, hitems⟩ := Heap.elements_of_parts? hparts
  have hform : IsSpecial masked.heap (masked.global "form") .conditional
      [.bool true, .bool false] :=
    ⟨cell, _, hlist, hitems, rfl⟩
  obtain ⟨hnever, hturn, hexpanded⟩ :=
    (expansion_agrees_unless_special masked (masked.global "form") World.root).2 _ _ hform
  exact ⟨hreach, (hexpanded maskingMacro).mpr ⟨_, hfound, hcallee, rfl⟩, hnever, hturn⟩

end Calls

section Transparency

/-- `Expanded frame w form u list`: expanding a form in `w` for as long as its head names a macro
gets to the list in `u` and expands it. -/
inductive Expanded (frame : FrameId) : World → Value → World → Value → Prop
  | here {w : World} {form : Value} {c : Closure} {forms : List Value} :
    macroCall? w frame form = some (c, forms) → Expanded frame w form w form
  | later {w x u : World} {form expansion list : Value} {c : Closure} {forms : List Value}
    {limit depth : Nat} :
    macroCall? w frame form = some (c, forms) →
    expand (eval limit depth) c forms w = .ok expansion x → Expanded frame x expansion u list →
    Expanded frame w form u list

/-- None of the lists that are expanded starts with the name of a special form. -/
def ExpandsPlainly (w : World) (form : Value) (frame : FrameId) : Prop :=
  ∀ u list, Expanded frame w form u list → ¬ IsReserved u.heap list

/-- How evaluation goes on from an expansion: with the form that it gave, or with its failure. -/
def Resumes (frame : FrameId) (r : Ending Value) : Ending Value → Prop
  | .ok form w => Evaluates w form frame r
  | .error e w => r = .error e w

/-- One macro call: evaluation ends as it does from what the macro makes of the forms. -/
theorem evaluates_iff_of_expand (hcall : macroCall? w frame form = some (c, forms))
    (hplain : ¬ IsReserved w.heap form) (hexpand : expand (eval limit depth) c forms w = found)
    (hfound : found.Settled) : Evaluates w form frame r ↔ Resumes frame r found := by
  obtain ⟨head, name, f, hform, hhead, hlookup, hf, hc⟩ := exists_isCall hcall hplain
  have hvalue : Evaluates w head frame (.ok f w) := hlookup ▸ .symbol hhead
  have honce := expandsOnce_of_expand (faithful_eval limit depth) hexpand hfound
  cases found with
  | ok expansion x => exact evaluates_callMacro_iff hform hvalue hf hc honce
  | error e x =>
    have hfails : Evaluates w form frame (.error e x) :=
      .callMacroFails hform hvalue hf hc honce
    exact ⟨fun h => h.unique hfails, fun h => h ▸ hfails⟩

theorem expandAll_of_none (hcall : macroCall? w frame form = none) :
    expandAll (eval limit depth) frame (steps + 1) form w = .ok form w := by
  simp only [expandAll_succ, run_bind, run_get, andThen_ok, hcall, run_pure]

theorem expandAll_of_ok (hcall : macroCall? w frame form = some (c, forms))
    (honce : expand (eval limit depth) c forms w = .ok expansion x) :
    expandAll (eval limit depth) frame (steps + 1) form w =
      expandAll (eval limit depth) frame steps expansion x := by
  simp only [expandAll_succ, run_bind, run_get, andThen_ok, hcall, honce]

theorem expandAll_of_error {e : Failure} (hcall : macroCall? w frame form = some (c, forms))
    (honce : expand (eval limit depth) c forms w = .error e x) :
    expandAll (eval limit depth) frame (steps + 1) form w = .error e x := by
  simp only [expandAll_succ, run_bind, run_get, andThen_ok, andThen_error, hcall, honce]

/-- The whole expansion, one macro call after the other. -/
theorem evaluates_iff_of_expandAll (hplain : ExpandsPlainly w form frame)
    (hexpand : expandAll (eval limit depth) frame steps form w = found) (hfound : found.Settled) :
    Evaluates w form frame r ↔ Resumes frame r found := by
  induction steps generalizing w form with
  | zero =>
    subst hexpand
    exact absurd hfound not_settled_exhausted
  | succ steps ih =>
    cases hcall : macroCall? w frame form with
    | none =>
      cases (expandAll_of_none hcall).symm.trans hexpand
      exact Iff.rfl
    | some call =>
      obtain ⟨c, forms⟩ := call
      have hhere := hplain w form (.here hcall)
      cases honce : expand (eval limit depth) c forms w with
      | ok expansion x =>
        have hrest : ExpandsPlainly x expansion frame := fun u list hlist =>
          hplain u list (.later hcall honce hlist)
        rw [expandAll_of_ok hcall honce] at hexpand
        rw [evaluates_iff_of_expand hcall hhere honce settled_ok]
        exact ih hrest hexpand
      | error e x =>
        cases (expandAll_of_error hcall honce).symm.trans hexpand
        exact evaluates_iff_of_expand hcall hhere honce hfound

/-- As long as no special form is expanded, evaluating what a form expands to ends just as the form
does, and where the expansion fails the form fails alike. -/
theorem expansion_is_transparent (w : World) (form : Value) (frame : FrameId)
    (hplain : ExpandsPlainly w form frame) (limit depth steps : Nat) :
    (∀ x u, expandAll (eval limit depth) frame steps form w = .ok x u → ∀ r : Ending Value,
      r.Settled → ((∃ limit depth, eval limit depth x frame u = r) ↔
        ∃ limit depth, eval limit depth form frame w = r)) ∧
    ∀ e u, expandAll (eval limit depth) frame steps form w = .error e u → e ≠ .exhausted →
      ∀ r : Ending Value, r.Settled →
        ((∃ limit depth, eval limit depth form frame w = r) ↔ r = .error e u) := by
  refine ⟨fun x u hexpand r hr => ?_, fun e u hexpand he r hr => ?_⟩
  · rw [← evaluates_iff_exists_eval hr, ← evaluates_iff_exists_eval hr]
    exact (evaluates_iff_of_expandAll hplain hexpand settled_ok).symm
  · rw [← evaluates_iff_exists_eval hr]
    exact evaluates_iff_of_expandAll hplain hexpand (settled_error he)

/-- A list that is expanded is the first, or comes of what that one stands for. -/
theorem expanded_cases (hcall : macroCall? w frame form = some (c, forms))
    (hexpand : expand (eval limit depth) c forms w = .ok expansion x)
    (hlist : Expanded frame w form u list) :
    (u = w ∧ list = form) ∨ Expanded frame x expansion u list := by
  cases hlist with
  | here => exact .inl ⟨rfl, rfl⟩
  | @later _ _ _ _ _ _ _ _ limit' depth' hcall' hexpand' hlist =>
    cases hcall.symm.trans hcall'
    have honce := expandsOnce_of_expand (faithful_eval limit depth) hexpand settled_ok
    have honce' := expandsOnce_of_expand (faithful_eval limit' depth') hexpand' settled_ok
    cases honce.runs.eq honce'.runs
    exact .inr hlist

theorem not_expanded (hcall : macroCall? w frame form = none) :
    ¬ Expanded frame w form u list := by
  intro hlist
  cases hlist with
  | here hcall' => cases hcall.symm.trans hcall'
  | later hcall' _ _ => cases hcall.symm.trans hcall'

/-- A session with two macros, one of which stands for calls of the other, and a call of that one.
-/
def unlessWorld : World :=
  (start [] false {}).after (runSource (Text.of "
    (defmacro! pick (fn* (c x y) (list 'if c x y)))
    (defmacro! unless (fn* (c x y) (list 'pick c y x)))
    (def! one 1) (def! two 2)
    (def! form (list 'unless false one two))"))

abbrev unlessForm : Value := unlessWorld.global "form"

def unlessArgs : List Value := [.bool false, unlessWorld.global "one", unlessWorld.global "two"]

def pickArgs : List Value := [.bool false, unlessWorld.global "two", unlessWorld.global "one"]

abbrev expandUnless : Run Value := expand (eval 9 9) (unlessWorld.globalClosure "unless") unlessArgs

abbrev expandPick : Run Value := expand (eval 9 9) (unlessWorld.globalClosure "pick") pickArgs

def unlessOnce : World := unlessWorld.after expandUnless

def unlessTwice : World := unlessOnce.after expandPick

def pickForm : Value := (expandUnless.value? unlessWorld).getD .nil

def ifForm : Value := (expandPick.value? unlessOnce).getD .nil

set_option maxRecDepth 10000 in
/-- `(unless false 1 2)` stands for `(pick false 2 1)`, and that for `(if false 2 1)`. -/
theorem unless_spec :
    macroCall? unlessWorld World.root unlessForm =
      some (unlessWorld.globalClosure "unless", unlessArgs) ∧
    unlessWorld.heap.elements? unlessForm = some (.symbol (Text.of "unless") :: unlessArgs) ∧
    expandUnless.value? unlessWorld = some pickForm ∧
    macroCall? unlessOnce World.root pickForm =
      some (unlessWorld.globalClosure "pick", pickArgs) ∧
    unlessOnce.heap.elements? pickForm = some (.symbol (Text.of "pick") :: pickArgs) ∧
    expandPick.value? unlessOnce = some ifForm ∧
    macroCall? unlessTwice World.root ifForm = none ∧
    (eval 9 9 ifForm World.root).value? unlessTwice = some (unlessWorld.global "one") ∧
    (unlessTwice.after (eval 9 9 ifForm World.root)).heap.content (unlessWorld.global "one") =
      .int 1 := by
  decide +kernel

theorem expandUnless_eq : expandUnless unlessWorld = .ok pickForm unlessOnce :=
  Run.eq_ok_of_value? (by obtain ⟨_, _, hunless, _⟩ := unless_spec; exact hunless)

theorem expandPick_eq : expandPick unlessOnce = .ok ifForm unlessTwice :=
  Run.eq_ok_of_value? (by obtain ⟨_, _, _, _, _, hpick, _⟩ := unless_spec; exact hpick)

theorem expandsPlainly_unless : ExpandsPlainly unlessWorld unlessForm World.root := by
  obtain ⟨hfirst, hfirstItems, _, hsecond, hsecondItems, _, hlast, _⟩ := unless_spec
  intro u list hlist
  rcases expanded_cases hfirst expandUnless_eq hlist with ⟨hu, hlist⟩ | hlist
  · rw [hu, hlist]
    exact not_isReserved hfirstItems (by decide)
  · rcases expanded_cases hsecond expandPick_eq hlist with ⟨hu, hlist⟩ | hlist
    · rw [hu, hlist]
      exact not_isReserved hsecondItems (by decide)
    · exact absurd hlist (not_expanded hlast)

theorem expansion_is_transparent_unless :
    ExpandsPlainly unlessWorld unlessForm World.root ∧
    expandAll (eval 9 9) World.root 3 unlessForm unlessWorld = .ok ifForm unlessTwice ∧
    ∃ u limit depth,
      eval limit depth unlessForm World.root unlessWorld = .ok (unlessWorld.global "one") u ∧
      u.heap.content (unlessWorld.global "one") = .int 1 := by
  obtain ⟨hfirst, _, _, hsecond, _, _, hlast, hvalue, hone⟩ := unless_spec
  have hexpand : expandAll (eval 9 9) World.root 3 unlessForm unlessWorld =
      .ok ifForm unlessTwice :=
    (expandAll_of_ok hfirst expandUnless_eq).trans
      ((expandAll_of_ok hsecond expandPick_eq).trans (expandAll_of_none hlast))
  have htransparent := (expansion_is_transparent unlessWorld unlessForm World.root
    expandsPlainly_unless 9 9 3).1 _ _ hexpand
  obtain ⟨limit, depth, heval⟩ :=
    (htransparent _ settled_ok).mp ⟨9, 9, Run.eq_ok_of_value? hvalue⟩
  exact ⟨expandsPlainly_unless, hexpand, _, limit, depth, heval, hone⟩

end Transparency

end Lisp.Evaluator
