import Lisp.Proofs.Evaluator.Unwinding
import Lisp.Proofs.Heap.Unfolding
import Lisp.Proofs.Session.Reachable

/-!
Calls of a function on values. A function may be called on its own, by evaluating a list that it
stands at the head of, or through the native `apply`, which takes the last of the values from a list
or vector. These are one and the same call: the function is called on the same values in the world
as it is, since neither a function nor a quoted value changes anything when it is evaluated.
-/
namespace Lisp.Evaluator

open Meaning Ending Session

variable {w : World} {h : Heap} {form f applier last : Value} {frame : FrameId} {n : Native}
  {c : Closure} {forms args leading items : List Value} {r : Ending Value}

/-- The value is a function that is called on values, not on forms. -/
def IsFunction (h : Heap) (f : Value) : Prop :=
  (∃ n, h.callee f = .native n) ∨ ∃ c, h.callee f = .closure c ∧ c.isMacro = false

/-- The forms are the values, each of them quoted. -/
def Quotes (h : Heap) (forms args : List Value) : Prop :=
  List.Forall₂ (fun form v => IsSpecial h form .quote [v]) forms args

/-- The form is a list of the function and the values, each of them quoted. -/
def CallsQuoted (h : Heap) (form f : Value) (args : List Value) : Prop :=
  ∃ cell forms, h.content form = .list cell ∧ h.items cell = f :: forms ∧ Quotes h forms args

section Meaning

/-- The meaning of a call is what calling reaches within some depth and steps. -/
theorem applies_iff_exists_apply (hr : r.Settled) :
    Applies w f args r ↔ ∃ limit depth steps, apply (eval limit depth) steps f args w = r := by
  constructor
  · intro h
    obtain ⟨n, hn⟩ := h.runs
    have hle := Nat.le_refl n
    exact ⟨n, n, n, hn ⟨n, n, n, n⟩ ⟨hle, hle, hle, hle⟩⟩
  · rintro ⟨limit, depth, steps, hcall⟩
    exact faithful_apply (faithful_eval limit depth) steps hcall hr

/-- A call leads on by steps, and what it gives is there. -/
theorem leads_applies (hw : w.Ready .all) (hf : w.heap.Has f) (hargs : GivesAll w args)
    (hcall : Applies w f args r) : Leads .all w Gives r := by
  obtain ⟨limit, depth, steps, rfl⟩ := (applies_iff_exists_apply hcall.settled).mp hcall
  have heval : Behaves .all (eval limit depth) :=
    behaves_eval (Library.behaves_standard trivial) limit depth
  exact obeys_apply (Library.behaves_standard trivial) heval steps w f args hw hf hargs

/-- A function is not a list, a vector, a map or a symbol. -/
theorem content_of_isFunction (hf : IsFunction h f) :
    (∃ id, h.content f = .native id) ∨ ∃ id, h.content f = .closure id := by
  have hcallee : ∀ got, h.callee f ≠ .nothing got := by
    intro got hgot
    rcases hf with ⟨n, hn⟩ | ⟨c, hc, _⟩
    · cases hgot.symm.trans hn
    · cases hgot.symm.trans hc
  unfold Heap.callee at hcallee
  cases hcontent : h.content f with
  | native id => exact .inl ⟨id, rfl⟩
  | closure id => exact .inr ⟨id, rfl⟩
  | _ =>
    rw [hcontent] at hcallee
    exact absurd rfl (hcallee _)

/-- A function stands for itself, in every frame. -/
theorem evaluates_function (hf : IsFunction w.heap f) : Evaluates w f frame (.ok f w) := by
  refine .constant ?_
  unfold IsConstant
  rcases content_of_isFunction hf with ⟨id, hid⟩ | ⟨id, hid⟩ <;> rw [hid] <;> trivial

/-- A list with a function at its head is no special form. -/
theorem isCall_of_isFunction {cell : CellId} (hf : IsFunction h f)
    (hform : h.content form = .list cell) (hitems : h.items cell = f :: forms) :
    IsCall h form f forms := by
  refine ⟨cell, hform, hitems, ?_⟩
  unfold Heap.symbol?
  rcases content_of_isFunction hf with ⟨id, hid⟩ | ⟨id, hid⟩ <;> rw [hid] <;> rfl

/-- Quoted values are given back as they are, and nothing else happens. -/
theorem evaluatesAll_quoted (hquoted : Quotes w.heap forms args) :
    EvaluatesAll w forms frame (.ok args w) := by
  induction hquoted with
  | nil => exact .nil
  | cons hform _ ih => exact .cons (.quote hform) ih

/-- A list with a function at its head and quoted values behind it ends as the call of the function
on the values. -/
theorem evaluates_iff_applies (hf : IsFunction w.heap f) (hform : CallsQuoted w.heap form f args) :
    Evaluates w form frame r ↔ Applies w f args r := by
  obtain ⟨cell, forms, hlist, hitems, hquoted⟩ := hform
  have hcall := isCall_of_isFunction hf hlist hitems
  have hhead : Evaluates w f frame (.ok f w) := evaluates_function hf
  have hargs : EvaluatesAll w forms frame (.ok args w) := evaluatesAll_quoted hquoted
  rcases hf with ⟨n, hn⟩ | ⟨c, hc, hplain⟩
  · rw [evaluates_callNative_iff hcall hhead hn hargs]
    refine ⟨fun h => .native hn h, fun h => ?_⟩
    cases h with
    | native hn' h => cases hn.symm.trans hn'; exact h
    | closure hc _ _ => cases hn.symm.trans hc
    | fails hc _ => cases hn.symm.trans hc
    | nothing hnone => cases hn.symm.trans hnone
  · constructor
    · intro h
      cases hbind : Run.bindClosure c args w with
      | ok inner y =>
        exact .closure hc hbind ((evaluates_callClosure_iff hcall hhead hc hplain hargs hbind).mp h)
      | error e y =>
        rw [h.unique (.callClosureFails hcall hhead hc hplain hargs hbind)]
        exact .fails hc hbind
    · intro h
      cases h with
      | native hn _ => cases hc.symm.trans hn
      | closure hc' hbind hbody =>
        cases hc.symm.trans hc'
        exact .callClosure hcall hhead hc hplain hargs hbind hbody
      | fails hc' hbind =>
        cases hc.symm.trans hc'
        exact .callClosureFails hcall hhead hc hplain hargs hbind
      | nothing hnone => cases hc.symm.trans hnone

/-- A call through the native `apply` ends as the call of the function on the leading values and
then the elements of the last. -/
theorem applies_apply_iff (happlier : w.heap.callee applier = .native .apply)
    (hlast : w.heap.elements? last = some items) :
    Applies w applier (f :: (leading ++ [last])) r ↔ Applies w f (leading ++ items) r := by
  obtain ⟨x, more, hmore⟩ := List.exists_cons_of_ne_nil (List.concat_ne_nil last leading)
  have helements : Collection.elements Native.apply.name w.heap ((x :: more).getLastD .nil) =
      .ok items := by
    rw [← hmore, List.getLastD_concat]
    exact Collection.elements_eq_ok hlast
  have hleading : (x :: more).dropLast = leading := by rw [← hmore, List.dropLast_concat]
  rw [hmore]
  constructor
  · intro h
    cases h with
    | native hn h =>
      cases happlier.symm.trans hn
      cases h with
      | apply hitems h =>
        cases helements.symm.trans hitems
        rwa [hleading] at h
      | applyRefused hitems => cases helements.symm.trans hitems
      | applyArguments hshort =>
        simp only [List.length_cons] at hshort
        omega
    | closure hc _ _ => cases happlier.symm.trans hc
    | fails hc _ => cases happlier.symm.trans hc
    | nothing hnone => cases happlier.symm.trans hnone
  · intro h
    rw [← hleading] at h
    exact .native happlier (.apply helements h)

end Meaning

/-- Calling a function, evaluating a list of it and its quoted arguments, and calling it through
`apply` end in the same way and the same world. -/
theorem calls_agree (w : World) (f : Value) (args : List Value) (hf : IsFunction w.heap f)
    (r : Ending Value) (hr : r.Settled) :
    (∀ form frame, CallsQuoted w.heap form f args →
      ((∃ limit depth, eval limit depth form frame w = r) ↔
        ∃ limit depth steps, apply (eval limit depth) steps f args w = r)) ∧
    ∀ applier leading last items, w.heap.callee applier = .native .apply →
      w.heap.elements? last = some items → leading ++ items = args →
      ((∃ limit depth steps,
          apply (eval limit depth) steps applier (f :: (leading ++ [last])) w = r) ↔
        ∃ limit depth steps, apply (eval limit depth) steps f args w = r) := by
  refine ⟨fun form frame hform => ?_, fun applier leading last items happlier hlast hargs => ?_⟩
  · rw [← evaluates_iff_exists_eval hr, ← applies_iff_exists_apply hr]
    exact evaluates_iff_applies hf hform
  · rw [← applies_iff_exists_apply hr, ← applies_iff_exists_apply hr, ← hargs]
    exact applies_apply_iff happlier hlast

/-- A session with a list of `conj` and two quoted values, a list of one element and the number two,
and a vector of the number alone. -/
def conjoining : World :=
  (start [] false {}).after (runSource (Text.of "
    (def! one 1) (def! two 2) (def! whole (list one)) (def! more [two])
    (def! quoted (list 'quote whole)) (def! other (list 'quote two))
    (def! form (list conj quoted other))"))

set_option maxRecDepth 10000 in
theorem conjoining_spec :
    let v := conjoining.global
    conjoining.heap.callee (v "conj") = .native (.operation .conj) ∧
    conjoining.heap.callee (v "apply") = .native .apply ∧
    conjoining.heap.parts? (v "form") = some (.round, [v "conj", v "quoted", v "other"]) ∧
    conjoining.heap.parts? (v "quoted") = some (.round, [.symbol (Text.of "quote"), v "whole"]) ∧
    conjoining.heap.parts? (v "other") = some (.round, [.symbol (Text.of "quote"), v "two"]) ∧
    conjoining.heap.elements? (v "more") = some [v "two"] ∧
    (eval 9 9 (v "form") World.root).value? conjoining = some (v "whole") ∧
    (conjoining.after (eval 9 9 (v "form") World.root)).heap.elements? (v "whole") =
      some [v "one", v "two"] := by
  decide +kernel

/-- `conj` adds to the list it is called on; called through `apply`, it adds the same to the same
list. -/
theorem calls_agree_conjoining :
    let v := conjoining.global
    ∃ u : World, u.heap.elements? (v "whole") = some [v "one", v "two"] ∧
      (∃ limit depth, eval limit depth (v "form") World.root conjoining = .ok (v "whole") u) ∧
      (∃ limit depth steps, apply (eval limit depth) steps (v "conj") [v "whole", v "two"]
        conjoining = .ok (v "whole") u) ∧
      ∃ limit depth steps, apply (eval limit depth) steps (v "apply")
        [v "conj", v "whole", v "more"] conjoining = .ok (v "whole") u := by
  intro v
  obtain ⟨hconj, happly, hform, hquoted, hother, hmore, hvalue, hadded⟩ := conjoining_spec
  obtain ⟨cell, hlist, hitems⟩ := Heap.elements_of_parts? hform
  obtain ⟨first, hfirst, hfirstItems⟩ := Heap.elements_of_parts? hquoted
  obtain ⟨second, hsecond, hsecondItems⟩ := Heap.elements_of_parts? hother
  have hcalls : CallsQuoted conjoining.heap (v "form") (v "conj") [v "whole", v "two"] :=
    ⟨cell, _, hlist, hitems, .cons ⟨first, _, hfirst, hfirstItems, rfl⟩
      (.cons ⟨second, _, hsecond, hsecondItems, rfl⟩ .nil)⟩
  obtain ⟨hlist, hsplit⟩ := calls_agree conjoining (v "conj") [v "whole", v "two"]
    (.inl ⟨_, hconj⟩) _ settled_ok
  have heval := Run.eq_ok_of_value? hvalue
  have hcall := (hlist _ World.root hcalls).mp ⟨9, 9, heval⟩
  exact ⟨_, hadded, ⟨9, 9, heval⟩, hcall,
    (hsplit (v "apply") [v "whole"] (v "more") [v "two"] happly hmore rfl).mpr hcall⟩

end Lisp.Evaluator
