import Lisp.Proofs.Evaluator.Mirror
import Lisp.Proofs.Evaluator.Unwinding
import Lisp.Proofs.Session.Reachable
import Lisp.Proofs.World.Embedding

/-!
Forms run one at a time, and forms that were all built beforehand. A session builds a form only when
the forms before it have been evaluated; a list of forms that was read as one datum is there as a
whole before the first is evaluated. Both ways the same forms are evaluated in the same order, and
after each of them the two worlds are the same but for the addresses of what is new: evaluation
mirrors evaluation, and where the one side builds a form, the other has one that mirrors it.
-/
namespace Lisp

open Meaning

section Evaluating

variable {ρ : Renaming} {base : Heap} {w w' : World} {form : Value} {frame : FrameId}

theorem Renaming.failure_eq_exhausted {e : Failure} :
    ρ.failure e = .exhausted ↔ e = .exhausted := by
  cases e <;> simp [Renaming.failure]

theorem Agree.settled_iff {α : Type} {g : α → α} {r r' : Ending α} (h : Agree ρ base g r r') :
    r'.Settled ↔ r.Settled := by
  cases h with
  | ok _ => exact ⟨fun _ => Ending.settled_ok, fun _ => Ending.settled_ok⟩
  | error _ =>
    refine ⟨fun hr => Ending.settled_error fun he => ?_,
      fun hr => Ending.settled_error fun he => ?_⟩
    · exact hr _ (by rw [he]; rfl)
    · exact hr _ (by rw [Renaming.failure_eq_exhausted.mp he])

section Mirrored

variable (hm : w.MirrorsOver ρ base w')
  (hground : ∀ limit depth, ((Evaluator.eval limit depth form frame).heapAfter w).IsGrounded)
include hm hground

/-- What ends in a world ends the same way in a mirror of it. -/
theorem exists_agree_of_evaluates {r : Ending Value} (h : Evaluates w form frame r) :
    ∃ r', Evaluates w' (ρ.value form) (ρ.frame frame) r' ∧ Agree ρ base ρ.value r r' := by
  obtain ⟨n, heval⟩ := h.exists_eval
  have hagree := (Evaluator.isMirrored_eval n n form frame).agree hm (hground n n)
  rw [heval] at hagree
  exact ⟨_, faithful_eval n n rfl (hagree.settled_iff.mpr h.settled), hagree⟩

/-- What ends in a mirror of a world ends in that world. -/
theorem exists_agree_of_evaluates_mirror {r' : Ending Value}
    (h : Evaluates w' (ρ.value form) (ρ.frame frame) r') :
    ∃ r, Evaluates w form frame r ∧ Agree ρ base ρ.value r r' := by
  obtain ⟨n, heval⟩ := h.exists_eval
  have hagree := (Evaluator.isMirrored_eval n n form frame).agree hm (hground n n)
  rw [heval] at hagree
  exact ⟨_, faithful_eval n n rfl (hagree.settled_iff.mp h.settled), hagree⟩

omit hm in
theorem isGrounded_of_evaluates {e : Failure} {u : World}
    (h : Evaluates w form frame (.error e u)) :
    u.heap.IsGrounded := by
  obtain ⟨n, heval⟩ := h.exists_eval
  have hafter := hground n n
  unfold Run.heapAfter at hafter
  rwa [heval] at hafter

end Mirrored

/-- The text of a failure is the same in a mirror. -/
theorem Heap.Mirrors.message {h h' : Heap} (hm : h.Mirrors ρ h') (hground : h.IsGrounded)
    (e : Failure) :
    (ρ.failure e).message h' = e.message h := by
  induction e with
  | thrown v => simp only [Renaming.failure, Failure.message_thrown, hm.render hground]
  | loading path cause ih => simp only [Renaming.failure, Failure.message_loading, ih]
  | _ => rfl

end Evaluating

theorem heapAfter_eq {α : Type} (m : Run α) (w : World) : m.heapAfter w = (w.after m).heap := by
  unfold Run.heapAfter World.after
  cases m w <;> rfl

namespace Session

/-- Each form is built and evaluated at the outermost frame before the next is built, up to the
first that fails; `last` is the value before them. -/
inductive Runs : World → Value → List Datum → Ending Value → Prop
  | done {w : World} {last : Value} : Runs w last [] (.ok last w)
  | next {w x u : World} {last form v : Value} {d : Datum} {rest : List Datum} {r : Ending Value} :
    Run.build d w = .ok form x → Evaluates x form World.root (.ok v u) → Runs u v rest r →
    Runs w last (d :: rest) r
  | fails {w x u : World} {last form : Value} {d : Datum} {rest : List Datum} {e : Failure} :
    Run.build d w = .ok form x → Evaluates x form World.root (.error e u) →
    Runs w last (d :: rest) (.error e u)

/-- `Abreast origin w last ds r w' forms r'`: in `w` the data are built and evaluated one at a time,
which ends with `r`; in `w'` the forms that were built of them before are evaluated, which ends with
`r'`. All along the worlds are the same, but for the addresses of what was not in `origin`. -/
inductive Abreast (origin : World) :
    World → Value → List Datum → Ending Value → World → List Value → Ending Value → Prop
  | done {w w' : World} {last : Value} {ρ : Renaming} : ρ.Fixes origin → w.Mirrors ρ w' →
    Abreast origin w last [] (.ok last w) w' [] (.ok .nil w')
  | next {w x u w' u' : World} {last form v : Value} {d : Datum} {rest : List Datum}
    {forms : List Value} {r r' : Ending Value} {ρ : Renaming} : ρ.Fixes origin →
    Run.build d w = .ok form x → x.Mirrors ρ w' →
    Evaluates x form World.root (.ok v u) →
    Evaluates w' (ρ.value form) World.root (.ok (ρ.value v) u') → u.Mirrors ρ u' →
    Abreast origin u v rest r u' forms r' →
    Abreast origin w last (d :: rest) r w' (ρ.value form :: forms) r'
  | fails {w x u w' u' : World} {last form : Value} {d : Datum} {rest : List Datum}
    {forms : List Value} {e : Failure} {ρ : Renaming} : ρ.Fixes origin →
    Run.build d w = .ok form x → x.Mirrors ρ w' →
    Evaluates x form World.root (.error e u) →
    Evaluates w' (ρ.value form) World.root (.error (ρ.failure e) u') → u.Mirrors ρ u' →
    (ρ.failure e).message u'.heap = e.message u.heap →
    Abreast origin w last (d :: rest) (.error e u) w' (ρ.value form :: forms)
      (.error (ρ.failure e) u')

namespace Abreast

variable {origin w w' : World} {last : Value} {ds : List Datum} {forms : List Value}
  {r r' : Ending Value}

theorem runs (h : Abreast origin w last ds r w' forms r') : Runs w last ds r := by
  induction h with
  | done _ _ => exact .done
  | next _ hbuild _ hform _ _ _ ih => exact .next hbuild hform ih
  | fails _ hbuild _ hform _ _ _ => exact .fails hbuild hform

theorem evaluatesAll (h : Abreast origin w last ds r w' forms r') :
    ∃ all, EvaluatesAll w' forms World.root all ∧ r' = all.andThen fun _ => pure .nil := by
  induction h with
  | done _ _ => exact ⟨_, .nil, rfl⟩
  | next _ _ _ _ hform _ _ ih =>
    obtain ⟨all, hall, rfl⟩ := ih
    refine ⟨_, .cons hform hall, ?_⟩
    rw [Ending.andThen_assoc]
    cases all <;> rfl
  | fails _ _ _ _ hform _ _ => exact ⟨_, .fails hform, rfl⟩

/-- Where the one side fails, the other does. -/
theorem exists_failure {e : Failure} {x : World}
    (h : Abreast origin w last ds (.error e x) w' forms r') :
    ∃ (ρ : Renaming) (u' : World), r' = .error (ρ.failure e) u' := by
  generalize hr : EStateM.Result.error e x = r at h
  induction h with
  | done _ _ => cases hr
  | next _ _ _ _ _ _ _ ih => exact ih hr
  | fails _ _ _ _ _ _ _ =>
    cases hr
    exact ⟨_, _, rfl⟩

end Abreast

/-- What holds between two runs before each form: `g` is what the heap of the second was when the
forms still to come were built, and `base` what it was when all of them had been built. -/
structure Keeps (origin : World) (base g : Heap) (ρ : Renaming) (ds : List Datum) (w w' : World) :
    Prop where
  ready : w.Ready .all
  size : origin.heap.NotSmaller w.heap
  fixes : ρ.Fixes origin
  mirrors : w.MirrorsOver ρ base w'
  spares : ρ.Spares g (g.buildAll ds).2
  grows : (g.buildAll ds).2.Grows base

namespace Keeps

variable {origin w w' : World} {base g : Heap} {ρ : Renaming} {d : Datum} {ds : List Datum}

/-- One form: the worlds mirror each other again once it is built, every evaluation of it ends in a
grounded heap, and after it all is as before. -/
theorem step (h : Keeps origin base g ρ (d :: ds) w w') :
    ∃ (τ : Renaming) (form : Value) (x : World), τ.Fixes origin ∧ Run.build d w = .ok form x ∧
      τ.value form = (g.build d).1 ∧ x.MirrorsOver τ base w' ∧
      (∀ limit depth, ((Evaluator.eval limit depth form World.root).heapAfter x).IsGrounded) ∧
      ∀ v u u', Evaluates x form World.root (.ok v u) → u.MirrorsOver τ base u' →
        Keeps origin base (g.build d).2 τ ds u u' := by
  have hafter : (g.build d).2.Grows ((g.build d).2.buildAll ds).2 :=
    Heap.grows_buildAll _ fun e _ h => h.grows_build e
  obtain ⟨τ, hsame, hframe, hvalue, hm, hspares⟩ :=
    h.mirrors.exists_extension h.ready.sound h.spares hafter h.grows
  have hbuild : Run.build d w = .ok (w.heap.build d).1 { w with heap := (w.heap.build d).2 } := rfl
  have hmade : Leads .all w Gives (Run.build d w) := leads_build d
  rw [hbuild] at hmade
  have hready := h.ready.steps hmade.1
  generalize (w.heap.build d).1 = form at hbuild hvalue hmade
  generalize { w with heap := (w.heap.build d).2 } = x at hbuild hm hmade hready
  have heval : ∀ limit depth, Leads .all x Gives (Evaluator.eval limit depth form World.root x) :=
    fun limit depth => Evaluator.behaves_eval (Library.behaves_standard trivial) limit depth x form
      World.root hready hmade.2
      hready.root
  refine ⟨τ, form, x, h.fixes.sameOn h.size hsame hframe, hbuild, hvalue, hm,
    fun limit depth => ?_, fun v u u' hform hu => ?_⟩
  · rw [heapAfter_eq]
    exact (hready.sound.steps (heval limit depth).steps).heap.isGrounded
  · obtain ⟨n, hn⟩ := hform.exists_eval
    have hled := heval n n
    rw [hn] at hled
    exact {
      ready := hready.steps hled.1
      size := (h.size.trans hmade.1.notSmaller.1).trans hled.1.notSmaller.1
      fixes := h.fixes.sameOn h.size hsame hframe
      mirrors := hu
      spares := hspares
      grows := h.grows }

/-- One form evaluated on both sides. -/
theorem abreast_step (h : Keeps origin base g ρ (d :: ds) w w') :
    ∃ form x, Run.build d w = .ok form x ∧
      (∀ v u, Evaluates x form World.root (.ok v u) → ∃ τ v' u',
        Evaluates w' (g.build d).1 World.root (.ok v' u') ∧
        Keeps origin base (g.build d).2 τ ds u u' ∧
        ∀ {last forms r r'}, Abreast origin u v ds r u' forms r' →
          Abreast origin w last (d :: ds) r w' ((g.build d).1 :: forms) r') ∧
      (∀ e u, Evaluates x form World.root (.error e u) → ∃ e' u',
        Evaluates w' (g.build d).1 World.root (.error e' u') ∧
        ∀ {last forms}, Abreast origin w last (d :: ds) (.error e u) w' ((g.build d).1 :: forms)
          (.error e' u')) ∧
      ∀ r', Evaluates w' (g.build d).1 World.root r' → ∃ r, Evaluates x form World.root r := by
  obtain ⟨τ, form, x, hfixes, hbuild, hvalue, hm, hground, hnext⟩ := h.step
  have hroot : τ.frame World.root = World.root := τ.frame_zero
  have hmirror : ∀ r, Evaluates x form World.root r →
      ∃ r', Evaluates w' (g.build d).1 World.root r' ∧ Agree τ base τ.value r r' := by
    intro r hform
    rw [← hvalue, ← hroot]
    exact exists_agree_of_evaluates hm hground hform
  refine ⟨form, x, hbuild, fun v u hform => ?_, fun e u hform => ?_, fun r' hform' => ?_⟩
  · obtain ⟨_, hform', hagree⟩ := hmirror _ hform
    cases hagree with
    | ok hu =>
      refine ⟨τ, _, _, hform', hnext v u _ hform hu, fun hrest => ?_⟩
      rw [← hvalue] at hform' ⊢
      exact .next hfixes hbuild hm.toMirrors hform hform' hu.toMirrors hrest
  · obtain ⟨_, hform', hagree⟩ := hmirror _ hform
    cases hagree with
    | error hu =>
      refine ⟨_, _, hform', ?_⟩
      intro last forms
      rw [← hvalue] at hform' ⊢
      exact .fails hfixes hbuild hm.toMirrors hform hform' hu.toMirrors
        (hu.heap.message (isGrounded_of_evaluates hground hform) e)
  · rw [← hvalue, ← hroot] at hform'
    obtain ⟨r, hform, _⟩ := exists_agree_of_evaluates_mirror hm hground hform'
    exact ⟨r, hform⟩

/-- What runs one form at a time runs abreast of the forms built beforehand. -/
theorem exists_abreast_of_runs {last : Value} {r : Ending Value}
    (h : Keeps origin base g ρ ds w w') (hruns : Runs w last ds r) :
    ∃ r', Abreast origin w last ds r w' (g.buildAll ds).1 r' := by
  induction hruns generalizing g ρ w' with
  | done => exact ⟨_, .done h.fixes h.mirrors.toMirrors⟩
  | next hbuild hform _ ih =>
    obtain ⟨form, x, hbuild', hok, -, -⟩ := h.abreast_step
    cases hbuild.symm.trans hbuild'
    obtain ⟨τ, v', u', -, hkeeps, hjoin⟩ := hok _ _ hform
    obtain ⟨r', hrest⟩ := ih hkeeps
    exact ⟨r', hjoin hrest⟩
  | fails hbuild hform =>
    obtain ⟨form, x, hbuild', -, herror, -⟩ := h.abreast_step
    cases hbuild.symm.trans hbuild'
    obtain ⟨e', u', -, hfails⟩ := herror _ _ hform
    exact ⟨_, hfails⟩

/-- Forms built beforehand run abreast of what runs one form at a time. -/
theorem exists_abreast_of_evaluatesAll {last : Value} {all : Ending (List Value)}
    (h : Keeps origin base g ρ ds w w')
    (hall : EvaluatesAll w' (g.buildAll ds).1 World.root all) :
    ∃ r, Abreast origin w last ds r w' (g.buildAll ds).1 (all.andThen fun _ => pure .nil) := by
  induction ds generalizing g ρ w w' last all with
  | nil =>
    cases hall with
    | nil => exact ⟨_, .done h.fixes h.mirrors.toMirrors⟩
  | cons d ds ih =>
    obtain ⟨form, x, hbuild, hok, herror, hback⟩ := h.abreast_step
    change EvaluatesAll w' ((g.build d).1 :: ((g.build d).2.buildAll ds).1) World.root all at hall
    cases hall with
    | @cons _ u' _ v' _ _ rest hform' hrest =>
      obtain ⟨r, hform⟩ := hback _ hform'
      cases r with
      | ok v u =>
        obtain ⟨τ, _, _, hform'', hkeeps, hjoin⟩ := hok v u hform
        cases hform'.unique hform''
        obtain ⟨r, habreast⟩ := ih hkeeps hrest
        refine ⟨r, ?_⟩
        rw [Ending.andThen_assoc]
        cases rest <;> exact hjoin habreast
      | error e u =>
        obtain ⟨_, _, hform'', _⟩ := herror e u hform
        cases hform'.unique hform''
    | fails hform' =>
      obtain ⟨r, hform⟩ := hback _ hform'
      cases r with
      | ok v u =>
        obtain ⟨_, _, _, hform'', _⟩ := hok v u hform
        cases hform'.unique hform''
      | error e u =>
        obtain ⟨_, _, hform'', hfails⟩ := herror e u hform
        cases hform'.unique hform''
        exact ⟨_, hfails⟩

end Keeps

end Session

end Lisp
