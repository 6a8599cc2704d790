import Lisp.Proofs.Evaluator.Conduct
import Lisp.Proofs.World.Quiet
import Lisp.Session

/-!
What a host asks of a session: to run or read a text, to load a file, to evaluate or expand a form,
to call a function, to print a value, and to make values, frames and bindings. Every request is met,
whatever the library: it leads to an answer that refers to what is there, or to a failure that is no
crash.
-/
namespace Lisp

theorem World.after_map {α β : Type} (f : α → β) (m : Run α) (w : World) :
    w.after (f <$> m) = w.after m := by
  have hmap : (f <$> m) w = EStateM.map f m w := rfl
  unfold World.after
  rw [hmap, EStateM.map]
  cases m w <;> rfl

/-- What a name is bound to at the outermost frame. -/
@[irreducible] def World.global (w : World) (name : String) : Value :=
  (w.scopes.find? root (Text.of name)).getD .nil

/-- The closure that a name is bound to there. -/
@[irreducible] def World.globalClosure (w : World) (name : String) : Closure :=
  match w.heap.callee (w.global name) with
  | .closure c => c
  | _ => ⟨root, [], none, .nil, false⟩

section Leads

variable {may : World.Licence} {origin w : World} {α : Type} {good : World → α → Prop} {m : Run α}

theorem Leads.outcome (hm : Leads may origin good (m w)) :
    World.Steps may origin (w.after m) ∧ ∀ e u, m w = .error e u → e.IsProper u.heap := by
  unfold World.after
  cases hresult : m w with
  | ok a u =>
    rw [hresult] at hm
    exact ⟨hm.1, fun _ _ h => by cases h⟩
  | error e u =>
    rw [hresult] at hm
    refine ⟨hm.1, fun _ _ h => ?_⟩
    cases h
    exact hm.2

theorem Leads.steps (hm : Leads may origin good (m w)) : World.Steps may origin (w.after m) :=
  hm.outcome.1

end Leads

namespace Session

open World Evaluator

inductive Request
  | run (source : Text)
  | rep (source : Text)
  | load (path : Text)
  | read (source : Text)
  /-- To evaluate a form at the outermost frame, as the session does it. -/
  | evaluate (form : Value)
  | evaluateIn (limit depth : Nat) (form : Value) (frame : FrameId)
  | call (limit depth steps : Nat) (f : Value) (args : List Value)
  | expand (limit depth steps : Nat) (form : Value) (frame : FrameId)
  | print (style : Style) (v : Value)
  | build (d : Datum)
  | native (n : Native)
  /-- To make a frame inside another. -/
  | nest (outer : FrameId)
  | define (frame : FrameId) (name : Text) (v : Value)
  | names (frame : FrameId)

/-- What a session has for an answer. -/
inductive Response
  | done
  | text (t : Text)
  | value (v : Value)
  | frame (f : FrameId)
  | names (names : List Text)

namespace Request

def perform [Library] : Request → Run Response
  | .run source => .value <$> runSource source
  | .rep source => .text <$> Session.rep source
  | .load path => .value <$> Session.load path
  | .read source => .value <$> Session.read source
  | .evaluate form => .value <$> Session.evaluate form
  | .evaluateIn limit depth form frame => .value <$> Evaluator.eval limit depth form frame
  | .call limit depth steps f args =>
    .value <$> Evaluator.apply (Evaluator.eval limit depth) steps f args
  | .expand limit depth steps form frame =>
    .value <$> expandAll (Evaluator.eval limit depth) frame steps form
  | .print style v => .text <$> Run.print style v
  | .build d => .value <$> Run.build d
  | .native n => .value <$> Run.onHeap (·.makeNative n)
  | .nest outer => .frame <$> Run.newFrame (some outer) {}
  | .define frame name v => (fun _ => .done) <$> Run.define frame name v
  | .names frame => fun w => .ok (.names (w.scopes.names frame)) w

/-- What the request refers to is there, and a native it names is one of the language. -/
def IsFor (w : World) : Request → Prop
  | .evaluate form => w.heap.Has form
  | .evaluateIn _ _ form frame | .expand _ _ _ form frame =>
    w.heap.Has form ∧ frame < w.scopes.frames.size
  | .call _ _ _ f args => w.heap.Has f ∧ ∀ v ∈ args, w.heap.Has v
  | .native n => n ∈ Native.all
  | .nest outer => outer < w.scopes.frames.size
  | .define _ _ v => w.heap.Has v
  | .run _ | .rep _ | .load _ | .read _ | .print _ _ | .build _ | .names _ => True

end Request

/-- What the answer refers to is there. -/
def Response.IsIn (w : World) : Response → Prop
  | .value v => w.heap.Has v
  | .frame f => f < w.scopes.frames.size
  | .done | .text _ | .names _ => True

/-- What is done about the failure of a form. -/
def noteFailure (form : Value) (e : Failure) : Run Value := do
  Run.note fun h =>
    .ok (Log.line "evaluation failed" [("form", h.render .readable form), ("err", e.message h)])
  throw e

theorem evaluate_eq [Library] (form : Value) (w : World) :
    evaluate form w =
      match eval form World.root w with
      | .ok v u => .ok v u
      | .error e u => noteFailure form e u := by
  simp only [evaluate, Heap.print_eq, Failure.describe_eq]
  rfl

section Conduct

variable {may : Licence} {w : World}

theorem leads_read (source : Text) : Leads may w Gives (read source w) := by
  unfold read
  cases hread : Datum.read source with
  | ok d => exact leads_build d
  | error e => exact leads_ofParse (Datum.isProper_read hread)

variable [library : Library] (hlibrary : library.Behaves may)
include hlibrary

theorem leads_evaluate {form : Value} (hw : w.Ready may) (hform : w.heap.Has form) :
    Leads may w Gives (evaluate form w) := by
  have heval : Leads may w Gives (eval form World.root w) :=
    behaves_eval hlibrary steps depth w form World.root hw hform hw.root
  rw [evaluate_eq]
  cases hresult : eval form World.root w with
  | ok v u =>
    rw [hresult] at heval
    exact heval
  | error e u =>
    rw [hresult] at heval
    refine Leads.after ?_ heval.1
    refine (leads_note _).bind (hw.steps heval.1) fun _ x _ hux _ => ?_
    exact leads_throw (heval.2.mono hux.notSmaller.1)

theorem leads_evaluateAll {last : Value} {forms : List Datum} (hw : w.Ready may)
    (hlast : w.heap.Has last) : Leads may w Gives (evaluateAll last forms w) := by
  induction forms generalizing w last with
  | nil => exact leads_pure hlast
  | cons d rest ih =>
    refine (leads_build d).bind hw fun form u hu _ hform => ?_
    refine (leads_evaluate hlibrary hu hform).bind hu fun v x hx _ hv => ?_
    exact ih hx hv

theorem leads_runSource (source : Text) (hw : w.Ready may) :
    Leads may w Gives (runSource source w) := by
  have hnil : w.heap.Has .nil := trivial
  have hproper : ∀ e, (Datum.readAll source).2 = some e → e.IsProper :=
    fun _ => Datum.isProper_readAll
  unfold runSource
  generalize Datum.readAll source = result at hproper ⊢
  obtain ⟨forms, error⟩ := result
  refine (leads_evaluateAll hlibrary hw hnil).bind hw fun v u _ _ hv => ?_
  cases error with
  | none => exact leads_pure hv
  | some e => exact leads_ofParse (hproper e rfl)

theorem leads_load (path : Text) (hw : w.Ready may) : Leads may w Gives (load path w) := by
  unfold load
  split
  · exact ⟨.refl, trivial⟩
  · exact ⟨.refl, trivial⟩
  · rename_i source _
    have hrun := leads_runSource hlibrary source hw
    split
    · rename_i hresult
      rw [hresult] at hrun
      exact hrun
    · rename_i hresult
      rw [hresult] at hrun
      exact ⟨hrun.1, trivial⟩
    · rename_i hresult
      rw [hresult] at hrun
      exact hrun

theorem leads_runSources (sources : List String) (hw : w.Ready may) :
    Leads may w (fun _ _ => True) (runSources sources w) := by
  induction sources generalizing w with
  | nil => exact leads_pure trivial
  | cons source rest ih =>
    exact (leads_runSource hlibrary (Text.of source) hw).bind hw fun _ u hu _ _ => ih hu

/-- Every request gets an answer that refers to what is there, or a proper failure. -/
theorem leads_perform (hbind : ∀ f, may.bind f) (request : Request) (hw : w.Ready may)
    (hrequest : request.IsFor w) : Leads may w Response.IsIn (request.perform w) := by
  have heval (limit depth : Nat) : Behaves may (Evaluator.eval limit depth) :=
    behaves_eval hlibrary limit depth
  have hvalue {m : Run Value} (hm : Leads may w Gives (m w)) :
      Leads may w Response.IsIn ((.value <$> m) w) := hm.map fun _ _ hv => hv
  have htext {m : Run Text} (hm : Leads may w (fun _ _ => True) (m w)) :
      Leads may w Response.IsIn ((.text <$> m) w) := hm.map fun _ _ _ => trivial
  cases request with
  | run source => exact hvalue (leads_runSource hlibrary source hw)
  | rep source =>
    exact htext ((leads_runSource hlibrary source hw).bind hw fun v _ _ _ _ => leads_print _ v)
  | load path => exact hvalue (leads_load hlibrary path hw)
  | read source => exact hvalue (leads_read source)
  | evaluate form => exact hvalue (leads_evaluate hlibrary hw hrequest)
  | evaluateIn limit depth form frame =>
    exact hvalue (heval limit depth w form frame hw hrequest.1 ⟨hrequest.2, hbind frame⟩)
  | call limit depth steps f args =>
    exact hvalue (obeys_apply hlibrary (heval limit depth) steps w f args hw hrequest.1 hrequest.2)
  | expand limit depth steps form frame =>
    exact hvalue (leads_expandAll (heval limit depth) steps hw ⟨hrequest.2, hbind frame⟩ hrequest.1)
  | print style v => exact htext (leads_print style v)
  | build d => exact hvalue (leads_build d)
  | native n => exact hvalue (leads_onHeap (f := (·.makeNative n)) (Heap.makes_makeNative n))
  | nest outer =>
    have hmade : Leads may w (World.Opens may) (Run.newFrame (some outer) {} w) :=
      leads_newFrame hw (fun f hf => by cases hf; exact hrequest) (by simp)
    exact hmade.map fun f u hf => hf.1
  | define frame name v => exact (leads_define (hbind frame) hrequest).map fun _ _ _ => trivial
  | names frame => exact ⟨.refl, trivial⟩

end Conduct

end Session

end Lisp
