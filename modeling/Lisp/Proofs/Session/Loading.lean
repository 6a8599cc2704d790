import Lisp.Proofs.Datum.Splicing
import Lisp.Proofs.Session.Abreast
import Lisp.Session

/-!
Ways to run a file. A host loads a file or hands its content to the session; a program calls
`load-file`, which reads the whole content as one `do` form and evaluates it. For a content that
reads to its end all three evaluate the same forms in the same order at the outermost frame, leave
the same behind and fail on the same form with the same error.
-/
namespace Lisp

open Meaning

namespace Heap

variable {h : Heap} {v : Value}

theorem render_displayed_string {s : Rope} (hv : h.content v = .string s) :
    h.render .displayed v = s.toList := by
  obtain ⟨fuel, hfuel⟩ : ∃ fuel, h.renderingDepth = fuel + 1 :=
    Nat.exists_eq_succ_of_ne_zero (by simp [renderingDepth])
  rw [render_eq, hfuel, renderWithin, hv]
  simp [stringText]

theorem unfolds_string {s : Text} (hv : h.Unfolds v (.string s)) : h.render .displayed v = s := by
  obtain ⟨rope, hcontent, hrope⟩ := hv
  rw [render_displayed_string (content_of_content? hcontent), hrope]

theorem buildAll_append (h : Heap) (xs ys : List Datum) :
    h.buildAll (xs ++ ys) =
      ((h.buildAll xs).1 ++ ((h.buildAll xs).2.buildAll ys).1,
        ((h.buildAll xs).2.buildAll ys).2) := by
  induction xs generalizing h with
  | nil => rfl
  | cons d xs ih => simp [buildAll, ih]

end Heap

theorem World.Adds.callee_of_has {w u : World} (hadds : w.Adds u) {f : Value}
    (hf : w.heap.Has f) : u.heap.callee f = w.heap.callee f := by
  have hcontent : u.heap.content f = w.heap.content f :=
    congrArg Object.content (hadds.heap.object hf)
  unfold Heap.callee Heap.native Heap.closure
  rw [hcontent, hadds.closures, hadds.natives]

/-- What a failure becomes while a file is loaded: it tells the path, unless the host has yet to
look for a file. -/
def Failure.whileLoading (path : Text) : Failure → Failure
  | .unread wanted => .unread wanted
  | e => .loading path e

namespace Session

/-- The function is the one that the prelude defines as `load-file`. -/
structure IsLoadFile (h : Heap) (c : Closure) : Prop where
  scope : c.scope = World.root
  tail : c.tail = none
  isMacro : c.isMacro = false
  text : ∃ param body, c.params = [param] ∧ h.Unfolds c.body body ∧
    Datum.read (Text.of Prelude.loadFile) = .ok (.call Special.define.name
      [.symbol (Text.of "load-file"), .call Special.function.name
        [.group .round [.symbol param], body]])

/-- The outermost frame binds `load-file` and the natives that it calls as it did at the start. -/
structure HasLoadFile (w : World) : Prop where
  loadFile : ∃ f c, w.scopes.get? World.root (Text.of "load-file") = some f ∧
    w.heap.callee f = .closure c ∧ IsLoadFile w.heap c
  natives : ∀ n ∈ [Native.eval, .operation .readString, .operation .printJoined,
    .operation .slurp], ∃ f, w.scopes.get? World.root n.name = some f ∧ w.heap.callee f = .native n

def pathName : Text := Text.of "f"

/-- What `load-file` does with a path. -/
def loadFileBody : Datum :=
  .call Native.eval.name [.call Operation.readString.name [.call Operation.printJoined.name
    [.string (Text.of "(do "), .call Operation.slurp.name [.symbol pathName],
      .string (Text.of "\nnil)")]]]

set_option maxRecDepth 10000 in
theorem read_loadFile : Datum.read (Text.of Prelude.loadFile) = .ok (.call Special.define.name
    [.symbol (Text.of "load-file"), .call Special.function.name
      [.group .round [.symbol pathName], loadFileBody]]) := by
  cbv

theorem IsLoadFile.params {h : Heap} {c : Closure} (hc : IsLoadFile h c) :
    c.params = [pathName] ∧ h.Unfolds c.body loadFileBody := by
  obtain ⟨param, body, hparams, hbody, htext⟩ := hc.text
  cases read_loadFile.symm.trans htext
  exact ⟨hparams, hbody⟩

section Reading

variable {w : World} {form : Value} {frame : FrameId} {path source : Text}

theorem slurp_call {v : Value} (hv : w.heap.Unfolds v (.string path))
    (hread : w.host.read path = .ok source) :
    Operation.slurp.call [v] w = Run.make (.string (.ofList source)) w := by
  obtain ⟨rope, hcontent, rfl⟩ := hv
  simp [Operation.call, Operation.answer, Answer.unary_eq, Answer.string, Answer.slurp,
    Heap.content_of_content? hcontent, hread, Answer.perform, Reply.perform]
  rfl

theorem readString_call {v : Value} (hv : w.heap.Unfolds v (.string source)) :
    Operation.readString.call [v] w = read source w := by
  obtain ⟨rope, hcontent, rfl⟩ := hv
  simp only [Operation.call, Operation.answer, Answer.unary_eq, Answer.string, Answer.readString,
    Heap.content_of_content? hcontent, read]
  cases Datum.read rope.toList <;> simp [Answer.perform, Reply.perform]

theorem printJoined_call (w : World) (args : List Value) :
    Operation.printJoined.call args w =
      Run.make (.string (w.heap.renderAll .displayed [] args)) w := by
  simp [Operation.call, Operation.answer, Heap.printAll_eq, Answer.perform, Reply.perform]

/-- The content of a file, and the text that is made of it, became strings. -/
def MakesTexts (w : World) (source : Text) (x : World) : Prop :=
  ∃ content v y whole t, Run.make (.string content) w = .ok v y ∧
    Run.make (.string whole) y = .ok t x ∧ content.toList = source ∧
    whole.toList = Text.of "(do " ++ source ++ Text.of "\nnil)"

theorem MakesTexts.addsOnly {x : World} (h : MakesTexts w source x) : w.AddsOnly x := by
  obtain ⟨content, v, y, whole, t, hcontent, hwhole, _⟩ := h
  exact (World.AddsOnly.make hcontent).trans (World.AddsOnly.make hwhole)

/-- The file is wrapped into the text of a `do` form, which is read. -/
theorem evaluates_reading {p : Value}
    (hops : ∀ op ∈ [Operation.readString, .printJoined, .slurp], ∃ f,
      w.scopes.find? frame op.name = some f ∧ w.heap.callee f = .native (.operation op))
    (hpath : w.scopes.find? frame pathName = some p) (hp : w.heap.Unfolds p (.string path))
    (hread : w.host.read path = .ok source)
    (hform : w.heap.Unfolds form (.call Operation.readString.name
      [.call Operation.printJoined.name [.string (Text.of "(do "),
        .call Operation.slurp.name [.symbol pathName], .string (Text.of "\nnil)")]])) :
    ∃ x, MakesTexts w source x ∧
      Evaluates w form frame (read (Text.of "(do " ++ source ++ Text.of "\nnil)") x) := by
  obtain ⟨readString, hreadString, hreadStringF⟩ := hops .readString (by simp)
  obtain ⟨str, hstr, hstrF⟩ := hops .printJoined (by simp)
  obtain ⟨slurp, hslurp, hslurpF⟩ := hops .slurp (by simp)
  obtain ⟨joinedForms, hjoinedForms, hreadCall⟩ :=
    evaluates_operation hform (by decide) hreadString hreadStringF
  obtain ⟨joinedForm, _, hjoinedForm, hnil, rfl⟩ := List.forall₂_cons_right_iff.mp hjoinedForms
  obtain rfl := List.forall₂_nil_right_iff.mp hnil
  obtain ⟨partForms, hpartForms, hstrCall⟩ := evaluates_operation hjoinedForm (by decide) hstr hstrF
  obtain ⟨opening, _, hopening, hmore, rfl⟩ := List.forall₂_cons_right_iff.mp hpartForms
  obtain ⟨content, _, hcontent, hlast, rfl⟩ := List.forall₂_cons_right_iff.mp hmore
  obtain ⟨closing, _, hclosing, hnil, rfl⟩ := List.forall₂_cons_right_iff.mp hlast
  obtain rfl := List.forall₂_nil_right_iff.mp hnil
  obtain ⟨pathForms, hpathForms, hslurpCall⟩ :=
    evaluates_operation hcontent (by decide) hslurp hslurpF
  obtain ⟨pathForm, _, hpathForm, hnil, rfl⟩ := List.forall₂_cons_right_iff.mp hpathForms
  obtain rfl := List.forall₂_nil_right_iff.mp hnil
  -- The content of the file becomes a string.
  have hfile := hslurpCall (.cons (evaluates_symbol hpathForm hpath) .nil)
  rw [slurp_call hp hread] at hfile
  obtain ⟨v, x, hv⟩ : ∃ v x, Run.make (.string (.ofList source)) w = .ok v x := ⟨_, _, rfl⟩
  obtain ⟨hadds, hcontentV, _⟩ := World.Adds.make hv
  rw [hv] at hfile
  -- The three strings become one.
  have hparts := hstrCall (.cons (evaluates_string hopening) (.cons hfile
    (.cons (evaluates_string (hadds.heap.unfolds hclosing)) .nil)))
  rw [printJoined_call] at hparts
  have htext : (x.heap.renderAll .displayed [] [opening, v, closing]).toList =
      Text.of "(do " ++ source ++ Text.of "\nnil)" := by
    have hvText : x.heap.Unfolds v (.string source) := ⟨_, hcontentV, Sequence.toList_ofList source⟩
    rw [Heap.toList_renderAll]
    simp only [List.map_cons, List.map_nil, Heap.unfolds_string (hadds.heap.unfolds hopening),
      Heap.unfolds_string hvText, Heap.unfolds_string (hadds.heap.unfolds hclosing)]
    simp [Text.join, List.intercalate]
  obtain ⟨whole, y, hwhole⟩ : ∃ whole y,
      Run.make (.string (x.heap.renderAll .displayed [] [opening, v, closing])) x = .ok whole y :=
    ⟨_, _, rfl⟩
  rw [hwhole] at hparts
  have hbuilt := hreadCall (.cons hparts .nil)
  rw [readString_call ⟨_, (World.Adds.make hwhole).2.1, htext⟩] at hbuilt
  exact ⟨y, ⟨_, v, x, _, whole, hv, hwhole, Sequence.toList_ofList source, htext⟩, hbuilt⟩

end Reading

/-- Forms built as one `do` form. -/
theorem isSpecial_build (h : Heap) (ds : List Datum) :
    IsSpecial (h.build (.call Special.sequence.name ds)).2
        (h.build (.call Special.sequence.name ds)).1 .sequence (h.buildAll ds).1 ∧
      (h.buildAll ds).2.Grows (h.build (.call Special.sequence.name ds)).2 := by
  have hbuild : h.build (.call Special.sequence.name ds) =
      (h.buildAll ds).2.makeList (.symbol Special.sequence.name :: (h.buildAll ds).1) := by
    simp [Datum.call, Heap.build, Heap.buildAll]
  rw [hbuild]
  refine ⟨⟨(h.buildAll ds).2.cells.size, .symbol Special.sequence.name, ?_, ?_, rfl⟩,
    Heap.grows_makeSequence ..⟩
  · exact Heap.content_of_content? (Heap.content?_makeSequence ..)
  · exact (Heap.items_eq (Heap.cells_makeSequence ..)).trans (Sequence.toList_ofList _)

/-- A call of `load-file` got as far as reading: besides its frame, only texts were made. -/
def GetsText (w : World) (path source : Text) (x : World) : Prop :=
  ∃ arg inner y, w.heap.Unfolds arg (.string path) ∧
    Run.newFrame (some World.root) (.ofPairs [(pathName, arg)]) w = .ok inner y ∧
    MakesTexts y source x

theorem GetsText.addsOnly {w x : World} {path source : Text} (h : GetsText w path source x) :
    w.AddsOnly x := by
  obtain ⟨arg, inner, y, _, hnew, htexts⟩ := h
  exact (World.AddsOnly.newFrame hnew).trans htexts.addsOnly

/-- A call of `load-file` reads the text that it made, and ends as the form that was read does at
the outermost frame. -/
theorem HasLoadFile.evaluates_read_iff {w : World} {form : Value} {path source : Text}
    (hload : HasLoadFile w) (hw : w.Ready .all)
    (hform : w.heap.Unfolds form (.call (Text.of "load-file") [.string path]))
    (hread : w.host.read path = .ok source) :
    ∃ x, GetsText w path source x ∧
      (∀ d v u, Datum.read (Text.of "(do " ++ source ++ Text.of "\nnil)") = .ok d →
        Run.build d x = .ok v u →
        ∀ r, Evaluates w form World.root r ↔ Evaluates u v World.root r) ∧
      ∀ e, Datum.read (Text.of "(do " ++ source ++ Text.of "\nnil)") = .error e →
        ∀ r, Evaluates w form World.root r ↔ r = .error (.parse e) x := by
  obtain ⟨f, c, hf, hcallee, hc⟩ := hload.loadFile
  obtain ⟨hparams, hbody⟩ := hc.params
  obtain ⟨head, _, hcall, hhead, hforms⟩ := isCall_of_unfolds hform (by decide)
  obtain ⟨arg, _, harg, hnil, rfl⟩ := List.forall₂_cons_right_iff.mp hforms
  obtain rfl := List.forall₂_nil_right_iff.mp hnil
  have hbind : Run.bindClosure c [arg] w =
      Run.newFrame (some World.root) (.ofPairs [(pathName, arg)]) w := by
    simp [Run.bindClosure, Run.bind_none, hc.scope, hparams, hc.tail]
  obtain ⟨inner, y, hnew⟩ : ∃ inner y,
      Run.newFrame (some World.root) (.ofPairs [(pathName, arg)]) w = .ok inner y := ⟨_, _, rfl⟩
  have hcalls := fun r => evaluates_callClosure_iff (r := r) hcall
    (evaluates_symbol hhead (Scopes.find?_of_get? hf)) hcallee hc.isMacro
    (.cons (evaluates_string harg) .nil) (hbind.trans hnew)
  -- The frame of the call binds the path and sees the natives around it.
  have hmore := World.AddsOnly.newFrame hnew
  obtain ⟨_, hheap, hframe⟩ := World.Adds.newFrame hnew
  have hsees : ∀ n ∈ [Native.eval, .operation .readString, .operation .printJoined,
      .operation .slurp], ∃ f, y.scopes.find? inner n.name = some f ∧
        y.heap.callee f = .native n := by
    intro n hn
    obtain ⟨f, hf, hcallee⟩ := hload.natives n hn
    have hother : (Bindings.ofPairs [(pathName, arg)]).get? n.name = none := by
      have hne : ∀ n ∈ [Native.eval, .operation .readString, .operation .printJoined,
        .operation .slurp], pathName ≠ n.name := by decide
      simp [Bindings.ofPairs, Bindings.get?_put, hne n hn]
    exact ⟨f, Scopes.find?_of_outer hframe hother (hmore.get? hf),
      (hmore.callee_of_has (hw.sound.bound _ _ f hf)).trans hcallee⟩
  have hpath : y.scopes.find? inner pathName = some arg := by
    refine Scopes.find?_of_get? ?_
    rw [Scopes.get?_of_frame hframe]
    simp [Bindings.ofPairs, Bindings.get?_put]
  rw [← hheap] at hbody
  obtain ⟨evalHead, _, hevalCall, hevalHead, hevalForms⟩ := isCall_of_unfolds hbody (by decide)
  obtain ⟨reading, _, hreading, hnil, rfl⟩ := List.forall₂_cons_right_iff.mp hevalForms
  obtain rfl := List.forall₂_nil_right_iff.mp hnil
  obtain ⟨x, htexts, hreads⟩ := evaluates_reading
    (fun op hop => hsees (.operation op) (List.mem_cons_of_mem _ (List.mem_map_of_mem hop)))
    hpath (hheap ▸ harg) (hmore.host ▸ hread) hreading
  obtain ⟨eval, heval, hevalF⟩ := hsees .eval (by simp)
  have hname := evaluates_symbol hevalHead heval
  refine ⟨x, ⟨arg, inner, y, harg, hnew, htexts⟩, fun d v u hd hbuild r => ?_, fun e he r => ?_⟩
  · simp only [read, hd, hbuild] at hreads
    rw [hcalls, evaluates_callEval_iff hevalCall hname hevalF (.cons hreads .nil)]
  · simp only [read, he, Failure.ofParse_eq (Datum.isProper_read he)] at hreads
    have hfails := Evaluates.callArgumentsFail hevalCall hname (by simp [hevalF])
      (by simp [hevalF]) (.fails hreads)
    rw [hcalls]
    exact ⟨fun h => h.unique hfails, fun h => h ▸ hfails⟩

/-- A call of `load-file` ends as the forms of the file do, built all at once and evaluated one
after the other. -/
theorem HasLoadFile.evaluates_iff {w : World} {form : Value} {path source : Text}
    {ds : List Datum} (hload : HasLoadFile w) (hw : w.Ready .all)
    (hform : w.heap.Unfolds form (.call (Text.of "load-file") [.string path]))
    (hread : w.host.read path = .ok source) (hds : Datum.readAll source = (ds, none)) :
    ∃ (u : World) (g : Heap), w.AddsOnly u ∧ w.heap.Grows g ∧ (g.buildAll ds).2.Grows u.heap ∧
      ∀ r, Evaluates w form World.root r ↔
        ∃ all, EvaluatesAll u (g.buildAll ds).1 World.root all ∧
          r = all.andThen fun _ => pure .nil := by
  obtain ⟨x, htext, hreads, _⟩ := hload.evaluates_read_iff hw hform hread
  obtain ⟨hspecial, hgrows⟩ := isSpecial_build x.heap (ds ++ [.nil])
  rw [Heap.buildAll_append] at hspecial hgrows
  have hwhole := World.AddsOnly.build (w := x)
    (d := .call Special.sequence.name (ds ++ [.nil])) rfl
  refine ⟨_, x.heap, htext.addsOnly.trans hwhole, htext.addsOnly.heap, hgrows, fun r => ?_⟩
  rw [hreads _ _ _ (Datum.read_wrapped hds) rfl]
  exact evaluates_sequence_nil_iff hspecial

section Running

variable {w : World} {form last : Value} {ds : List Datum} {path source : Text}

/-- A session evaluates as the meaning says, and adds no more than a line to the log. -/
theorem evaluates_of_evaluate (h : Ending.Settled (evaluate form w)) :
    (∃ v u, evaluate form w = .ok v u ∧ Evaluates w form World.root (.ok v u)) ∨
      ∃ e u log, evaluate form w = .error e { u with log := log } ∧
        Evaluates w form World.root (.error e u) := by
  simp only [evaluate_eq, Session.eval] at h ⊢
  generalize Session.steps = limit at h ⊢
  generalize Session.depth = depth at h ⊢
  cases heval : Evaluator.eval limit depth form World.root w with
  | ok v u => exact .inl ⟨v, u, rfl, faithful_eval limit depth heval Ending.settled_ok⟩
  | error e u =>
    obtain ⟨log, hlog⟩ := Run.exists_log (fun h =>
      Log.line "evaluation failed" [("form", h.render .readable form), ("err", e.message h)]) u
    simp only [heval, noteFailure, run_bind, hlog, Ending.andThen_ok] at h ⊢
    refine .inr ⟨e, u, log, rfl, faithful_eval limit depth heval ?_⟩
    exact Ending.settled_error fun he => h _ (by rw [he]; rfl)

/-- A session runs forms one at a time. -/
theorem runs_of_evaluateAll (h : Ending.Settled (evaluateAll last ds w)) :
    (∃ v u, evaluateAll last ds w = .ok v u ∧ Runs w last ds (.ok v u)) ∨
      ∃ e u log, evaluateAll last ds w = .error e { u with log := log } ∧
        Runs w last ds (.error e u) := by
  induction ds generalizing w last with
  | nil => exact .inl ⟨last, w, rfl, .done⟩
  | cons d rest ih =>
    obtain ⟨form, x, hbuild⟩ : ∃ form x, Run.build d w = .ok form x := ⟨_, _, rfl⟩
    simp only [evaluateAll, run_bind, hbuild, Ending.andThen_ok] at h ⊢
    rcases evaluates_of_evaluate h.of_andThen with ⟨v, u, heval, hform⟩ | ⟨e, u, log, heval, hform⟩
    · rw [heval] at h ⊢
      rcases ih h with ⟨v', y, hrest, hruns⟩ | ⟨e, y, log, hrest, hruns⟩
      · exact .inl ⟨v', y, hrest, .next hbuild hform hruns⟩
      · exact .inr ⟨e, y, log, hrest, .next hbuild hform hruns⟩
    · rw [heval]
      exact .inr ⟨e, u, log, rfl, .fails hbuild hform⟩

/-- What a host gets when it loads a file or hands over its content, by how its forms run. -/
theorem host_runs (hread : w.host.read path = .ok source) (hds : Datum.readAll source = (ds, none))
    (h : Ending.Settled (runSource source w)) :
    (∃ v u, Runs w .nil ds (.ok v u) ∧ load path w = .ok v u ∧
      rep source w = .ok (u.heap.render .readable v) u) ∨
    ∃ e u log, Runs w .nil ds (.error e u) ∧
      load path w = .error (e.whileLoading path) { u with log := log } ∧
      rep source w = .error e { u with log := log } := by
  have hsource : runSource source w = evaluateAll .nil ds w := by
    unfold runSource
    simp only [hds, run_bind]
    cases evaluateAll .nil ds w <;> rfl
  rw [hsource] at h
  have hrep : rep source w = Ending.andThen (evaluateAll .nil ds w) fun v =>
      Run.look (·.render .readable v) := by
    simp only [rep, run_bind, hsource, Run.print_eq]
  rcases runs_of_evaluateAll h with ⟨v, u, hall, hruns⟩ | ⟨e, u, log, hall, hruns⟩
  · have hload : load path w = .ok v u := by
      unfold load
      simp only [hread, hsource, hall]
    exact .inl ⟨v, u, hruns, hload, by rw [hrep, hall]; rfl⟩
  · have hload : load path w = .error (e.whileLoading path) { u with log := log } := by
      unfold load
      simp only [hread, hsource, hall]
      cases e <;> rfl
    exact .inr ⟨e, u, log, hruns, hload, by rw [hrep, hall]; rfl⟩

end Running

/-- A call of `load-file` and the forms of the file run one at a time, as by a host that loads it,
are evaluated in step, in worlds that are the same but for the addresses of what is new. -/
theorem load_file_abreast (w : World) (form : Value) (path source : Text) (ds : List Datum)
    (hw : Reachable w) (hload : HasLoadFile w)
    (hform : w.heap.Unfolds form (.call (Text.of "load-file") [.string path]))
    (hread : w.host.read path = .ok source) (hds : Datum.readAll source = (ds, none)) :
    (∃ u forms,
      (∀ r', Evaluates w form World.root r' ↔ ∃ r, Abreast w w .nil ds r u forms r') ∧
      ∀ r, Runs w .nil ds r ↔ ∃ r', Abreast w w .nil ds r u forms r') ∧
    (Ending.Settled (runSource source w) →
      (∃ v u, Runs w .nil ds (.ok v u) ∧ load path w = .ok v u ∧
        rep source w = .ok (u.heap.render .readable v) u) ∨
      ∃ e u log, Runs w .nil ds (.error e u) ∧
        load path w = .error (e.whileLoading path) { u with log := log } ∧
        rep source w = .error e { u with log := log } ∧
        ∀ h, (∀ wanted, e ≠ .unread wanted) → (e.whileLoading path).message h =
          Text.of "load " ++ path ++ Text.of ": " ++ e.message h) := by
  have hready := hw.ready
  obtain ⟨u, g, hadds, hgrows, hbuilt, hiff⟩ := hload.evaluates_iff hready hform hread hds
  obtain ⟨ρ, hfixes, hspares, hm⟩ := hadds.exists_mirrorsOver hready.sound hready.root.1
  have hkeeps : Keeps w u.heap g ρ ds w u :=
    { ready := hready
      size := .refl _
      fixes := hfixes
      mirrors := hm
      spares := hgrows.spares hbuilt hspares
      grows := hbuilt }
  refine ⟨⟨u, (g.buildAll ds).1, fun r' => ⟨fun h => ?_, fun ⟨r, h⟩ => ?_⟩, fun r =>
    ⟨hkeeps.exists_abreast_of_runs, fun ⟨r', h⟩ => h.runs⟩⟩, fun hsettled => ?_⟩
  · obtain ⟨all, hall, rfl⟩ := (hiff r').mp h
    exact hkeeps.exists_abreast_of_evaluatesAll hall
  · exact (hiff r').mpr h.evaluatesAll
  · rcases host_runs hread hds hsettled with hok | ⟨e, x, log, hruns, hloads, hreps⟩
    · exact .inl hok
    · refine .inr ⟨e, x, log, hruns, hloads, hreps, fun h hunread => ?_⟩
      cases e with
      | unread wanted => exact absurd rfl (hunread wanted)
      | _ => exact Failure.message_loading ..

section Example

variable {w u : World} {name : Text} {frame : FrameId}

theorem lookup_unbound (hname : w.scopes.find? frame name = none) :
    Run.lookup frame name w = .error (.fault (.unbound name)) w := by
  simp [Run.lookup, Run.inScopes, hname]

theorem runs_symbols {bound unbound : Text} {v : Value}
    (hbound : w.scopes.find? World.root bound = some v)
    (hunbound : w.scopes.find? World.root unbound = none) :
    Runs w .nil [.symbol bound, .symbol unbound] (.error (.fault (.unbound unbound)) w) := by
  have hform : w.heap.Unfolds (.symbol bound) (.symbol bound) := rfl
  have hfails : Evaluates w (.symbol unbound) World.root (.error (.fault (.unbound unbound)) w) :=
    lookup_unbound hunbound ▸ .symbol rfl
  exact .next rfl (evaluates_symbol hform hbound) (.fails rfl hfails)

def loadedText : Text := Text.of "*host-language* ; bound by the prelude\nmissing ; not bound"

def loadedForms : List Datum := [.symbol (Text.of "*host-language*"), .symbol (Text.of "missing")]

def loadingCall : Datum := .call (Text.of "load-file") [.string (Text.of "a")]

/-- A session with a call of `load-file`. -/
def loading : World :=
  (start [] true { host := { read := fun _ => .ok loadedText } }).after
    (runSource (Text.of "(def! form (list 'load-file \"a\"))"))

/-- The natives that `load-file` calls. -/
def loadNatives : List Native :=
  [.eval, .operation .readString, .operation .printJoined, .operation .slurp]

set_option maxRecDepth 10000 in
theorem loading_spec :
    let c := loading.globalClosure "load-file"
    loading.scopes.get? World.root (Text.of "load-file") = some (loading.global "load-file") ∧
    loading.heap.callee (loading.global "load-file") = .closure c ∧
    (c.scope = World.root ∧ c.params = [pathName] ∧ c.tail = none ∧ c.isMacro = false ∧
      loading.heap.Unfolds c.body loadFileBody) ∧
    (∀ n ∈ loadNatives, (loading.scopes.get? World.root n.name).map loading.heap.callee =
      some (.native n)) ∧
    loading.heap.Unfolds (loading.global "form") loadingCall ∧
    loading.scopes.find? World.root (Text.of "*host-language*") =
      some (loading.global "*host-language*") ∧
    loading.scopes.find? World.root (Text.of "missing") = none ∧
    loading.host.read (Text.of "a") = .ok loadedText := by
  decide +kernel

theorem hasLoadFile_of_found {f : Value} {c : Closure}
    (hloadFile : w.scopes.get? World.root (Text.of "load-file") = some f)
    (hcallee : w.heap.callee f = .closure c)
    (hclosure : c.scope = World.root ∧ c.params = [pathName] ∧ c.tail = none ∧
      c.isMacro = false ∧ w.heap.Unfolds c.body loadFileBody)
    (hnatives : ∀ n ∈ loadNatives, (w.scopes.get? World.root n.name).map w.heap.callee =
      some (.native n)) : HasLoadFile w := by
  obtain ⟨hscope, hparams, htail, hfunction, hbody⟩ := hclosure
  exact ⟨⟨_, _, hloadFile, hcallee, hscope, htail, hfunction, pathName, _, hparams, hbody,
    read_loadFile⟩, fun n hn => Option.map_eq_some_iff.mp (hnatives n hn)⟩

theorem hasLoadFile_loading : HasLoadFile loading := by
  obtain ⟨hloadFile, hcallee, hclosure, hnatives, _⟩ := loading_spec
  exact hasLoadFile_of_found hloadFile hcallee hclosure hnatives

theorem load_file_abreast_loading :
    Reachable loading ∧ HasLoadFile loading ∧
      loading.heap.Unfolds (loading.global "form") loadingCall ∧
      loading.host.read (Text.of "a") = .ok loadedText ∧
      Datum.readAll loadedText = (loadedForms, none) ∧
      ∃ u, Evaluates loading (loading.global "form") World.root
        (.error (.fault (.unbound (Text.of "missing"))) u) := by
  have hreach : Reachable loading := reachable_run ..
  obtain ⟨_, _, _, _, hform, hbound, hunbound, hfile⟩ := loading_spec
  have hread : Datum.readAll loadedText = (loadedForms, none) := by cbv
  refine ⟨hreach, hasLoadFile_loading, hform, hfile, hread, ?_⟩
  obtain ⟨⟨u, forms, heval, hruns⟩, _⟩ := load_file_abreast loading (loading.global "form")
    (Text.of "a") loadedText loadedForms hreach hasLoadFile_loading hform hfile hread
  obtain ⟨r', habreast⟩ := (hruns _).mp (runs_symbols hbound hunbound)
  obtain ⟨ρ, u', rfl⟩ := habreast.exists_failure
  exact ⟨u', (heval _).mpr ⟨_, habreast⟩⟩

end Example

end Session

end Lisp
