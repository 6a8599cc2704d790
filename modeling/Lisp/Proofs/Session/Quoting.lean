import Lisp.Proofs.Evaluator.Copying
import Lisp.Proofs.Evaluator.Quasiquote
import Lisp.Proofs.Session.Reachable

/-!
Quasiquote fills a template and does nothing else. The holes of the template are evaluated one after
the other, each once; the outcome is the template with the holes replaced by what they gave, and the
first hole that fails ends it. A template without holes is copied.
-/
namespace Lisp

open Evaluator Meaning

/-- All holes are filled in turn, and the value is the template with the holes replaced by the
answers, in new objects; or the holes before one of them are filled, and that one fails. -/
def Template.FillsInTurn (frame : FrameId) (w : World) (t : Template) : Ending Value → Prop
  | .ok v u => ∃ answers, Answered frame w t.holes answers u ∧
      t.IsFilled (· = w.heap) (w.heap.objects.size ≤ ·) u.heap answers v
  | .error e u => Arrives frame w t.holes fun hole x => hole.Ends frame x (.error e u)

section Filling

variable {w u : World} {frame : FrameId} {t : Template} {template v : Value} {r : Ending Value}

variable (hw : w.Ready .all) (hframe : w.Opens .all frame) (hv : w.heap.Has template)
  (ht : t.Describes w.heap template)
include hw hframe hv ht

theorem Template.Describes.outcome (hends : t.Ends frame w r) :
    Outcome w.heap frame Veil.none w t.holes (t.FillsTo w.heap) r :=
  hends.outcome (midway_start hw hframe) (ht.isOver hw.sound.heap.hereditary_has hv)

/-- While the template is kept, what is made of it depends on the answers alone. -/
theorem Template.Describes.fillsInTurn (hloopless : w.heap.IsLoopless template)
    (hends : t.Ends frame w r) (hkept : t.IsKept template w.heap r.world.heap) :
    t.FillsInTurn frame w r := by
  have houtcome := ht.outcome hw hframe hv hends
  cases r with
  | error e u => exact houtcome.2
  | ok v u =>
    obtain ⟨answers, veil, hanswered, hmidway, -, -, hfilled⟩ := houtcome
    have hcarries : Carries (· ∈ t.keys) (w.heap.IsBetween u.heap) veil.object u.heap
        (· = w.heap) (w.heap.objects.size ≤ ·) u.heap :=
      { address := hmidway.new
        object := fun _ _ _ ho => ho
        items := fun _ _ _ _ => rfl
        equal := fun g hg => ⟨w.heap, rfl, fun k l hk hl =>
          (hkept.equal_eq ht hw.sound.heap hv hloopless hg hk hl).symm⟩ }
    exact ⟨answers, hanswered, hfilled.carried hcarries fun _ hkey => hkey⟩

/-- While the template is kept, evaluation ends as the filling of the tree does. -/
theorem Template.Describes.evaluates_iff {form : Value}
    (hform : IsSpecial w.heap form .quasiquote [template])
    (hkept : t.IsKept template w.heap r.world.heap) :
    Evaluates w form frame r ↔ t.Ends frame w r := by
  have hover : t.IsOver (Value.IsBelow w.heap.objects.size) :=
    ht.isOver hw.sound.heap.hereditary_has hv
  have hagree := fun hprecedes => ht.agree hkept.describes (midway_start hw hframe) hprecedes hv
    hover r (.refl _)
  rw [evaluates_quasiquote_iff hform]
  refine ⟨fun hfills => (hagree ?_).mp hfills, fun hends => (hagree ?_).mpr hends⟩
  · refine Eventually.precedes hfills.runs fun b => ?_
    have hmirrored : IsMirrored .identity w.heap b.eval := isMirrored_eval b.limit b.depth
    exact (mirrored_fill hmirrored frame b.steps template).grows w
  · exact (ht.outcome hw hframe hv hends).precedes

omit hframe in
/-- What only makes values keeps the template. -/
theorem Template.Describes.isKept (hmakes : w.MakesOnly u) : t.IsKept template w.heap u.heap := by
  have hsound := hw.sound.heap
  have hagree := hmakes.heap.agreesOn hsound hmakes.heap.precedes (.refl u.heap)
  refine ⟨ht.of_agreesOn hagree hsound.hereditary_has hv, fun key hkey x cell hx hcell => ?_⟩
  have hkeys := (ht.isOver hsound.hereditary_has hv).keys
  exact hagree.items x cell (hsound.hereditary_has.reached (hkeys key hkey) hx) hcell

/-- A template without holes is filled with nothing done but that values are made. -/
theorem Template.Describes.exists_made (hnone : t.holes = []) :
    ∃ v u, t.Ends frame w (.ok v u) ∧ w.MakesOnly u := by
  have hnowhere : ∀ p, ¬ Arrives frame w t.holes p := by
    rintro p ⟨before, hole, after, _, _, hholes, _⟩
    simp [hnone] at hholes
  have hover := ht.isOver hw.sound.heap.hereditary_has hv
  rcases Template.exists_ends (midway_start hw hframe) hover with ⟨r, hends⟩ | hstuck
  · have houtcome := ht.outcome hw hframe hv hends
    cases r with
    | error e u => exact absurd houtcome.2 (hnowhere _)
    | ok v u =>
      obtain ⟨answers, _, hanswered, _⟩ := houtcome
      rw [hnone] at hanswered
      cases hanswered with
      | nil hmakes => exact ⟨v, u, hends, hmakes⟩
  · exact absurd hstuck (hnowhere _)

/-- What is made of a template without holes is equal to it. -/
theorem Template.Describes.equal_filled (hloopless : w.heap.IsLoopless template)
    (hnone : t.holes = []) (hends : t.Ends frame w (.ok v u)) (hmakes : w.MakesOnly u)
    (hdiffer : w.heap.MapsDiffer template) : u.heap.equal template v = true := by
  have hkept := ht.isKept hw hv hmakes
  obtain ⟨answers, -, hfilled⟩ := ht.fillsInTurn hw hframe hv hloopless hends hkept
  obtain ⟨_, _, _, _, hdeep, _⟩ := ht.outcome hw hframe hv hends
  have hcopyable :=
    hdiffer.isCopyable hw.sound.heap hv hloopless hmakes.heap hdeep.before.notSmaller
  exact (hfilled.isCopy hnone hkept.describes hcopyable .refl).equal

end Filling

namespace Session

/-- A value that is not inside itself is read as a template in one way, and quasiquote fills it:
the holes are evaluated once each and in order, as long as no list of the template is appended to.
-/
theorem quasiquote_fills_template {w : World} (hw : Reachable w) {frame : FrameId}
    (hframe : frame < w.scopes.frames.size) {form template : Value}
    (hform : IsSpecial w.heap form .quasiquote [template])
    (hloopless : w.heap.IsLoopless template) :
    (∃ t : Template, t.Describes w.heap template) ∧
    ∀ t : Template, t.Describes w.heap template →
      (∀ r : Ending Value, r.Settled → t.IsKept template w.heap r.world.heap →
        ((∃ limit depth, Evaluator.eval limit depth form frame w = r) ↔ t.Ends frame w r) ∧
        (t.Ends frame w r → t.FillsInTurn frame w r)) ∧
      ((∃ r, t.Ends frame w r) ∨ GetsStuck frame w t.holes) ∧
      (t.holes = [] → ∃ v u,
        (∃ limit depth, Evaluator.eval limit depth form frame w = .ok v u) ∧ w.MakesOnly u ∧
        (w.heap.MapsDiffer template → u.heap.equal template v = true)) := by
  have hready := hw.ready
  have hopens := opens_all hframe
  have hv : w.heap.Has template := by
    obtain ⟨cell, head, -, hitems, -⟩ := hform
    exact hready.sound.heap.items cell template (by simp [hitems])
  refine ⟨exists_template hloopless, fun t ht => ⟨fun r hr hkept => ⟨?_, fun hends => ?_⟩, ?_, ?_⟩⟩
  · rw [← evaluates_iff_exists_eval hr]
    exact ht.evaluates_iff hready hopens hv hform hkept
  · exact ht.fillsInTurn hready hopens hv hloopless hends hkept
  · exact Template.exists_ends (midway_start hready hopens)
      (ht.isOver hready.sound.heap.hereditary_has hv)
  · intro hnone
    obtain ⟨v, u, hends, hmakes⟩ := ht.exists_made hready hopens hv hnone
    have hkept := ht.isKept hready hv hmakes
    refine ⟨v, u, ?_, hmakes, ht.equal_filled hready hopens hv hloopless hnone hends hmakes⟩
    rw [← evaluates_iff_exists_eval Ending.settled_ok]
    exact (ht.evaluates_iff (r := .ok v u) hready hopens hv hform hkept).mpr hends

/-- A session with a list of two numbers and a form that fills a template with its elements and with
the list itself, after another number has been added to it:
`(quasiquote ((splice-unquote xs) {:k (unquote (conj xs 5))}))`. -/
def quoting : World :=
  (start [] false {}).after (runSource (Text.of "
    (def! xs (list 3 4))
    (def! key :k) (def! added '(conj xs 5)) (def! hole (list 'unquote added))
    (def! elements '(splice-unquote xs)) (def! entry (hash-map key hole))
    (def! template (list elements entry))
    (def! form (list 'quasiquote template))"))

abbrev quoted : Value := quoting.global "template"

abbrev quotation : Run Value := Evaluator.eval 9 9 (quoting.global "form") World.root

/-- What the quotation makes. -/
def unquoted : Value := (quotation.value? quoting).getD .nil

def quotingTemplate : Template :=
  .list (.splice [.symbol (Text.of "xs")]
    (.cons (.map (.cons (quoting.global "key") (.hole [quoting.global "added"]) .nil)) .nil))

set_option maxRecDepth 10000 in
theorem quoting_spec :
    let v := quoting.global
    quotation.value? quoting = some unquoted ∧
    quoting.heap.parts? (v "form") = some (.round, [.symbol Special.quasiquote.name, quoted]) ∧
    quoting.heap.content (v "key") = .keyword (Text.of "k") ∧
    0 < quoting.scopes.frames.size ∧
    (∀ address < quoting.heap.objects.size, ∀ x ∈ quoting.heap.held (.object address),
      x.IsBelow address) ∧
    ∀ g ∈ [quoting.heap, (quoting.after quotation).heap],
      holeForms? .unquote g quoted = none ∧
      g.parts? quoted = some (.round, [v "elements", v "entry"]) ∧
      holeForms? .splice g (v "elements") = some [.symbol (Text.of "xs")] ∧
      holeForms? .splice g (v "entry") = none ∧
      g.content (v "entry") = .map (.ofList [(v "key", v "hole")]) ∧
      holeForms? .unquote g (v "hole") = some [v "added"] := by
  decide +kernel

theorem reachable_quoting : Reachable quoting := reachable_run ..

theorem describes_quoting {g : Heap} (hg : g ∈ [quoting.heap, (quoting.after quotation).heap]) :
    quotingTemplate.Describes g quoted := by
  obtain ⟨-, -, -, -, -, hboth⟩ := quoting_spec
  obtain ⟨hhole, hparts, hsplice, hnone, hmap, hunquote⟩ := hboth g hg
  obtain ⟨cell, hlist, hitems⟩ := Heap.elements_of_parts? hparts
  exact ⟨hhole, cell, hlist, _, _, hitems, hsplice, _, [], rfl, hnone,
    ⟨_, hmap, _, [], by simp, hunquote, rfl⟩, rfl⟩

theorem isKept_quoting {u : Heap} (hu : quotingTemplate.Describes u quoted) :
    quotingTemplate.IsKept quoted quoting.heap u := by
  obtain ⟨-, -, hkey, -⟩ := quoting_spec
  refine ⟨hu, fun key hmem x cell hx hcell => ?_⟩
  have hname : key = quoting.global "key" := by
    simpa [quotingTemplate, Template.keys, TemplateItems.keys, TemplateEntries.keys] using hmem
  rw [← hname] at hkey
  -- a keyword holds nothing, so nothing but the key itself is reached
  rcases Relation.ReflTransGen.cases_head hx with rfl | ⟨y, hy, -⟩
  · rw [hkey] at hcell
    cases hcell
  · rw [Heap.Holds, Heap.held, hkey] at hy
    cases hy

/-- The elements are those that the list had when it was spliced in, and the list itself has the
number that was added to it afterwards. -/
theorem quasiquote_fills_template_quoting :
    Reachable quoting ∧ quoting.heap.IsLoopless quoted ∧
    quotingTemplate.Describes quoting.heap quoted ∧
    quotingTemplate.holes =
      [.splice [.symbol (Text.of "xs")], .unquote [quoting.global "added"]] ∧
    ∃ u, (∃ limit depth, Evaluator.eval limit depth (quoting.global "form") World.root quoting =
        .ok unquoted u) ∧
      quotingTemplate.FillsInTurn World.root quoting (.ok unquoted u) := by
  obtain ⟨hvalue, hparts, -, hframe, holder, -⟩ := quoting_spec
  obtain ⟨cell, hlist, hitems⟩ := Heap.elements_of_parts? hparts
  have hspecial : IsSpecial quoting.heap (quoting.global "form") .quasiquote [quoted] :=
    ⟨cell, _, hlist, hitems, rfl⟩
  have hloopless := Heap.isLoopless_of_older holder quoted
  have hbefore := describes_quoting List.mem_cons_self
  have hafter := describes_quoting (List.mem_cons_of_mem _ List.mem_cons_self)
  have heval := Run.eq_ok_of_value? hvalue
  generalize quoting.after quotation = u at hafter heval
  obtain ⟨-, hfills⟩ := quasiquote_fills_template reachable_quoting hframe hspecial hloopless
  obtain ⟨hends, hturn⟩ := (hfills quotingTemplate hbefore).1 (.ok unquoted u)
    Ending.settled_ok (isKept_quoting hafter)
  exact ⟨reachable_quoting, hloopless, hbefore, rfl, u, ⟨9, 9, heval⟩,
    hturn (hends.mp ⟨9, 9, heval⟩)⟩

end Session

end Lisp
