import Lisp.Proofs.Session.Loading

/-!
Files that do not read to their end. A host that loads such a file fails. A call of `load-file`
reads the whole file before it evaluates anything, as the inside of a `do` form, and so it fails
with an error of reading and nothing of the file is evaluated. There are two kinds of files that the
text around them mends: a round closer too many is taken for the end of the `do` form, and a form
that is missing at the end is taken to be the `nil` behind the file. What reads of such a file is
evaluated as if it were the whole.
-/
namespace Lisp.Session

open Meaning

variable {w : World} {path source : Text} {ds : List Datum} {e : ParseError}

theorem runSource_ne_ok (hds : Datum.readAll source = (ds, some e)) (v : Value) (u : World) :
    runSource source w ≠ .ok v u := by
  unfold runSource
  simp only [hds, run_bind]
  cases evaluateAll .nil ds w with
  | ok v' u' => exact fun h => by cases h
  | error f u' => simp

/-- A host never loads a file with an error. -/
theorem load_ne_ok (hread : w.host.read path = .ok source)
    (hds : Datum.readAll source = (ds, some e)) (v : Value) (u : World) :
    load path w ≠ .ok v u := by
  unfold load
  simp only [hread]
  cases hrun : runSource source w with
  | ok v' u' => exact absurd hrun (runSource_ne_ok hds v' u')
  | error f u' => cases f <;> simp

/-- A file that does not read to its end is rejected by a host, and by `load-file` unless it has a
closer too many or lacks a form at its end: then the forms that were read are evaluated. -/
theorem load_file_rejects_unless_mended (w : World) (form : Value) (path source : Text)
    (ds : List Datum) (e : ParseError) (hw : Reachable w) (hload : HasLoadFile w)
    (hform : w.heap.Unfolds form (.call (Text.of "load-file") [.string path]))
    (hread : w.host.read path = .ok source) (hds : Datum.readAll source = (ds, some e)) :
    (∀ v u, load path w ≠ .ok v u) ∧
    ∃ x, GetsText w path source x ∧
      (¬ Datum.HasStrayCloser source ds →
        (∀ d, Datum.readAll (source ++ Text.of "\nnil") ≠ (ds ++ [d], none)) →
        ∃ e', ∀ r, Evaluates w form World.root r ↔ r = .error (.parse e') x) ∧
      (Datum.HasStrayCloser source ds →
        ∃ v u, Run.build (.call Special.sequence.name ds) x = .ok v u ∧
          ∀ r, Evaluates w form World.root r ↔ Evaluates u v World.root r) ∧
      ∀ d, Datum.readAll (source ++ Text.of "\nnil") = (ds ++ [d], none) →
        ∃ v u, Run.build (.call Special.sequence.name (ds ++ [d])) x = .ok v u ∧
          ∀ r, Evaluates w form World.root r ↔ Evaluates u v World.root r := by
  obtain ⟨x, htext, hreads, hfails⟩ := hload.evaluates_read_iff hw.ready hform hread
  refine ⟨load_ne_ok hread hds, x, htext, fun hstray hshort => ?_, fun hstray => ?_,
    fun d hshort => ?_⟩
  · cases hwhole : Datum.read (Text.of "(do " ++ source ++ Text.of "\nnil)") with
    | error e' => exact ⟨e', hfails e' hwhole⟩
    | ok d =>
      obtain ⟨forms, hforms | hforms, _⟩ := Datum.read_wrapped_iff.mp hwhole
      · have hsame : ds = forms := by rw [← hforms.readAll_fst, hds]
        exact absurd (hsame ▸ hforms) hstray
      · obtain ⟨d, rfl⟩ := Datum.exists_of_readAll_nil hds hforms
        exact absurd hforms (hshort d)
  · have hwhole := Datum.read_wrapped_iff.mpr ⟨ds, .inl hstray, rfl⟩
    exact ⟨_, _, rfl, hreads _ _ _ hwhole rfl⟩
  · have hwhole := Datum.read_wrapped_iff.mpr ⟨ds ++ [d], .inr hshort, rfl⟩
    exact ⟨_, _, rfl, hreads _ _ _ hwhole rfl⟩

section Example

def spoiledFile (path : Text) : Text :=
  if path = Text.of "stray" then Text.of ") (" else if path = Text.of "short" then Text.of "1 ^2 '"
  else Text.of "(]"

def spoiledCall (path : String) : Datum := .call (Text.of "load-file") [.string (Text.of path)]

/-- A session with calls of `load-file`. -/
def spoiled : World :=
  (start [] true { host := { read := fun path => .ok (spoiledFile path) } }).after
    (runSource (Text.of "
      (def! stray (list 'load-file \"stray\")) (def! short (list 'load-file \"short\"))
      (def! wrong (list 'load-file \"wrong\"))"))

set_option maxRecDepth 10000 in
theorem spoiled_spec :
    let c := spoiled.globalClosure "load-file"
    spoiled.scopes.get? World.root (Text.of "load-file") = some (spoiled.global "load-file") ∧
    spoiled.heap.callee (spoiled.global "load-file") = .closure c ∧
    (c.scope = World.root ∧ c.params = [pathName] ∧ c.tail = none ∧ c.isMacro = false ∧
      spoiled.heap.Unfolds c.body loadFileBody) ∧
    (∀ n ∈ loadNatives, (spoiled.scopes.get? World.root n.name).map spoiled.heap.callee =
      some (.native n)) ∧
    spoiled.heap.Unfolds (spoiled.global "stray") (spoiledCall "stray") ∧
    spoiled.heap.Unfolds (spoiled.global "short") (spoiledCall "short") ∧
    spoiled.heap.Unfolds (spoiled.global "wrong") (spoiledCall "wrong") ∧
    spoiled.host.read (Text.of "stray") = .ok (Text.of ") (") ∧
    spoiled.host.read (Text.of "short") = .ok (Text.of "1 ^2 '") ∧
    spoiled.host.read (Text.of "wrong") = .ok (Text.of "(]") := by
  decide +kernel

/-- A file with a closer too many is evaluated, so is one that ends in a mark, and one with the
wrong closer is rejected. -/
theorem load_file_rejects_unless_mended_spoiled :
    Reachable spoiled ∧ HasLoadFile spoiled ∧
    (spoiled.heap.Unfolds (spoiled.global "stray") (spoiledCall "stray") ∧
      Datum.readAll (Text.of ") (") = ([], some ⟨⟨1, 1⟩, .unexpectedCloser .round⟩) ∧
      ∃ u, Evaluates spoiled (spoiled.global "stray") World.root (.ok .nil u)) ∧
    (spoiled.heap.Unfolds (spoiled.global "short") (spoiledCall "short") ∧
      Datum.readAll (Text.of "1 ^2 '") = ([.int 1], some ⟨⟨1, 7⟩, .missingForm⟩) ∧
      ∃ x v u, Run.build (.call Special.sequence.name [.int 1, .call (Text.of "with-meta")
          [.call (Text.of "quote") [.nil], .int 2]]) x = .ok v u ∧
        ∀ r, Evaluates spoiled (spoiled.global "short") World.root r ↔ Evaluates u v World.root r) ∧
    (spoiled.heap.Unfolds (spoiled.global "wrong") (spoiledCall "wrong") ∧
      Datum.readAll (Text.of "(]") = ([], some ⟨⟨1, 2⟩, .wrongCloser .square .round⟩) ∧
      ∃ e x, Evaluates spoiled (spoiled.global "wrong") World.root (.error (.parse e) x)) := by
  have hreach : Reachable spoiled := reachable_run ..
  obtain ⟨hloadFile, hcallee, hclosure, hnatives, hstray, hshort, hwrong, hstrayFile, hshortFile,
    hwrongFile⟩ := spoiled_spec
  have hhas := hasLoadFile_of_found hloadFile hcallee hclosure hnatives
  have hstrayText : Datum.readAll (Text.of ") (") =
      ([], some ⟨⟨1, 1⟩, .unexpectedCloser .round⟩) := by cbv
  have hshortText : Datum.readAll (Text.of "1 ^2 '") = ([.int 1], some ⟨⟨1, 7⟩, .missingForm⟩) := by
    cbv
  have hwrongText : Datum.readAll (Text.of "(]") =
      ([], some ⟨⟨1, 2⟩, .wrongCloser .square .round⟩) := by cbv
  refine ⟨hreach, hhas, ⟨hstray, hstrayText, ?_⟩, ⟨hshort, hshortText, ?_⟩, hwrong, hwrongText, ?_⟩
  · obtain ⟨_, x, _, _, hevaluates, _⟩ := load_file_rejects_unless_mended spoiled
      (spoiled.global "stray") (Text.of "stray") (Text.of ") (") [] _ hreach hhas hstray hstrayFile hstrayText
    obtain ⟨v, u, hbuild, hiff⟩ := hevaluates ⟨[], Text.of " (", rfl, rfl, by decide⟩
    cases hbuild
    exact ⟨_, (hiff _).mpr (.sequenceEmpty (isSpecial_build x.heap []).1)⟩
  · obtain ⟨_, x, _, _, _, hevaluates⟩ := load_file_rejects_unless_mended spoiled
      (spoiled.global "short") (Text.of "short") (Text.of "1 ^2 '") _ _ hreach hhas hshort hshortFile hshortText
    exact ⟨x, hevaluates _ (by cbv)⟩
  · obtain ⟨_, x, _, hrejects, _⟩ := load_file_rejects_unless_mended spoiled
      (spoiled.global "wrong") (Text.of "wrong") (Text.of "(]") [] _ hreach hhas hwrong hwrongFile hwrongText
    have hnone : ¬ Datum.HasStrayCloser (Text.of "(]") [] := by
      rintro ⟨front, back, hsplit, _⟩
      have hmem : Bracket.round.closer ∈ Text.of "(]" := by simp [hsplit]
      exact absurd hmem (by decide)
    have hnil : Datum.readAll (Text.of "(]" ++ Text.of "\nnil") =
        ([], some ⟨⟨1, 2⟩, .wrongCloser .square .round⟩) := by cbv
    obtain ⟨e, hiff⟩ := hrejects hnone (by simp [hnil])
    exact ⟨e, x, (hiff _).mpr rfl⟩

end Example

end Lisp.Session
