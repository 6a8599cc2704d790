import Lisp.Proofs.Evaluator.Events
import Lisp.Proofs.Number.Digits
import Lisp.Proofs.Session.Reachable

/-!
Generated symbols. Each has a stem and a number, and the numbers of a run never repeat; but nothing
stands between the two, so digits at the end of a stem can be taken for digits of a number. Two
symbols of a run are the same exactly if the digits that make the later number longer than the
earlier one stand at the end of the earlier stem instead.
-/
namespace Lisp

namespace Text

/-- Texts that end in different numbers are the same if digits of the larger number stand before the
smaller one. -/
theorem append_ofNat_eq_iff {stem other : Text} {m n : Nat} (hlt : m < n) :
    stem ++ ofNat m = other ++ ofNat n ↔
      ∃ digits : Text, digits ≠ [] ∧ stem = other ++ digits ∧ ofNat n = digits ++ ofNat m := by
  constructor
  · intro h
    rcases List.append_eq_append_iff.mp h with ⟨digits, hother, hm⟩ | ⟨digits, hstem, hn⟩
    · have hnumber := congrArg number hm
      rw [number_append, number_ofNat, number_ofNat] at hnumber
      omega
    · refine ⟨digits, ?_, hstem, hn⟩
      rintro rfl
      have hnumber := congrArg number hn
      simp only [List.nil_append, number_ofNat] at hnumber
      omega
  · rintro ⟨digits, _, rfl, hn⟩
    rw [hn, List.append_assoc]

end Text

theorem Heap.equal_symbols (h : Heap) (name other : Text) :
    h.equal (.symbol name) (.symbol other) = true ↔ name = other := by
  have hcontent : ∀ name, h.content (.symbol name) = .symbol name := fun _ => rfl
  by_cases hname : name = other <;>
    simp [Heap.equal, Heap.comparison, Heap.Comparison.ofBool, hcontent, hname]

namespace Operation

/-- The stem that a symbol is generated with. -/
def stem? (h : Heap) : List Value → Option Text
  | [] => some (Text.of "G__")
  | [v] =>
    match h.content v with
    | .string stem => some stem.toList
    | _ => none
  | _ => none

theorem call_gensym_of_stem? {args : List Value} {w : World} {stem : Text}
    (hstem : stem? w.heap args = some stem) :
    gensym.call args w = .ok (.symbol (stem ++ Text.ofNat (w.generated + 1)))
      { w with generated := w.generated + 1 } := by
  rcases args with _ | ⟨v, _ | ⟨_, _⟩⟩
  · cases hstem
    rfl
  · unfold stem? at hstem
    dsimp only at hstem
    split at hstem
    · rename_i rope hcontent
      cases hstem
      simp [call, answer, Answer.gensym_eq, Answer.string, hcontent, Answer.perform, Reply.perform]
    · cases hstem
  · cases hstem

/-- Symbols are generated for stems only. -/
theorem exists_stem_of_call_gensym {args : List Value} {w u : World} {v : Value}
    (hcall : gensym.call args w = .ok v u) : ∃ stem, stem? w.heap args = some stem := by
  rcases args with _ | ⟨x, _ | ⟨_, _⟩⟩
  · exact ⟨_, rfl⟩
  · cases hcontent : w.heap.content x with
    | string stem => exact ⟨stem.toList, by simp [stem?, hcontent]⟩
    | _ =>
      simp [call, answer, Answer.gensym_eq, Answer.string, hcontent, Answer.refuse, Answer.perform]
        at hcall
  · simp [call, answer, Answer.gensym_eq, Answer.perform] at hcall

end Operation

namespace Event

/-- The call generates the symbol with a stem and a number. -/
structure Generates (event : Event) (stem : Text) (number : Nat) : Prop where
  op : event.op = .gensym
  stem : Operation.stem? event.world.heap event.args = some stem
  number : number = event.world.generated + 1

variable {event : Event} {stem : Text} {number : Nat}

theorem Generates.call (h : event.Generates stem number) :
    event.op.call event.args event.world =
      .ok (.symbol (stem ++ Text.ofNat number)) { event.world with generated := number } := by
  rw [h.op, h.number]
  exact Operation.call_gensym_of_stem? h.stem

theorem exists_generates {v : Value} {u : World} (hop : event.op = .gensym)
    (hcall : event.op.call event.args event.world = .ok v u) :
    ∃ stem number, event.Generates stem number := by
  rw [hop] at hcall
  obtain ⟨stem, hstem⟩ := Operation.exists_stem_of_call_gensym hcall
  exact ⟨stem, _, hop, hstem, rfl⟩

theorem Generates.generated_after (h : event.Generates stem number) :
    event.after.generated = number := by
  rw [Event.after, World.after_ok h.call]

end Event

/-- The numbers of symbols grow. -/
theorem Record.pairwise_lt {α : Type} {m : Run α} {w : World} {events : List Event}
    (h : Record m w events) :
    events.Pairwise fun event next => ∀ {stem other : Text} {m n : Nat},
      event.Generates stem m → next.Generates other n → m < n := by
  refine h.ascends.pairwise.imp fun {event next} hle stem other m n hm hn => ?_
  rw [hm.generated_after] at hle
  rw [hn.number]
  exact Nat.lt_succ_of_le hle

namespace Session

open Evaluator Run

section Recorded

theorem evaluate_eq_either (form : Value) :
    evaluate form = (eval form World.root).either pure (noteFailure form) := by
  funext w
  rw [evaluate_eq, Run.either]
  cases eval form World.root w <;> rfl

theorem recorded_evaluate (form : Value) : Recorded (evaluate form) := by
  rw [evaluate_eq_either]
  refine recorded_either (recorded_eval steps depth form World.root) (fun v => recorded_quiet _)
    fun e => ?_
  unfold noteFailure
  exact recorded_quiet _

theorem recorded_evaluateAll (last : Value) (forms : List Datum) :
    Recorded (evaluateAll last forms) := by
  induction forms generalizing last with
  | nil => exact recorded_quiet (pure last)
  | cons d rest ih =>
    refine recorded_bind (recorded_quiet _) fun form => ?_
    exact recorded_bind (recorded_evaluate form) fun v => ih v

theorem recorded_runSource (source : Text) : Recorded (runSource source) := by
  unfold runSource
  obtain ⟨forms, error⟩ := Datum.readAll source
  refine recorded_bind (recorded_evaluateAll .nil forms) fun v => ?_
  cases error with
  | none => exact recorded_quiet (pure v)
  | some e => exact recorded_quiet (throw _)

/-- What the host has at a path. -/
def found (path : Text) : Run (Except FileError Text) := fun w => .ok (w.host.read path) w

instance (path : Text) : Quiet (found path) := ⟨fun _ => rfl⟩

/-- Runs the file that was found. -/
def loadFound (path : Text) : Except FileError Text → Run Value
  | .error .unread => throw (.unread path)
  | .error e => throw (.loading path (.host (e.message path)))
  | .ok source => (runSource source).either pure fun
    | .unread wanted => throw (.unread wanted)
    | e => throw (.loading path e)

theorem load_eq_bind (path : Text) : load path = found path >>= loadFound path := by
  funext w
  have hfound : found path w = .ok (w.host.read path) w := rfl
  rw [bind_ok hfound]
  unfold load loadFound
  cases w.host.read path with
  | error e => cases e <;> rfl
  | ok source =>
    simp only [Run.either]
    cases runSource source w with
    | ok v u => rfl
    | error e u => cases e <;> rfl

theorem recorded_load (path : Text) : Recorded (load path) := by
  rw [load_eq_bind]
  refine recorded_bind (recorded_quiet _) fun file => ?_
  cases file with
  | error e => cases e <;> exact recorded_quiet (throw _)
  | ok source =>
    refine recorded_either (recorded_runSource source) (fun v => recorded_quiet _) fun e => ?_
    cases e <;> exact recorded_quiet (throw _)

instance (source : Text) : Quiet (read source) := by
  unfold read
  cases Datum.read source <;> infer_instance

theorem recorded_perform (request : Request) : Recorded request.perform := by
  cases request with
  | run source => exact recorded_map _ (recorded_runSource source)
  | rep source =>
    exact recorded_map _ (recorded_bind (recorded_runSource source) fun v => recorded_quiet _)
  | load path => exact recorded_map _ (recorded_load path)
  | evaluate form => exact recorded_map _ (recorded_evaluate form)
  | evaluateIn limit depth form frame =>
    exact recorded_map _ (recorded_eval limit depth form frame)
  | call limit depth steps f args => exact recorded_map _ (recorded_apply limit depth steps f args)
  | expand limit depth steps form frame =>
    exact recorded_map _ (recorded_expandAll limit depth steps frame form)
  | names frame =>
    have hquiet : Quiet (Request.names frame).perform := ⟨fun _ => rfl⟩
    exact recorded_quiet _
  | _ => exact recorded_map _ (recorded_quiet _)

instance quiet_install (natives : List Native) : Quiet (install natives) := by
  induction natives with
  | nil => exact quiet_pure ()
  | cons n rest ih => exact quiet_bind _ _

instance quiet_makeStrings (texts : List Text) : Quiet (makeStrings texts) := by
  induction texts with
  | nil => exact quiet_pure []
  | cons s rest ih => exact quiet_bind _ _

theorem recorded_runSources (sources : List String) : Recorded (runSources sources) := by
  induction sources with
  | nil => exact recorded_quiet (pure ())
  | cons source rest ih => exact recorded_bind (recorded_runSource _) fun _ => ih

instance quiet_setUp (args : List Text) : Quiet (setUp args false) := by
  unfold setUp
  generalize Native.all = natives
  simp only [Bool.false_eq_true, if_false]
  infer_instance

theorem recorded_setUp (args : List Text) (withPrelude : Bool) :
    Recorded (setUp args withPrelude) := by
  cases withPrelude with
  | false => exact recorded_quiet _
  | true =>
    unfold setUp
    generalize Native.all = natives
    generalize Prelude.sources = sources
    refine recorded_bind (recorded_quiet _) fun _ => recorded_bind (recorded_quiet _) fun _ => ?_
    refine recorded_bind (recorded_quiet _) fun texts =>
      recorded_bind (recorded_quiet _) fun v => ?_
    exact recorded_bind (recorded_quiet _) fun _ => recorded_runSources sources

end Recorded

/-- Requests, one after the other; a failure does not end the session. -/
def performAll : List Request → Run Unit
  | [] => pure ()
  | request :: rest => request.perform.either (fun _ => performAll rest) fun _ => performAll rest

/-- A whole session. -/
def session (args : List Text) (withPrelude : Bool) (requests : List Request) : Run Unit :=
  (setUp args withPrelude).either (fun _ => performAll requests) fun _ => performAll requests

theorem recorded_performAll (requests : List Request) : Recorded (performAll requests) := by
  induction requests with
  | nil => exact recorded_quiet (pure ())
  | cons request rest ih =>
    exact recorded_either (recorded_perform request) (fun _ => ih) fun _ => ih

theorem recorded_session (args : List Text) (withPrelude : Bool) (requests : List Request) :
    Recorded (session args withPrelude requests) :=
  recorded_either (recorded_setUp args withPrelude) (fun _ => recorded_performAll requests)
    fun _ => recorded_performAll requests

/-- Every session has a record of its calls, and two symbols generated along a record are equal
exactly if the digits that the later number has before those of the earlier one stand at the end of
the earlier stem. The count is meant up to 2^63 calls, where that of the host wraps around. -/
theorem symbols_repeat_only_across_stems (args : List Text) (withPrelude : Bool)
    (requests : List Request) :
    Recorded (session args withPrelude requests) ∧
    ∀ {α : Type} {m : Run α} {w : World} {events : List Event}, Record m w events →
      events.Pairwise fun event next => ∀ (v v' : Value) (u u' : World),
        event.op = .gensym → event.op.call event.args event.world = .ok v u →
        next.op = .gensym → next.op.call next.args next.world = .ok v' u' →
        ∃ (stem other : Text) (number later : Nat),
          event.Generates stem number ∧ next.Generates other later ∧ number < later ∧
          ∀ h : Heap, h.equal v v' = true ↔ ∃ digits : Text, digits ≠ [] ∧ digits.IsDigits ∧
            stem = other ++ digits ∧ Text.ofNat later = digits ++ Text.ofNat number := by
  refine ⟨recorded_session args withPrelude requests, fun hrecord => hrecord.pairwise_lt.imp ?_⟩
  intro event next hlt v v' u u' hop hcall hop' hcall'
  obtain ⟨stem, number, hstem⟩ := Event.exists_generates hop hcall
  obtain ⟨other, later, hother⟩ := Event.exists_generates hop' hcall'
  refine ⟨stem, other, number, later, hstem, hother, hlt hstem hother, fun h => ?_⟩
  rw [hstem.call] at hcall
  rw [hother.call] at hcall'
  cases hcall
  cases hcall'
  rw [Heap.equal_symbols, Text.append_ofNat_eq_iff (hlt hstem hother)]
  constructor
  · rintro ⟨digits, hdigits, hsame, hlater⟩
    refine ⟨digits, hdigits, fun b hb => Text.isDigits_ofNat later b ?_, hsame, hlater⟩
    rw [hlater]
    exact List.mem_append_left _ hb
  · rintro ⟨digits, hdigits, _, hsame, hlater⟩
    exact ⟨digits, hdigits, hsame, hlater⟩

/-- The calls for stems, one after the other; so many symbols were generated before. -/
def generating (w : World) (number : Nat) : List Value → List Event
  | [] => []
  | v :: rest => ⟨.gensym, [v], { w with generated := number }⟩ :: generating w (number + 1) rest

section Mapping

variable (eval : Evaluation) (limit : Nat) {w : World} {f : Value}
  (hf : w.heap.callee f = .native (.operation .gensym))
include hf

theorem apply_gensym (args : List Value) :
    Evaluator.apply eval (limit + 1) f args w = Operation.gensym.call args w ∧
      Record (Evaluator.apply eval (limit + 1) f args) w [⟨.gensym, args, w⟩] := by
  have hlook : Run.look (·.callee f) w = .ok (.native (.operation .gensym)) w := by
    rw [run_look, hf]
  exact ⟨bind_ok hlook, .bind (.quiet (Run.look _) w) hlook (.call .gensym args w)⟩

theorem record_mapItems {items : List Value}
    (hitems : ∀ v ∈ items, (Operation.stem? w.heap [v]).isSome) (number : Nat) :
    Record (mapItems (Evaluator.apply eval (limit + 1)) f items) { w with generated := number }
      (generating w number items) := by
  induction items generalizing number with
  | nil => exact .quiet (pure []) _
  | cons v rest ih =>
    obtain ⟨stem, hstem⟩ := Option.isSome_iff_exists.mp (hitems v List.mem_cons_self)
    obtain ⟨hresult, hfirst⟩ :=
      apply_gensym (w := { w with generated := number }) eval limit hf [v]
    have hcall := Operation.call_gensym_of_stem? (w := { w with generated := number }) hstem
    have hrest := ih (fun x hx => hitems x (List.mem_cons_of_mem v hx)) (number + 1)
    simp only [mapItems]
    exact hfirst.bind (hresult.trans hcall) hrest.bind_quiet

/-- To call `map` with `gensym` on stems is to generate a symbol for each. -/
theorem record_map {mapper coll : Value} {items : List Value}
    (hmapper : w.heap.callee mapper = .native .map) (hcoll : w.heap.elements? coll = some items)
    (hitems : ∀ v ∈ items, (Operation.stem? w.heap [v]).isSome) :
    Record (Evaluator.apply eval (limit + 2) mapper [f, coll]) w
      (generating w w.generated items) := by
  have hlook : Run.look (·.callee mapper) w = .ok (.native .map) w := by rw [run_look, hmapper]
  have helements : Run.require (Collection.elements Native.map.name · coll) w = .ok items w := by
    simp only [run_require, Collection.elements_eq_ok hcoll]
  have hmapped := record_mapItems eval limit hf hitems w.generated
  refine .bind (.quiet (Run.look _) w) hlook ?_
  dsimp only
  rw [invoke_eq]
  exact .bind (.quiet (Run.require _) w) helements hmapped.bind_quiet

end Mapping

theorem exists_event_generating {w : World} {items : List Value} {i : Nat} {v : Value} {stem : Text}
    (hv : items[i]? = some v) (hstem : Operation.stem? w.heap [v] = some stem) (number : Nat) :
    ∃ (event : Event) (u : World), (generating w number items)[i]? = some event ∧
      event.op = .gensym ∧
      event.op.call event.args event.world =
        .ok (.symbol (stem ++ Text.ofNat (number + i + 1))) u := by
  induction items generalizing number i with
  | nil => cases hv
  | cons x rest ih =>
    cases i with
    | zero =>
      cases hv
      have hcall := Operation.call_gensym_of_stem? (w := { w with generated := number }) hstem
      exact ⟨_, _, rfl, rfl, hcall⟩
    | succ i =>
      rw [show number + (i + 1) = number + 1 + i by omega]
      exact ih hv (number + 1)

section Requests

variable {w : World} {events later : List Event}

theorem record_performAll {request : Request} {rest : List Request}
    (hrequest : Record request.perform w events)
    (hrest : Record (performAll rest) (w.after request.perform) later) :
    Record (performAll (request :: rest)) w (events ++ later) := by
  cases hresult : request.perform w with
  | ok response u =>
    rw [World.after_ok hresult] at hrest
    exact .ok hrequest hresult hrest
  | error e u =>
    rw [World.after_error hresult] at hrest
    exact .error hrequest hresult hrest

theorem record_session {args : List Text} {withPrelude : Bool} {requests : List Request}
    (hsetUp : Record (setUp args withPrelude) w events)
    (hrest : Record (performAll requests) (start args withPrelude w) later) :
    Record (session args withPrelude requests) w (events ++ later) := by
  rw [start_eq] at hrest
  cases hresult : setUp args withPrelude w with
  | ok _ u =>
    rw [World.after_ok hresult] at hrest
    exact .ok hsetUp hresult hrest
  | error e u =>
    rw [World.after_error hresult] at hrest
    exact .error hsetUp hresult hrest

end Requests

section Naming

/-- A session without the prelude. -/
def opening : World := start [] false {}

/-- The stems `a1`, nine times `b`, and `a`. -/
def stems : Datum :=
  let b := Datum.string (Text.of "b")
  .group .square (.string (Text.of "a1") :: (List.replicate 9 b ++ [.string (Text.of "a")]))

/-- The session once the vector of stems is built. -/
def naming : World := opening.after (Run.build stems)

def stemItems : List Value := (naming.heap.elements? (opening.heap.build stems).1).getD []

/-- To build the stems and to call `map` with `gensym` on them. -/
def namingRequests : List Request :=
  [.build stems,
    .call 1 1 2 (opening.global "map") [opening.global "gensym", (opening.heap.build stems).1]]

theorem record_naming :
    Record (session [] false namingRequests) {} (generating naming naming.generated stemItems) := by
  have hmap : naming.heap.callee (opening.global "map") = .native .map := by decide +kernel
  have hgensym : naming.heap.callee (opening.global "gensym") =
      .native (.operation .gensym) := by decide +kernel
  have hitems : naming.heap.elements? (opening.heap.build stems).1 = some stemItems := by
    decide +kernel
  have hstems : ∀ v ∈ stemItems, (Operation.stem? naming.heap [v]).isSome := by decide +kernel
  have hbuild : Record (Request.build stems).perform opening [] :=
    .quiet (Response.value <$> Run.build stems) opening
  have hcall := record_map (Evaluator.eval 1 1) 0 hgensym hmap hitems hstems
  have hcalled : Record (performAll namingRequests.tail)
      (opening.after (Request.build stems).perform)
      (generating naming naming.generated stemItems) := by
    rw [show opening.after (Request.build stems).perform = naming from World.after_map ..,
      ← List.append_nil (generating _ _ _)]
    refine record_performAll ?_ (.quiet (pure ()) _)
    rw [Request.perform, ← bind_pure_comp]
    exact hcall.bind_quiet
  have hsession := record_session (.quiet (setUp [] false) {}) (record_performAll hbuild hcalled)
  rwa [List.nil_append, List.nil_append] at hsession

/-- The first and the last of the calls that `map` makes generate the symbol `a11`. -/
theorem symbols_repeat_only_across_stems_naming :
    ∃ (events : List Event) (first last : Event) (u u' : World),
      Record (session [] false namingRequests) {} events ∧
      events[0]? = some first ∧ events[10]? = some last ∧
      first.op.call first.args first.world = .ok (.symbol (Text.of "a11")) u ∧
      last.op.call last.args last.world = .ok (.symbol (Text.of "a11")) u' ∧
      ∃ (stem other : Text) (number later : Nat) (digits : Text),
        first.Generates stem number ∧ last.Generates other later ∧ digits ≠ [] ∧ digits.IsDigits ∧
        stem = other ++ digits ∧ Text.ofNat later = digits ++ Text.ofNat number := by
  have hnumber : naming.generated = 0 := by decide +kernel
  have hstems : ∀ stem i, stemItems[i]?.bind (Operation.stem? naming.heap [·]) = some stem →
      ∃ (event : Event) (u : World),
        (generating naming naming.generated stemItems)[i]? = some event ∧
        event.op = .gensym ∧ event.op.call event.args event.world =
          .ok (.symbol (stem ++ Text.ofNat (i + 1))) u := by
    intro stem i hstem
    obtain ⟨v, hv, hstem⟩ := Option.bind_eq_some_iff.mp hstem
    have hevent := exists_event_generating hv hstem naming.generated
    rwa [show naming.generated + i = i by rw [hnumber, Nat.zero_add]] at hevent
  obtain ⟨first, u, hfirst, hop, hcall⟩ := hstems (Text.of "a1") 0 (by decide +kernel)
  obtain ⟨last, u', hlast, hop', hcall'⟩ := hstems (Text.of "a") 10 (by decide +kernel)
  have hall := (symbols_repeat_only_across_stems [] false namingRequests).2 record_naming
  obtain ⟨hzero, rfl⟩ := List.getElem?_eq_some_iff.mp hfirst
  obtain ⟨hten, rfl⟩ := List.getElem?_eq_some_iff.mp hlast
  obtain ⟨stem, other, number, later, hstem, hother, _, hequal⟩ :=
    List.pairwise_iff_getElem.mp hall 0 10 hzero hten (by omega) _ _ _ _ hop hcall hop' hcall'
  obtain ⟨digits, hdigits⟩ := (hequal {}).mp ((Heap.equal_symbols {} _ _).mpr (by decide))
  exact ⟨_, _, _, u, u', record_naming, hfirst, hlast, hcall, hcall', stem, other, number, later,
    digits, hstem, hother, hdigits⟩

end Naming

end Session

end Lisp
