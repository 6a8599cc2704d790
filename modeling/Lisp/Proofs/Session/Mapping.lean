import Lisp.Proofs.Session.Mutation
import Lisp.Proofs.Session.Parameters

/-!
The native `map`. The elements are read once, before the first call; whatever the function then adds
to the list or to others, it is called once on each of these elements, from left to right, and on
nothing else. The results make a new list, which shares its cell with no other value. The first call
that fails is the last one.
-/
namespace Lisp.Evaluator

open Meaning Ending Session

variable {w u x : World} {f mapper coll r : Value} {items vs : List Value}

/-- The function is called on each of the values, from left to right, with the results in the same
order. Every call starts in the world that the one before has left. -/
inductive CallsEach (f : Value) : World → List Value → List Value → World → Prop
  | nil {w : World} : CallsEach f w [] [] w
  | cons {w u x : World} {item v : Value} {items vs : List Value} :
    Applies w f [item] (.ok v u) → CallsEach f u items vs x →
    CallsEach f w (item :: items) (v :: vs) x

theorem CallsEach.length_eq (hcalls : CallsEach f w items vs x) : vs.length = items.length := by
  induction hcalls with
  | nil => rfl
  | cons _ _ ih => rw [List.length_cons, List.length_cons, ih]

/-- The function is called on each of the values, or on those in front of one on which it fails. -/
def MapsTo (f : Value) (w : World) (items : List Value) : Ending (List Value) → Prop
  | .ok vs x => CallsEach f w items vs x
  | .error e u => ∃ before item after vs x, items = before ++ item :: after ∧
      CallsEach f w before vs x ∧ Applies x f [item] (.error e u)

section Calling

theorem mapsTo_of_maps {r : Ending (List Value)} (hmaps : Maps w f items r) :
    MapsTo f w items r := by
  induction items generalizing w r with
  | nil =>
    cases hmaps
    exact .nil
  | cons item items ih =>
    cases hmaps with
    | fails hcall => exact ⟨[], item, items, [], w, rfl, .nil, hcall⟩
    | @cons _ u _ _ v _ rest hcall hrest =>
      have hmapsTo := ih hrest
      cases rest with
      | ok vs x => exact .cons hcall hmapsTo
      | error e y =>
        obtain ⟨before, failing, after, vs, x, rfl, hcalls, hfails⟩ := hmapsTo
        exact ⟨item :: before, failing, after, v :: vs, x, rfl, .cons hcall hcalls, hfails⟩

theorem maps_of_callsEach (hcalls : CallsEach f w items vs x) : Maps w f items (.ok vs x) := by
  induction hcalls with
  | nil => exact .nil
  | cons hcall _ ih => exact .cons hcall ih

theorem maps_of_fails {before after : List Value} {item : Value} {e : Failure}
    (hcalls : CallsEach f w before vs x) (hfails : Applies x f [item] (.error e u)) :
    Maps w f (before ++ item :: after) (.error e u) := by
  induction hcalls with
  | nil => exact .fails hfails
  | cons hcall _ ih => exact .cons hcall (ih hfails)

theorem maps_iff {r : Ending (List Value)} : Maps w f items r ↔ MapsTo f w items r := by
  refine ⟨mapsTo_of_maps, fun hmaps => ?_⟩
  cases r with
  | ok vs x => exact maps_of_callsEach hmaps
  | error e u =>
    obtain ⟨before, item, after, vs, x, rfl, hcalls, hfails⟩ := hmaps
    exact maps_of_fails hcalls hfails

/-- A call of the native ends as the calls of the function do, and lists what they give. -/
theorem applies_map_iff (hmapper : w.heap.callee mapper = .native .map)
    (hcoll : w.heap.elements? coll = some items) {r : Ending Value} :
    Applies w mapper [f, coll] r ↔ ∃ s, Maps w f items s ∧ r = s.andThen Run.makeList := by
  have helements : Collection.elements Native.map.name w.heap coll = .ok items :=
    Collection.elements_eq_ok hcoll
  constructor
  · intro h
    cases h with
    | native hn h =>
      cases hmapper.symm.trans hn
      cases h with
      | map hitems h =>
        cases helements.symm.trans hitems
        exact ⟨_, h, rfl⟩
      | mapRefused hitems => cases helements.symm.trans hitems
      | mapArguments hcount => exact absurd rfl hcount
    | closure hc _ _ => cases hmapper.symm.trans hc
    | fails hc _ => cases hmapper.symm.trans hc
    | nothing hnone => cases hmapper.symm.trans hnone
  · rintro ⟨s, hmaps, rfl⟩
    exact .native hmapper (.map helements hmaps)

/-- Calling functions in whatever way, the native calls the function once on each element. -/
theorem mapItems_eq_mapM (call : Application) (f : Value) (items : List Value) :
    mapItems call f items = items.mapM fun item => call f [item] := by
  induction items with
  | nil => rfl
  | cons item items ih => rw [mapItems, List.mapM_cons, ih]

theorem invoke_map (hcoll : w.heap.elements? coll = some items) (eval : Evaluation)
    (call : Application) (steps : Nat) : invoke eval call steps .map [f, coll] w =
      ((items.mapM fun item => call f [item]) >>= Run.makeList) w := by
  simp only [invoke_eq, run_bind, run_require, Collection.elements_eq_ok hcoll, andThen_ok,
    mapItems_eq_mapM]

theorem applies_map_ok_iff (hmapper : w.heap.callee mapper = .native .map)
    (hcoll : w.heap.elements? coll = some items) : Applies w mapper [f, coll] (.ok r u) ↔
      ∃ vs x, CallsEach f w items vs x ∧ Run.makeList vs x = .ok r u := by
  rw [applies_map_iff hmapper hcoll]
  constructor
  · rintro ⟨s, hmaps, hr⟩
    cases s with
    | ok vs x => exact ⟨vs, x, maps_iff.mp hmaps, hr.symm⟩
    | error e x => cases hr
  · rintro ⟨vs, x, hcalls, hmake⟩
    exact ⟨.ok vs x, maps_iff.mpr hcalls, hmake.symm⟩

/-- Making a list does not fail, so that one of the calls has. -/
theorem applies_map_error_iff (hmapper : w.heap.callee mapper = .native .map)
    (hcoll : w.heap.elements? coll = some items) {e : Failure} :
    Applies w mapper [f, coll] (.error e u) ↔ MapsTo f w items (.error e u) := by
  rw [applies_map_iff hmapper hcoll]
  constructor
  · rintro ⟨s, hmaps, hr⟩
    cases s with
    | ok vs x => cases hr
    | error e x =>
      cases hr
      exact maps_iff.mp hmaps
  · exact fun hmaps => ⟨.error e u, maps_iff.mpr hmaps, rfl⟩

end Calling

section Listing

/-- The elements of what is a list or vector are there. -/
theorem givesAll_of_elements? (hw : w.IsSound) (hcoll : w.heap.elements? coll = some items) :
    GivesAll w items := by
  rw [Heap.elements?_eq] at hcoll
  obtain ⟨cell, hcell, rfl⟩ := Option.map_eq_some_iff.mp hcoll
  have hhas : w.heap.Has coll := by
    refine Heap.has_of_content_ne_nil fun hnil => ?_
    rw [hnil] at hcell
    cases hcell
  exact hw.heap.isClosed.items coll cell hhas hcell

/-- After the calls, the function and the results are there. -/
theorem CallsEach.steps (hcalls : CallsEach f w items vs x) (hw : w.Ready .all)
    (hf : w.heap.Has f) (hitems : GivesAll w items) : World.Steps .all w x ∧ GivesAll x vs := by
  induction hcalls with
  | nil => exact ⟨.refl, hitems⟩
  | cons hcall _ ih =>
    obtain ⟨hitem, hitems⟩ := List.forall_mem_cons.mp hitems
    obtain ⟨hstep, hv⟩ := leads_applies hw hf (List.forall_mem_singleton.mpr hitem) hcall
    have hsize := hstep.notSmaller.1
    obtain ⟨hsteps, hvs⟩ := ih (hw.steps hstep) (hsize.has hf) fun v hv => hsize.has (hitems v hv)
    exact ⟨hstep.trans hsteps, List.forall_mem_cons.mpr ⟨hsteps.notSmaller.1.has hv, hvs⟩⟩

/-- The value is a list of the given ones, in a cell that no other value gets hold of. -/
def IsOwnList (u : World) (r : Value) (vs : List Value) : Prop :=
  u.heap.elements? r = some vs ∧ ∃ cell, u.heap.content r = .list cell ∧
    ∀ u', Later u u' → ∀ v, (u'.heap.content v).cell? = some cell → v = r

theorem isOwnList_makeList (hx : x.Ready .all) (hvs : GivesAll x vs)
    (hmake : Run.makeList vs x = .ok r u) : IsOwnList u r vs := by
  obtain ⟨-, -, cell, hlist, -, hitems⟩ := makeList_isNew hmake
  have hleads : Leads .all x Gives (Run.makeList vs x) := leads_makeList hvs
  rw [hmake] at hleads
  have hu : u.Ready .all := hx.steps hleads.1
  refine ⟨by rw [Heap.elements?_eq, hlist, Content.cell?, Option.map_some, hitems], cell, hlist, ?_⟩
  intro u' hlater v hv
  have hsteps := hlater.steps hu
  have hkept : u'.heap.content r = .list cell :=
    ((hsteps.kept hu.sound).content hleads.2).trans hlist
  exact (hu.steps hsteps).sound.heap.owner v r cell hv (by rw [hkept, Content.cell?])

end Listing

/-- `map` calls the function once on each of the elements there are when it is called, from left to
right, and makes a new list of what they give; it fails as the first call that fails. -/
theorem map_works_on_snapshot {w : World} (hw : Reachable w) {mapper f coll : Value}
    {items : List Value} (hmapper : w.heap.callee mapper = .native .map)
    (hcoll : w.heap.elements? coll = some items) (hf : w.heap.Has f) :
    (∀ (eval : Evaluation) (call : Application) (steps : Nat),
      invoke eval call steps .map [f, coll] w =
        ((items.mapM fun item => call f [item]) >>= Run.makeList) w) ∧
    (∀ r u, (∃ limit depth steps,
        apply (eval limit depth) steps mapper [f, coll] w = .ok r u) ↔
      ∃ vs x, CallsEach f w items vs x ∧ vs.length = items.length ∧
        Run.makeList vs x = .ok r u ∧ ¬ x.heap.Has r ∧ IsOwnList u r vs) ∧
    ∀ e u, e ≠ .exhausted → ((∃ limit depth steps,
        apply (eval limit depth) steps mapper [f, coll] w = .error e u) ↔
      ∃ before item after vs x, items = before ++ item :: after ∧ CallsEach f w before vs x ∧
        Applies x f [item] (.error e u)) := by
  have hitems : GivesAll w items := givesAll_of_elements? hw.ready.sound hcoll
  refine ⟨invoke_map hcoll, fun r u => ?_, fun e u he => ?_⟩
  · rw [← applies_iff_exists_apply settled_ok, applies_map_ok_iff hmapper hcoll]
    constructor
    · rintro ⟨vs, x, hcalls, hmake⟩
      obtain ⟨hsteps, hvs⟩ := hcalls.steps hw.ready hf hitems
      exact ⟨vs, x, hcalls, hcalls.length_eq, hmake, (makeList_isNew hmake).2.1,
        isOwnList_makeList (hw.ready.steps hsteps) hvs hmake⟩
    · rintro ⟨vs, x, hcalls, -, hmake, -⟩
      exact ⟨vs, x, hcalls, hmake⟩
  · rw [← applies_iff_exists_apply (settled_error he), applies_map_error_iff hmapper hcoll]
    rfl

/-- A session with a list of one and two, and a function that adds to that list whatever it is
called on, and gives ten more. -/
def mapping : World :=
  (start [] false {}).after (runSource (Text.of "
    (def! one 1) (def! two 2) (def! l (list one two))
    (def! f (fn* (x) (do (conj l x) (+ x 10))))"))

abbrev mapCall : Run Value :=
  apply (eval 9 9) 9 (mapping.global "map") [mapping.global "f", mapping.global "l"]

/-- The session after the function has been mapped over the list. -/
def mapped : World := mapping.after mapCall

def mapResult : Value := (mapCall.value? mapping).getD .nil

def mapResults : List Value := (mapped.heap.elements? mapResult).getD []

set_option maxRecDepth 10000 in
theorem mapping_spec :
    let v := mapping.global
    mapping.heap.callee (v "map") = .native .map ∧
    mapping.heap.elements? (v "l") = some [v "one", v "two"] ∧
    (∀ x ∈ [v "f"], mapping.heap.Has x) ∧ mapCall.value? mapping = some mapResult ∧
    mapped.heap.elements? mapResult = some mapResults ∧
    mapResults.map mapped.heap.content = [.int 11, .int 12] ∧
    mapped.heap.elements? (v "l") = some [v "one", v "two", v "one", v "two"] := by
  decide +kernel

/-- The list has four elements in the end, and the function has been called on two of them. -/
theorem map_works_on_snapshot_mapping :
    let v := mapping.global
    Reachable mapping ∧ mapping.heap.elements? (v "l") = some [v "one", v "two"] ∧
    (∃ x, CallsEach (v "f") mapping [v "one", v "two"] mapResults x ∧ ¬ x.heap.Has mapResult) ∧
    IsOwnList mapped mapResult mapResults ∧
    mapResults.map mapped.heap.content = [.int 11, .int 12] ∧
    mapped.heap.elements? (v "l") = some [v "one", v "two", v "one", v "two"] := by
  intro v
  obtain ⟨hmapper, hcoll, hf, hvalue, hresults, hcontents, hnow⟩ := mapping_spec
  have hreachable : Reachable mapping := reachable_run ..
  obtain ⟨vs, x, hcalls, -, -, hnew, hown⟩ :=
    ((map_works_on_snapshot hreachable hmapper hcoll (hf _ List.mem_cons_self)).2.1 _ mapped).mp
      ⟨9, 9, 9, Run.eq_ok_of_value? hvalue⟩
  have hvs : vs = mapResults := Option.some.inj (hown.1.symm.trans hresults)
  rw [hvs] at hcalls hown
  exact ⟨hreachable, hcoll, ⟨x, hcalls, hnew⟩, hown, hcontents, hnow⟩

end Lisp.Evaluator
