import Lisp.Proofs.Heap.Tidiness
import Lisp.Proofs.Session.Reachable

/-!
What changes in place. Objects, functions and the elements of vectors are kept for good; a list only
gets more elements at its end, by `conj`. No two objects share a cell, so what is added to one list
is in no other list or vector, and what copies make is apart from what they were made of.
-/
namespace Lisp

namespace World

variable {may : Licence} {w w' : World}

theorem Steps.kept (hsound : w.IsSound) (hsteps : Steps may w w') :
    Heap.Kept (∃ g list, may.Allows g list) w.heap w'.heap := by
  induction hsteps with
  | refl => exact .refl
  | @tail u v hwu hstep ih =>
    refine ih.trans ?_
    cases hstep with
    | heap hheap => exact hheap.kept (hsound.steps hwu).heap
    | other hheap _ => exact hheap ▸ .refl
    | _ => exact .refl

end World

section Copies

open Heap

variable {may : World.Licence} {w w' : World}

theorem Heap.Kept.callee {grow : Prop} {h h' : Heap} (hkept : Kept grow h h') (hsound : h.IsSound)
    {v : Value} (hv : h.Has v) : h'.callee v = h.callee v := by
  have hcontent := hsound.content v
  unfold Heap.callee
  rw [hkept.content hv]
  cases hc : h.content v with
  | native id =>
    rw [hc] at hcontent
    exact congrArg Callee.native (hkept.native id hcontent)
  | closure id =>
    rw [hc] at hcontent
    exact congrArg Callee.closure (hkept.closure id hcontent)
  | _ => rfl

/-- Without leave to add to lists, all elements stay as they are. -/
theorem Heap.Kept.elements? {grow : Prop} {h h' : Heap} (hkept : Kept grow h h') (hgrow : ¬ grow)
    {v : Value} (hv : h.Has v) : h'.elements? v = h.elements? v := by
  rw [elements?_eq, elements?_eq, hkept.content hv]
  cases hc : h.content v with
  | list cell => exact congrArg some (hkept.still hgrow v cell hc)
  | vector cell => exact congrArg some (hkept.vector v cell hc)
  | _ => rfl

/-- `conj` on a list gives the list, with the values behind its elements; whatever else there is has
the elements that it had. -/
theorem conj_list (hsound : w.IsSound) {coll : Value} {cell : CellId}
    (hlist : w.heap.content coll = .list cell) (vs : List Value) :
    ∃ w', Operation.conj.call (coll :: vs) w = .ok coll w' ∧
      w'.heap.elements? coll = some (w.heap.items cell ++ vs) ∧
      ∀ u ≠ coll, w'.heap.elements? u = w.heap.elements? u := by
  have hanswer : Operation.conj.answer w.host w.heap (coll :: vs) = .ok (.append coll cell vs) := by
    simp only [Operation.answer, Answer.variadic_eq, Collection.conj, hlist]
  have hlt : cell < w.heap.cells.size := (hsound.heap.content coll).cell_lt (by rw [hlist]; rfl)
  refine ⟨{ w with heap := w.heap.append cell vs }, ?_, ?_, fun u hu => ?_⟩
  · rw [Operation.call, hanswer]
    rfl
  · rw [elements?_eq]
    change (w.heap.content coll).cell?.map (w.heap.append cell vs).items = _
    rw [hlist, Content.cell?, Option.map_some, items_append, if_pos ⟨rfl, hlt⟩]
  · rw [elements?_eq, elements?_eq]
    change (w.heap.content u).cell?.map (w.heap.append cell vs).items = _
    cases hcell : (w.heap.content u).cell? with
    | none => rfl
    | some other =>
      have hother : ¬ (other = cell ∧ cell < w.heap.cells.size) := by
        rintro ⟨rfl, _⟩
        exact hu (hsound.heap.owner u coll other hcell (by rw [hlist]; rfl))
      rw [Option.map_some, Option.map_some, items_append, if_neg hother]

/-- Replies that make a new object, or none. -/
def Reply.IsNew : Reply → Prop
  | .makeList _ | .makeVector _ _ | .annotate _ _ | .crash _ => True
  | _ => False

theorem Reply.IsNew.perform {reply : Reply} (hnew : reply.IsNew) {r : Value}
    (hresult : reply.perform w = .ok r w') : r = .object w.heap.objects.size := by
  cases reply with
  | makeList items =>
    cases hresult
    rfl
  | makeVector items metadata =>
    cases hresult
    rfl
  | annotate v metadata =>
    cases hresult
    split <;> rfl
  | crash e => cases hresult
  | _ => cases hnew

/-- The operations that copy, and `conj` where it does not add to a list. -/
inductive Operation.Copies (h : Heap) (args : List Value) : Operation → Prop
  | rest : Copies h args .rest
  | withMetadata : Copies h args .withMetadata
  | vec : Copies h args .vec
  | cons : Copies h args .cons
  | concat : Copies h args .concat
  | conj : (∀ coll cell vs, ¬ Operation.conj.AddsTo h args coll cell vs) → Copies h args .conj

theorem Operation.Copies.isNew {op : Operation} {h : Heap} {args : List Value}
    (hcopies : Copies h args op) (host : Host) :
    Answer.All Reply.IsNew (op.answer host h args) := by
  cases hcopies with
  | rest =>
    refine Answer.all_unary fun coll _ => ?_
    rw [Collection.rest_eq]
    exact Answer.all_bind fun items _ => Answer.all_ok trivial
  | withMetadata => exact Answer.all_binary fun v _ metadata _ => Answer.all_ok trivial
  | vec =>
    exact Answer.all_unary fun coll _ => Answer.all_bind fun items _ => Answer.all_ok trivial
  | cons =>
    exact Answer.all_binary fun x _ coll _ =>
      Answer.all_bind fun items _ => Answer.all_ok trivial
  | concat => exact Answer.all_bind fun parts _ => Answer.all_ok trivial
  | conj hadds =>
    refine Answer.all_variadic fun coll vs hargs => ?_
    unfold Collection.conj
    split
    · rename_i cell hlist
      exact absurd ⟨rfl, hargs, hlist⟩ (hadds coll cell vs)
    · exact Answer.all_ok trivial
    · exact Answer.all_ok trivial
    · exact Answer.all_error _

theorem Operation.Copies.fresh {op : Operation} {args : List Value}
    (hcopies : Copies w.heap args op) {r : Value} (hresult : op.call args w = .ok r w') :
    ¬ w.heap.Has r := by
  have hnew := hcopies.isNew w.host
  unfold Operation.call at hresult
  cases hanswer : op.answer w.host w.heap args with
  | error f =>
    rw [hanswer] at hresult
    cases hresult
  | ok reply =>
    rw [hanswer] at hresult
    rw [(hnew reply hanswer).perform hresult]
    exact Nat.lt_irrefl _

end Copies

namespace Session

open World Heap

variable {w w' : World}

theorem elements?_call (hw : w.Ready .all) {op : Operation} {args : List Value}
    (hargs : GivesAll w args) (hadds : ∀ coll cell vs, ¬ op.AddsTo w.heap args coll cell vs)
    {v : Value} (hv : w.heap.Has v) :
    (w.after (op.call args)).heap.elements? v = w.heap.elements? v := by
  have hready : w.Ready ⟨fun _ => True, False, fun _ _ => False⟩ := ⟨hw.sound, hw.root, hw.fresh⟩
  have hleads := Operation.leads_call hready hargs fun ⟨coll, cell, vs, h⟩ => hadds coll cell vs h
  exact (hleads.steps.kept hw.sound).elements? (by rintro ⟨_, _, h | h⟩ <;> exact h) hv

/-- Adding to one value leaves every other as it is. -/
theorem elements?_conj (hw : w.Ready .all) {u v : Value} (hu : w.heap.Has u) (hv : w.heap.Has v)
    (huv : u ≠ v) {vs : List Value} (hvs : GivesAll w vs) :
    (w.after (Operation.conj.call (u :: vs))).heap.elements? v = w.heap.elements? v := by
  cases hc : w.heap.content u with
  | list cell =>
    obtain ⟨w', hresult, _, hothers⟩ := conj_list hw.sound hc vs
    rw [World.after, hresult]
    exact hothers v huv.symm
  | _ =>
    refine elements?_call hw (Evaluator.givesAll_cons.mpr ⟨hu, hvs⟩) ?_ hv
    rintro coll cell more ⟨_, hargs, hlist⟩
    obtain ⟨rfl, rfl⟩ := List.cons.inj hargs
    rw [hc] at hlist
    cases hlist

/-- From here on, what is added to one of the two is not in the other. -/
def Apart (w : World) (u v : Value) : Prop :=
  ∀ w', Later w w' → ∀ vs, (∀ x ∈ vs, w'.heap.Has x) →
    (w'.after (Operation.conj.call (u :: vs))).heap.elements? v = w'.heap.elements? v ∧
    (w'.after (Operation.conj.call (v :: vs))).heap.elements? u = w'.heap.elements? u

theorem apart_of_ne (hw : w.Ready .all) {u v : Value} (hu : w.heap.Has u) (hv : w.heap.Has v)
    (huv : u ≠ v) : Apart w u v := by
  intro w' hlater vs hvs
  have hsteps := hlater.steps hw
  have hready := hw.steps hsteps
  exact ⟨elements?_conj hready (hsteps.has hu) (hsteps.has hv) huv hvs,
    elements?_conj hready (hsteps.has hv) (hsteps.has hu) huv.symm hvs⟩

/-- A new value is apart from all that were there. -/
theorem apart_of_fresh (hw : w.Ready .all) {r : Value}
    (hleads : Leads .all w Gives (.ok r w')) (hfresh : ¬ w.heap.Has r) {u : Value}
    (hu : w.heap.Has u) : u ≠ r ∧ Apart w' u r := by
  obtain ⟨hsteps, hr⟩ := hleads
  have hur : u ≠ r := by
    rintro rfl
    exact hfresh hu
  exact ⟨hur, apart_of_ne (hw.steps hsteps) (World.Steps.has hsteps hu) hr hur⟩

theorem fresh_map (eval : Evaluation) {apply : Application} (happly : Evaluator.Obeys .all apply)
    (steps : Nat) (hw : w.Ready .all) {args : List Value} (hargs : GivesAll w args) :
    Leads .all w (fun _ r => ¬ w.heap.Has r) (Evaluator.invoke eval apply steps .map args w) := by
  match args with
  | [f, coll] =>
    have hitems : Leads .all w GivesAll
        (Run.require (Collection.elements Native.map.name · coll) w) :=
      leads_require fun _ hitems =>
        Collection.elements_in hw.sound.heap.isClosed (hargs coll (by simp)) hitems
    refine hitems.bind hw fun items u hu hwu hitems => ?_
    have hf : u.heap.Has f := hwu.has (hargs f (by simp))
    refine (Evaluator.leads_mapItems happly hu hf hitems).bind hu fun vs x _ hux hvs => ?_
    have hmade : Leads .all x Gives (Run.makeList vs x) := leads_makeList hvs
    refine ⟨hmade.1, fun hr => ?_⟩
    exact Nat.lt_irrefl _ (Nat.lt_of_lt_of_le hr (hwu.trans hux).notSmaller.1.objects)
  | [] => exact leads_fault _
  | [_] => exact leads_fault _
  | _ :: _ :: _ :: _ => exact leads_fault _

/-- `conj` on a list is the only change in place: it changes the elements of that list alone, and
all else about a value stays as it is. -/
theorem conj_alone_mutates {w : World} (hw : Reachable w) :
    (∀ w', Later w w' → ∀ v, w.heap.Has v →
      w'.heap.content v = w.heap.content v ∧ w'.heap.metadata? v = w.heap.metadata? v ∧
      w'.heap.callee v = w.heap.callee v ∧
      (∀ cell, w.heap.content v = .vector cell → w'.heap.elements? v = w.heap.elements? v) ∧
      ∀ cell, w.heap.content v = .list cell →
        ∃ more, w'.heap.elements? v = some (w.heap.items cell ++ more)) ∧
    (∀ u v cell, (w.heap.content u).cell? = some cell → (w.heap.content v).cell? = some cell →
      u = v) ∧
    (∀ coll cell vs, w.heap.content coll = .list cell →
      ∃ w', Operation.conj.call (coll :: vs) w = .ok coll w' ∧
        w'.heap.elements? coll = some (w.heap.items cell ++ vs) ∧
        ∀ u ≠ coll, w'.heap.elements? u = w.heap.elements? u) ∧
    (∀ (op : Operation) (args : List Value), (∀ v ∈ args, w.heap.Has v) →
      (∀ coll cell vs, ¬ op.AddsTo w.heap args coll cell vs) → ∀ v, w.heap.Has v →
      (w.after (op.call args)).heap.elements? v = w.heap.elements? v) ∧
    (∀ (op : Operation) (args : List Value) (r : Value) (w' : World),
      (∀ v ∈ args, w.heap.Has v) → Operation.Copies w.heap args op → op.call args w = .ok r w' →
      ∀ u, w.heap.Has u → u ≠ r ∧ Apart w' u r) ∧
    ∀ (limit depth steps : Nat) (args : List Value) (r : Value) (w' : World),
      (∀ v ∈ args, w.heap.Has v) →
      Evaluator.invoke (Evaluator.eval limit depth)
        (Evaluator.apply (Evaluator.eval limit depth) steps) steps .map args w = .ok r w' →
      ∀ u, w.heap.Has u → u ≠ r ∧ Apart w' u r := by
  have hready := hw.ready
  refine ⟨fun w' hlater v hv => ?_, hready.sound.heap.owner,
    fun coll cell vs hlist => conj_list hready.sound hlist vs,
    fun op args hargs hadds v hv => elements?_call hready hargs hadds hv,
    fun op args r w' hargs hcopies hresult u hu => ?_,
    fun limit depth steps args r w' hargs hresult u hu => ?_⟩
  · have hkept := (hlater.steps hready).kept hready.sound
    refine ⟨hkept.content hv, congrArg Object.metadata (hkept.object v hv),
      hkept.callee hready.sound.heap hv, fun cell hc => ?_, fun cell hc => ?_⟩
    · rw [elements?_eq, elements?_eq, hkept.content hv, hc]
      exact congrArg some (hkept.vector v cell hc)
    · obtain ⟨more, hmore⟩ := hkept.list v cell hc
      refine ⟨more, ?_⟩
      rw [elements?_eq, hkept.content hv, hc, hmore]
      rfl
  · have hleads : Leads .all w Gives (op.call args w) :=
      Operation.leads_call hready hargs fun _ => trivial
    rw [hresult] at hleads
    exact apart_of_fresh hready hleads (hcopies.fresh hresult) hu
  · have heval : Evaluator.Behaves .all (Evaluator.eval limit depth) :=
      Evaluator.behaves_eval (Library.behaves_standard trivial) limit depth
    have happly := Evaluator.obeys_apply (Library.behaves_standard trivial) heval steps
    have hleads := Evaluator.leads_invoke heval happly (Library.behaves_standard trivial) steps .map
      hready hargs
    have hfresh := fresh_map (Evaluator.eval limit depth) happly steps hready hargs
    rw [hresult] at hleads hfresh
    exact apart_of_fresh hready hleads hfresh.2 hu

/-- `(nil true)` -/
def pair : Datum := .group .round [.nil, .bool true]

/-- A list gets longer in place; the rest of it, taken before, stays as it is. -/
theorem conj_alone_mutates_pair :
    let w := (start [] false {}).after (Run.build pair)
    let coll := ((start [] false {}).heap.build pair).1
    (∃ w', Operation.conj.call [coll, .nil] w = .ok coll w' ∧
      w'.heap.elements? coll = some [.nil, .bool true, .nil]) ∧
    (w.after (Operation.rest.call [coll])).heap.elements? (.object w.heap.objects.size) =
      some [.bool true] ∧
    ∀ r w', Operation.rest.call [coll] w = .ok r w' → coll ≠ r ∧ Apart w' coll r := by
  intro w coll
  have hreach : Reachable w := ⟨[], false, {}, rfl, rfl, .single (.build pair)⟩
  have hcoll : w.heap.Has coll := by decide +kernel
  have hlist : w.heap.content coll = .list 1 := by decide +kernel
  have hitems : w.heap.items 1 = [.nil, .bool true] := by decide +kernel
  obtain ⟨_, _, hconj, _, hcopy, _⟩ := conj_alone_mutates hreach
  obtain ⟨w', hresult, helements, _⟩ := hconj coll 1 [.nil] hlist
  rw [hitems] at helements
  refine ⟨⟨w', hresult, helements⟩, by decide +kernel, fun r w' hrest => ?_⟩
  exact hcopy .rest [coll] r w' (by simpa using hcoll) .rest hrest coll hcoll

end Session

end Lisp
