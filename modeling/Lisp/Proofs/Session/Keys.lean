import Lisp.Proofs.Session.Mutation

/-!
The keys of maps over a session. A key gets into a map only when it differs from the keys that are
there, but a list inside a key can grow later: then two keys of one map may be equal, and equality
of maps may depend on the side. As long as no list inside a key grows, the keys of every map differ,
no map is reached from one of its own keys, and equality is symmetric.
-/
namespace Lisp

/-- To bind names in all frames, and to add to lists that are not inside a key. -/
def World.Licence.sparing : World.Licence := ⟨fun _ => True, False, fun h list => ¬ h.InKey list⟩

theorem World.Steps.isTidy {w w' : World} (hsound : w.IsSound) (htidy : w.heap.IsTidy)
    (hsteps : Steps .sparing w w') : w'.heap.IsTidy := by
  induction hsteps with
  | refl => exact htidy
  | @tail u v hwu hstep ih =>
    cases hstep with
    | heap hheap =>
      exact ih.step (hsound.steps hwu).heap (fun list hlist => hlist.resolve_left id) hheap
    | other hheap _ => exact hheap ▸ ih
    | _ => exact ih

theorem Heap.append_nil (h : Heap) (cell : CellId) : h.append cell [] = h := by
  have hcells : h.cells.modify cell (·.append []) = h.cells := by
    apply Array.ext <;> simp [Array.getElem_modify, Sequence.append_nil]
  rw [append, hcells]

/-- To add nothing to a list leaves everything as it is. -/
theorem Operation.call_conj_nil {w : World} {coll : Value} {cell : CellId}
    (hlist : w.heap.content coll = .list cell) : Operation.conj.call [coll] w = .ok coll w := by
  simp [call, answer, Answer.variadic_eq, Collection.conj, hlist, Answer.perform, Reply.perform,
    Run.onHeap, Heap.append_nil]

open Classical in
/-- The natives, but for a `conj` that would add elements to a list inside a key: it stops. -/
@[reducible] noncomputable def Library.sparing : Library where
  call op args := fun w =>
    match op, args with
    | .conj, coll :: v :: vs =>
      if (∃ cell, w.heap.content coll = .list cell) ∧ w.heap.InKey coll then .error .exhausted w
      else Operation.conj.call (coll :: v :: vs) w
    | op, args => op.call args w

theorem Library.behaves_sparing : Library.sparing.Behaves .sparing := by
  intro w op args hw hargs
  unfold Library.sparing Library.call
  dsimp only
  split
  · split
    · exact leads_exhausted
    · rename_i hspares
      refine Operation.leads_call_allowed hw hargs fun coll cell vs hadds => .inr fun hkey => ?_
      obtain ⟨_, hsame, hlist⟩ := hadds
      cases hsame
      exact hspares ⟨⟨cell, hlist⟩, hkey⟩
  · rename_i hother
    by_cases hnothing : ∃ coll cell, op.AddsTo w.heap args coll cell []
    · obtain ⟨coll, cell, rfl, rfl, hlist⟩ := hnothing
      rw [Operation.call_conj_nil hlist]
      exact leads_pure (hargs coll List.mem_cons_self)
    · refine Operation.leads_call_allowed hw hargs fun coll cell vs hadds => ?_
      cases vs with
      | nil => exact absurd ⟨coll, cell, hadds⟩ hnothing
      | cons v vs => exact absurd hadds.2.1 (hother coll v vs hadds.1)

namespace Session

open World Evaluator

/-- The world is one that a session gets to if it stops wherever it would add to a list inside a
key. A session that never does so is not stopped. -/
def CalmlyReached (w : World) : Prop := @Reachable Library.sparing w

theorem CalmlyReached.isTidy {w : World} (hw : CalmlyReached w) :
    w.heap.IsSound ∧ w.heap.IsTidy := by
  obtain ⟨origin, hempty, hready, hsteps⟩ :=
    @Reachable.exists_origin_of_behaves _ .sparing Library.behaves_sparing (fun _ => trivial) _ hw
  exact ⟨(hready.sound.steps hsteps).heap,
    hsteps.isTidy hready.sound (hempty ▸ Heap.isTidy_empty)⟩

/-- As long as no list inside a key is added to, a map has as many keys as values, no two of its
keys are equal, so that under each key its own value is found, and `=` is symmetric. -/
theorem keys_differ_unless_grown {w : World} (hw : CalmlyReached w) :
    (∀ v entries, w.heap.content v = .map entries → ∃ keys vals : List Value,
      Operation.keys.answer w.host w.heap [v] = .ok (.makeList (.ofList keys)) ∧
      Operation.vals.answer w.host w.heap [v] = .ok (.makeList (.ofList vals)) ∧
      keys.length = vals.length ∧
      (keys.Pairwise fun key later => w.heap.equal key later = false) ∧
      ∀ entry ∈ keys.zip vals, w.heap.get? entries entry.1 = some entry.2) ∧
    ∀ a b, Operation.equal.call [a, b] w = Operation.equal.call [b, a] w := by
  obtain ⟨hsound, htidy⟩ := hw.isTidy
  refine ⟨fun v entries hv => ?_, fun a b => ?_⟩
  · have hdiffer := htidy.differ v entries hv
    refine ⟨entries.toList.map (·.1), entries.toList.map (·.2), ?_, ?_, by simp,
      by rw [List.pairwise_map]; exact hdiffer, fun entry hentry => ?_⟩
    · simp only [Operation.answer, Answer.unary_eq, Collection.keys, Collection.entries, hv]
      rfl
    · simp only [Operation.answer, Answer.unary_eq, Collection.vals, Collection.entries, hv]
      rfl
    · rw [List.zip_map', List.map_id'] at hentry
      exact hdiffer.get? hentry
  · simp only [Operation.call, Operation.answer, Answer.variadic_eq, Arithmetic.chain,
      Heap.equal_comm hsound.isGrounded htidy a b]

section Calm

/-- Without the prelude nothing is evaluated at the start. -/
theorem calmlyReached_start (args : List Text) : CalmlyReached (start args false {}) := by
  refine ⟨args, false, {}, rfl, rfl, ?_⟩
  simp only [start, setUp, Bool.false_eq_true, if_false]
  exact .refl

/-- A session goes on calmly with a request that is not stopped. -/
theorem CalmlyReached.after {w : World} (hw : CalmlyReached w) (request : Request)
    (hrequest : request.IsFor w)
    (hheap : (w.after request.perform).heap =
      (w.after (@Request.perform Library.sparing request)).heap)
    (hscopes : (w.after request.perform).scopes =
      (w.after (@Request.perform Library.sparing request)).scopes) :
    CalmlyReached (w.after request.perform) := by
  obtain ⟨args, withPrelude, unused, hempty, hnone, hlater⟩ := hw
  exact ⟨args, withPrelude, unused, hempty, hnone,
    (hlater.tail (@Action.request .sparing _ request hrequest)).tail
      (@Action.host .sparing _ _ hheap hscopes)⟩

/-- To add to a list that is not inside a key is not stopped. -/
theorem CalmlyReached.conj {w : World} (hw : CalmlyReached w) {f coll v : Value} {vs : List Value}
    (hf : w.heap.callee f = .native (.operation .conj)) (hkey : ¬ w.heap.InKey coll)
    (hargs : ∀ u ∈ f :: coll :: v :: vs, w.heap.Has u) (limit depth steps : Nat) :
    CalmlyReached (w.after (Request.call limit depth (steps + 1) f (coll :: v :: vs)).perform) := by
  have hcall : ∀ library : Library,
      w.after (@Request.perform library (.call limit depth (steps + 1) f (coll :: v :: vs))) =
        w.after (library.call .conj (coll :: v :: vs)) := by
    intro library
    have hlook : Run.look (·.callee f) w = .ok (.native (.operation .conj)) w := by
      rw [← hf]
      rfl
    have hresult : Evaluator.apply (Evaluator.eval limit depth) (steps + 1) f (coll :: v :: vs) w =
        library.call .conj (coll :: v :: vs) w := bind_ok hlook
    rw [Request.perform, World.after_map, World.after, hresult, World.after]
  have hspares : w.after (Library.sparing.call .conj (coll :: v :: vs)) =
      w.after (Operation.conj.call (coll :: v :: vs)) := by
    have hresult : Library.sparing.call .conj (coll :: v :: vs) w =
        Operation.conj.call (coll :: v :: vs) w := if_neg fun hin => hkey hin.2
    rw [World.after, hresult, World.after]
  refine hw.after _ ⟨hargs f (by simp), fun u hu => hargs u (List.mem_cons_of_mem f hu)⟩ ?_ ?_
  · rw [hcall, hcall, hspares]
    rfl
  · rw [hcall, hcall, hspares]
    rfl

end Calm

/-- A list, and two maps with the same entries in one order and in the other. -/
def mirrored : Text :=
  Text.of "(def! a (list nil)) (def! m (hash-map (list nil) true nil false))" ++
    Text.of "(def! n (hash-map nil false (list nil) true))"

/-- The session in which they are made. -/
def mirroring : World := (start [] false {}).after (Request.run mirrored).perform

/-- Then the list, which is in no key, is added to. -/
def mirror : World :=
  mirroring.after (Request.call 1 1 1 (mirroring.global "conj")
    [mirroring.global "a", .bool true]).perform

set_option maxRecDepth 10000 in
/-- The two maps are equal from both sides, and the keys of the first differ. -/
theorem keys_differ_unless_grown_mirror :
    mirror.heap.elements? (mirror.global "a") = some [.nil, .bool true] ∧
    (∃ keys vals : List Value,
      Operation.keys.answer mirror.host mirror.heap [mirror.global "m"] =
        .ok (.makeList (.ofList keys)) ∧
      keys.length = vals.length ∧
      keys.Pairwise fun key later => mirror.heap.equal key later = false) ∧
    mirror.heap.equal (mirror.global "m") (mirror.global "n") = true ∧
    Operation.equal.call [mirror.global "m", mirror.global "n"] mirror =
      Operation.equal.call [mirror.global "n", mirror.global "m"] mirror := by
  obtain ⟨hheap, hscopes⟩ : mirroring.heap = ((start [] false {}).after
        (@Request.perform Library.sparing (.run mirrored))).heap ∧
      mirroring.scopes = ((start [] false {}).after
        (@Request.perform Library.sparing (.run mirrored))).scopes := by decide +kernel
  have hmirroring : CalmlyReached mirroring :=
    (calmlyReached_start []).after (.run mirrored) trivial hheap hscopes
  obtain ⟨halone, hcallee, hargs⟩ : (∀ address < mirroring.heap.objects.size,
        mirroring.global "a" ∉ mirroring.heap.held (.object address)) ∧
      mirroring.heap.callee (mirroring.global "conj") = .native (.operation .conj) ∧
      ∀ v ∈ [mirroring.global "conj", mirroring.global "a", .bool true], mirroring.heap.Has v := by
    decide +kernel
  have houtside : ¬ mirroring.heap.InKey (mirroring.global "a") := by
    refine Heap.not_inKey_of_not_holds fun v hholds => ?_
    obtain ⟨address, hlt, rfl⟩ := Heap.exists_object_of_holds hholds
    exact halone address hlt hholds
  have hreach : CalmlyReached mirror := hmirroring.conj hcallee houtside hargs 1 1 0
  obtain ⟨hlist, hmap, hequal⟩ :
      mirror.heap.elements? (mirror.global "a") = some [.nil, .bool true] ∧
      mirror.heap.content (mirror.global "m") =
        .map ((Collection.entries [] mirror.heap (mirror.global "m")).toOption.getD .empty) ∧
      mirror.heap.equal (mirror.global "m") (mirror.global "n") = true := by decide +kernel
  obtain ⟨hkeys, hsymm⟩ := keys_differ_unless_grown hreach
  obtain ⟨keys, vals, hanswer, _, hlength, hdiffer, _⟩ := hkeys _ _ hmap
  exact ⟨hlist, ⟨keys, vals, hanswer, hlength, hdiffer⟩, hequal, hsymm _ _⟩

/-- A list is a key of the map `m` before it grows to be equal to the other key. -/
def growing : Text :=
  Text.of "(def! a (list)) (def! m (hash-map a 1 (list 1) 1))" ++
    Text.of "(def! n (hash-map (list 1) 1 (list 2) 1)) (conj a 1)"

set_option maxRecDepth 10000 in
/-- Once a list inside a key has grown, two keys of a map can be equal, and a map can be equal to
another from one side only. -/
theorem grown_key_breaks_symmetry :
    let w := (start [] false {}).after (runSource growing)
    Reachable w ∧ ∃ m n entries, w.scopes.get? World.root (Text.of "m") = some m ∧
      w.scopes.get? World.root (Text.of "n") = some n ∧ w.heap.content m = .map entries ∧
      ¬ w.heap.KeysDiffer entries ∧ w.heap.equal m n = true ∧ w.heap.equal n m = false := by
  intro w
  refine ⟨reachable_run .., w.global "m", w.global "n",
    (Collection.entries [] w.heap (w.global "m")).toOption.getD .empty, ?_⟩
  decide +kernel

end Session

end Lisp
