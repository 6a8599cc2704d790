import Lisp.Proofs.World.Conduct

/-!
Operations behave. The replies of an operation refer only to what its arguments lead to in the heap
it looked at, what it adds to is a list, and what it makes without a cell of its own is no sequence.
-/
namespace Lisp

/-- A reply that refers to what is in the set. -/
def Reply.IsFor (S grow : Value → Prop) (h : Heap) : Reply → Prop
  | .give v | .makeAtom v | .reset _ v | .raise v => S v
  | .make c => c.IsOver S ∧ h.IsKeyed c
  | .makeList items => ∀ v ∈ items.toList, S v
  | .makeVector items metadata => (∀ v ∈ items.toList, S v) ∧ ∀ m, metadata = some m → S m
  | .annotate v metadata => S v ∧ S metadata
  | .append whole cell vs =>
    grow whole ∧ h.content whole = .list cell ∧ S whole ∧ ∀ v ∈ vs, S v
  | .unreadable e => e.IsProper
  | .makeString _ | .build _ | .generate _ | .print _ | .raiseText _ | .want _ => True
  | .crash _ => False

variable {may : World.Licence} {w : World}

theorem Reply.IsFor.imp {S grow allowed : Value → Prop} {h : Heap} {reply : Reply}
    (hreply : reply.IsFor S grow h) (hgrow : ∀ list, grow list → allowed list) :
    reply.IsFor S allowed h := by
  cases reply with
  | append whole cell vs => exact ⟨hgrow whole hreply.1, hreply.2⟩
  | _ => exact hreply

theorem Reply.leads_perform {reply : Reply} (hw : w.Ready may)
    (hreply : reply.IsFor w.heap.Has (may.Allows w.heap) w.heap) :
    Leads may w Gives (reply.perform w) := by
  cases reply with
  | give v => exact leads_pure hreply
  | make c =>
    exact leads_onHeap (f := (·.make c))
      (Heap.makes_make hreply.1.cell?_eq_none hreply.1.hasContent hreply.2)
  | makeString s => exact leads_onHeap (f := (·.makeString s)) (Heap.makes_make rfl trivial trivial)
  | makeList items =>
    exact leads_onHeap (f := (·.makeSequence .list items none))
      (Heap.makes_makeSequence (.inl rfl) hreply fun _ hm => by cases hm)
  | makeVector items metadata =>
    exact leads_onHeap (f := (·.makeSequence .vector items metadata))
      (Heap.makes_makeSequence (.inr rfl) hreply.1 hreply.2)
  | makeAtom v => exact leads_onHeap (f := (·.makeAtom v)) (Heap.makes_makeAtom hreply)
  | annotate v metadata =>
    exact leads_onHeap (f := (·.withMetadata v metadata))
      (Heap.makes_withMetadata hw.sound.heap hreply.2)
  | build d => exact leads_build d
  | append whole cell vs =>
    obtain ⟨hgrow, hlist, hwhole, hvs⟩ := hreply
    have hstep : Heap.Step may.Allows w.scopes.frames.size w.heap (w.heap.append cell vs) :=
      .append vs hgrow hlist hvs
    exact leads_onHeap (f := fun h => (whole, h.append cell vs))
      ⟨.single hstep, hstep.notSmaller.has hwhole⟩
  | reset atom v =>
    have hstep : Heap.Step may.Allows w.scopes.frames.size w.heap (w.heap.reset atom v) :=
      .reset atom v hreply
    exact leads_onHeap (f := fun h => (v, h.reset atom v))
      ⟨.single hstep, hstep.notSmaller.has hreply⟩
  | generate stem => exact ⟨.single (.other rfl rfl), trivial⟩
  | print line =>
    unfold Reply.perform
    dsimp only
    split
    · exact ⟨.single (.other rfl rfl), trivial⟩
    · exact ⟨.refl, trivial⟩
  | raise v => exact leads_throw hreply
  | raiseText s =>
    have hmade : Leads may w Gives (Run.onHeap (·.makeString s) w) :=
      leads_onHeap (Heap.makes_make rfl trivial trivial)
    exact hmade.bind hw fun v u _ _ hv => leads_throw hv
  | unreadable e => exact leads_ofParse hreply
  | want path => exact leads_throw trivial
  | crash e => cases hreply

namespace Answer

/-- The reply, if there is one, is as said. -/
def All (p : Reply → Prop) (answer : Answer) : Prop := ∀ reply, answer = .ok reply → p reply

abbrev IsFor (S grow : Value → Prop) (h : Heap) (answer : Answer) : Prop :=
  All (·.IsFor S grow h) answer

section All

variable {p : Reply → Prop} {h : Heap} {name : Text} {args : List Value}

theorem all_ok {reply : Reply} (hreply : p reply) : All p (.ok reply) := by
  rintro _ ⟨⟩
  exact hreply

theorem all_error (f : Fault) : All p (.error f) := by
  rintro _ ⟨⟩

theorem all_bind {α : Type} {x : Except Fault α} {k : α → Answer}
    (hk : ∀ a, x = .ok a → All p (k a)) : All p (x >>= k) := by
  cases x with
  | error f => exact all_error f
  | ok a => exact hk a rfl

theorem all_unary {answer : Value → Answer} (hanswer : ∀ x ∈ args, All p (answer x)) :
    All p (unary name args answer) := by
  rw [unary_eq]
  split
  · exact hanswer _ (by simp)
  · exact all_error _

theorem all_binary {answer : Value → Value → Answer}
    (hanswer : ∀ x ∈ args, ∀ y ∈ args, All p (answer x y)) : All p (binary name args answer) := by
  rw [binary_eq]
  split
  · exact hanswer _ (by simp) _ (by simp)
  · exact all_error _

theorem all_variadic {answer : Value → List Value → Answer}
    (hanswer : ∀ x more, args = x :: more → All p (answer x more)) :
    All p (variadic name args answer) := by
  rw [variadic_eq]
  split
  · exact hanswer _ _ rfl
  · exact all_error _

theorem all_string {wanted : String} {v : Value} {answer : Text → Answer}
    (hanswer : ∀ s, All p (answer s)) : All p (string name h wanted v answer) := by
  unfold string
  split
  · exact hanswer _
  · exact all_error _

theorem all_atom {v : Value} {answer : AtomId → Answer} (hanswer : ∀ cell, All p (answer cell)) :
    All p (atom name h v answer) := by
  unfold atom
  split
  · exact hanswer _
  · exact all_error _

theorem all_print {style : Style} {separator : Text} {answer : Rope → Answer}
    (hanswer : ∀ r, All p (answer r)) : All p (check (h.printAll style separator args) answer) := by
  rw [Heap.printAll_eq, check_ok]
  exact hanswer _

end All

variable {S grow : Value → Prop} {h : Heap} {name : Text}

theorem isFor_ofBool (hclosed : h.IsClosed S) (b : Bool) : IsFor S grow h (.ok (.ofBool b)) :=
  all_ok (hclosed.bool b)

theorem isFor_int (n : Int64) : IsFor S grow h (.ok (.make (.int n))) :=
  all_ok ⟨trivial, trivial⟩

theorem isFor_keyword {v : Value} (hv : S v) : IsFor S grow h (keyword name h v) := by
  unfold keyword
  split
  · exact all_ok hv
  · split <;> exact all_ok ⟨trivial, trivial⟩
  · exact all_error _

theorem isFor_gensym (args : List Value) : IsFor S grow h (gensym name h args) := by
  rw [gensym_eq]
  split
  · exact all_ok trivial
  · exact all_string fun stem => all_ok trivial
  · exact all_error _

theorem isFor_slurp (host : Host) (path : Text) : (slurp host path).IsFor S grow h := by
  unfold slurp
  split <;> trivial

theorem isFor_readString (source : Text) : (readString source).IsFor S grow h := by
  unfold readString
  cases hread : Datum.read source with
  | ok d => trivial
  | error e => exact Datum.isProper_read hread

theorem isFor_errorValue (hclosed : h.IsClosed S) {v : Value} (hv : S v) :
    IsFor S grow h (errorValue name h v) := by
  have henclosed := hclosed.enclosed v hv
  unfold errorValue
  split
  · rename_i payload hpayload
    rw [hpayload] at henclosed
    exact all_ok (henclosed payload (List.mem_singleton_self payload))
  · exact all_error _

end Answer

namespace Arithmetic

open Answer

variable {S grow : Value → Prop} {h : Heap} {name : Text} {args : List Value}

/-- A step gives an integer or is one by zero. -/
def IsGuarded (step : Int64 → Int64 → Except Break Int64) : Prop :=
  ∀ x y c, step x y ≠ .error (.crash c)

theorem isGuarded_ok (int : Int64 → Int64 → Int64) : IsGuarded fun x y => .ok (int x y) :=
  fun _ _ _ => by simp

theorem isGuarded_quotient : IsGuarded quotient := by
  intro x y c
  by_cases hy : y = 0
  · rw [quotient, if_pos hy]
    simp
  · rw [quotient_of_ne hy]
    simp

theorem isGuarded_modulus : IsGuarded modulus := by
  intro x y c
  by_cases hy : y = 0
  · rw [modulus, if_pos hy]
    simp
  · rw [modulus_of_ne hy]
    simp

theorem IsGuarded.foldlM {int : Int64 → Int64 → Except Break Int64} (hint : IsGuarded int)
    (ns : List Int64) (n : Int64) (c : Crash) : ns.foldlM int n ≠ .error (.crash c) := by
  induction ns generalizing n with
  | nil => simp [pure, Except.pure]
  | cons m ms ih =>
    rw [List.foldlM_cons]
    cases hstep : int n m with
    | ok x => exact ih x
    | error e =>
      rintro ⟨⟩
      exact hint n m c hstep

theorem isFor_settle {result : Except Break Int64} (hresult : ∀ c, result ≠ .error (.crash c)) :
    (settle result).IsFor S grow h := by
  unfold settle
  split
  · exact ⟨trivial, trivial⟩
  · trivial
  · exact absurd rfl (hresult _)

theorem isFor_combine {int : Int64 → Int64 → Except Break Int64} (hint : IsGuarded int)
    (float : Float → Float → Float) (first : Numeral) (more : List Numeral) :
    (combine int float first more).IsFor S grow h := by
  unfold combine
  split
  · exact isFor_settle (hint.foldlM _ _)
  · exact ⟨trivial, trivial⟩

theorem isFor_total (empty : Int64) (int : Int64 → Int64 → Int64) (float : Float → Float → Float) :
    IsFor S grow h (total name h empty int float args) := by
  rw [total_eq]
  refine all_bind fun numbers _ => ?_
  cases numbers with
  | nil => exact isFor_int _
  | cons first more => exact all_ok (isFor_combine (isGuarded_ok int) ..)

theorem isFor_difference (unit : Int64) {int : Int64 → Int64 → Except Break Int64}
    (hint : IsGuarded int) (float : Float → Float → Float) :
    IsFor S grow h (difference name h unit int float args) := by
  rw [difference_eq]
  refine all_bind fun numbers _ => ?_
  match numbers with
  | [] => exact all_error _
  | [only] => exact all_ok (isFor_combine hint ..)
  | first :: second :: more => exact all_ok (isFor_combine hint ..)

theorem isFor_modulo (x y : Value) : IsFor S grow h (modulo name h x y) := by
  unfold modulo
  split
  · exact all_ok (isFor_settle (isGuarded_modulus _ _))
  · exact all_error _
  · exact all_error _

theorem isFor_comparison (hclosed : h.IsClosed S) (c : Comparison) :
    IsFor S grow h (comparison name h c args) :=
  all_variadic fun _ _ _ => all_bind fun _ _ => isFor_ofBool hclosed _

end Arithmetic

namespace Collection

open Answer

variable {S grow : Value → Prop} {h : Heap} {name : Text}

theorem sequence_in (hclosed : h.IsClosed S) {v : Value} (hv : S v) {items : Sequence Value}
    (hitems : sequence name h v = .ok items) : ∀ u ∈ items.toList, S u := by
  have hinside := hclosed.items v
  unfold sequence at hitems
  split at hitems
  · rename_i cell heq
    cases hitems
    exact hinside cell hv (by rw [heq]; rfl)
  · rename_i cell heq
    cases hitems
    exact hinside cell hv (by rw [heq]; rfl)
  · cases hitems
    exact fun u hu => by cases hu
  · cases hitems

theorem sequence?_in (hclosed : h.IsClosed S) {v : Value} (hv : S v) {items : Sequence Value}
    (hitems : h.sequence? v = some items) : ∀ u ∈ items.toList, S u := by
  have hinside := hclosed.items v
  unfold Heap.sequence? at hitems
  split at hitems
  · rename_i cell heq
    cases hitems
    exact hinside cell hv (by rw [heq]; rfl)
  · rename_i cell heq
    cases hitems
    exact hinside cell hv (by rw [heq]; rfl)
  · cases hitems

theorem elements_in (hclosed : h.IsClosed S) {v : Value} (hv : S v) {items : List Value}
    (hitems : elements name h v = .ok items) : ∀ u ∈ items, S u := by
  unfold elements at hitems
  cases hsequence : sequence name h v with
  | error f => simp [hsequence, bind, Except.bind] at hitems
  | ok found =>
    rw [hsequence] at hitems
    cases hitems
    exact sequence_in hclosed hv hsequence

theorem elements_eq_ok {v : Value} {items : List Value} (hitems : h.elements? v = some items) :
    elements name h v = .ok items := by
  unfold Heap.elements? Heap.sequence? at hitems
  unfold elements sequence
  cases hcontent : h.content v <;> rw [hcontent] at hitems <;> cases hitems <;> rfl

theorem entries_in (hclosed : h.IsClosed S) {v : Value} (hv : S v) {found : Entries}
    (hfound : entries name h v = .ok found) : Heap.EntriesIn S found := by
  have henclosed := hclosed.enclosed v hv
  unfold entries at hfound
  split at hfound
  · rename_i heq
    cases hfound
    rw [heq] at henclosed
    exact fun entry hentry => ⟨henclosed _ (mem_alternate.mpr ⟨entry, hentry, .inl rfl⟩),
      henclosed _ (mem_alternate.mpr ⟨entry, hentry, .inr rfl⟩)⟩
  · cases hfound
    exact fun entry hentry => by cases hentry
  · cases hfound

theorem entries_isKeyed {v : Value} {found : Entries} (hfound : entries name h v = .ok found) :
    h.IsKeyed (.map found) := by
  have hkeyed := Heap.isKeyed_content (h := h) v
  unfold entries at hfound
  split at hfound
  · rename_i heq
    cases hfound
    rwa [heq] at hkeyed
  · cases hfound
    exact Heap.isKeyed_empty
  · cases hfound

theorem isFor_cons (hclosed : h.IsClosed S) {x coll : Value} (hx : S x) (hcoll : S coll) :
    IsFor S grow h (cons name h x coll) := by
  refine all_bind fun items hitems => all_ok fun v hv => ?_
  rw [Sequence.toList_cons] at hv
  rcases List.mem_cons.mp hv with rfl | hv
  · exact hx
  · exact sequence_in hclosed hcoll hitems v hv

theorem exists_of_mem_mapM {ε α β : Type} {f : α → Except ε β} {xs : List α} {ys : List β}
    (hys : xs.mapM f = .ok ys) {y : β} (hy : y ∈ ys) : ∃ x ∈ xs, f x = .ok y := by
  induction xs generalizing ys with
  | nil =>
    cases hys
    cases hy
  | cons x rest ih =>
    rw [List.mapM_cons] at hys
    cases hfirst : f x with
    | error e => simp [hfirst, bind, Except.bind] at hys
    | ok z =>
      cases hrest : rest.mapM f with
      | error e => simp [hfirst, hrest, bind, Except.bind] at hys
      | ok zs =>
        simp only [hfirst, hrest, bind, Except.bind, pure, Except.pure, Except.ok.injEq] at hys
        rw [← hys] at hy
        rcases List.mem_cons.mp hy with rfl | hmem
        · exact ⟨x, List.mem_cons_self, hfirst⟩
        · obtain ⟨u, hu, hfu⟩ := ih hrest hmem
          exact ⟨u, List.mem_cons_of_mem x hu, hfu⟩

/-- All parts of a concatenation are there, and so is what they are joined to. -/
theorem isFor_concat (hclosed : h.IsClosed S) {args : List Value} (hargs : ∀ v ∈ args, S v) :
    IsFor S grow h (concat name h args) := by
  refine all_bind fun parts hparts => all_ok ?_
  have hall : ∀ part ∈ parts, ∀ v ∈ part.toList, S v := by
    intro part hpart
    obtain ⟨arg, hmem, harg⟩ := exists_of_mem_mapM hparts hpart
    exact sequence_in hclosed (hargs arg hmem) harg
  clear hparts
  suffices hjoin : ∀ before : Sequence Value, (∀ v ∈ before.toList, S v) →
      ∀ v ∈ (parts.foldl .join before).toList, S v from
    hjoin .empty fun v hv => by cases hv
  induction parts with
  | nil => exact fun before hbefore => hbefore
  | cons part rest ih =>
    intro before hbefore
    rw [List.foldl_cons]
    refine ih (fun part hpart => hall part (List.mem_cons_of_mem _ hpart)) _ fun v hv => ?_
    rw [Sequence.toList_join] at hv
    rcases List.mem_append.mp hv with hv | hv
    · exact hbefore v hv
    · exact hall part List.mem_cons_self v hv

/-- The one reply that adds to a list. -/
theorem isFor_conj (hclosed : h.IsClosed S) {coll : Value} {vs : List Value} (hcoll : S coll)
    (hvs : ∀ v ∈ vs, S v) (hgrow : ∀ cell, h.content coll = .list cell → grow coll) :
    IsFor S grow h (conj name h coll vs) := by
  unfold conj
  split
  · rename_i cell hlist
    exact all_ok ⟨hgrow cell hlist, hlist, hcoll, hvs⟩
  · rename_i cell hvector
    refine all_ok ⟨fun v hv => ?_, fun m => hclosed.metadata coll m hcoll⟩
    rw [Sequence.toList_append] at hv
    rcases List.mem_append.mp hv with hv | hv
    · exact hclosed.items coll cell hcoll (by rw [hvector]; rfl) v hv
    · exact hvs v hv
  · refine all_ok fun v hv => ?_
    rw [Sequence.toList_ofList] at hv
    exact hvs v hv
  · exact all_error _

/-- To look for an element never fails, and what is found is an element. -/
theorem exists_nth {α : Type} (xs : Sequence α) (i : Int) :
    ∃ found, xs.nth i = .ok found ∧ ∀ v, found = some v → v ∈ xs.toList := by
  refine ⟨_, xs.nth_eq i, fun v hv => ?_⟩
  split at hv
  · rw [Sequence.get?_eq] at hv
    exact List.mem_of_getElem? hv
  · cases hv

theorem isFor_nth (hclosed : h.IsClosed S) {coll : Value} (hcoll : S coll) (index : Value) :
    IsFor S grow h (nth name h coll index) := by
  unfold nth
  cases hitems : h.sequence? coll with
  | none => exact all_error _
  | some items =>
    dsimp only
    split
    · rename_i i _
      obtain ⟨found, hfound, hmem⟩ := exists_nth items i.toInt
      rw [hfound, check_ok]
      cases found with
      | none => exact all_error _
      | some v => exact all_ok (sequence?_in hclosed hcoll hitems v (hmem v rfl))
    · exact all_error _

theorem isFor_first (hclosed : h.IsClosed S) {coll : Value} (hcoll : S coll) :
    IsFor S grow h (first name h coll) := by
  refine all_bind fun items hitems => ?_
  obtain ⟨found, hfound, hmem⟩ := exists_nth items 0
  rw [hfound, check_ok]
  cases found with
  | none => exact all_ok hclosed.nil
  | some v => exact all_ok (sequence_in hclosed hcoll hitems v (hmem v rfl))

theorem isFor_rest (hclosed : h.IsClosed S) {coll : Value} (hcoll : S coll) :
    IsFor S grow h (rest name h coll) := by
  rw [rest_eq]
  refine all_bind fun items hitems => all_ok fun v hv => ?_
  split at hv
  · cases hv
  · rw [Sequence.toList_drop, Sequence.toList_take] at hv
    exact sequence_in hclosed hcoll hitems v (List.mem_of_mem_take (List.mem_of_mem_drop hv))

theorem isFor_vec (hclosed : h.IsClosed S) {coll : Value} (hcoll : S coll) :
    IsFor S grow h (vec name h coll) :=
  all_bind fun _ hitems => all_ok ⟨sequence_in hclosed hcoll hitems, fun _ hm => by cases hm⟩

theorem isFor_assoc (hclosed : h.IsClosed S) {coll : Value} (hcoll : S coll) {more : List Value}
    (hmore : ∀ v ∈ more, S v) : IsFor S grow h (assoc name h coll more) := by
  unfold assoc
  split
  · exact all_error _
  · exact all_bind fun found hfound =>
      all_ok ⟨(entries_in hclosed hcoll hfound).assoc hmore, (entries_isKeyed hfound).assoc more⟩

theorem isFor_dissoc (hclosed : h.IsClosed S) {coll : Value} (hcoll : S coll)
    (keys : List Value) : IsFor S grow h (dissoc name h coll keys) :=
  all_bind fun _ hfound =>
    all_ok ⟨(entries_in hclosed hcoll hfound).dissoc keys, (entries_isKeyed hfound).dissoc keys⟩

theorem getD_in {found : Entries} (hfound : Heap.EntriesIn S found) (key : Value)
    {fallback : Value} (hfallback : S fallback) : S ((h.get? found key).getD fallback) := by
  cases hentry : h.entry? found key with
  | none =>
    rw [Heap.get?, hentry]
    exact hfallback
  | some entry =>
    rw [Heap.get?, hentry]
    have hmem : entry ∈ found.toList := by
      rw [Heap.entry?, ← Sequence.find?_toList] at hentry
      exact List.mem_of_find?_eq_some hentry
    exact (hfound entry hmem).2

theorem isFor_get (hclosed : h.IsClosed S) {args : List Value} (hargs : ∀ v ∈ args, S v) :
    IsFor S grow h (get name h args) := by
  rw [get_eq]
  dsimp only
  split
  · exact all_bind fun found hfound =>
      all_ok (getD_in (entries_in hclosed (hargs _ (by simp)) hfound) _ hclosed.nil)
  · exact all_bind fun found hfound =>
      all_ok (getD_in (entries_in hclosed (hargs _ (by simp)) hfound) _ (hargs _ (by simp)))
  · exact all_error _

theorem isFor_keys (hclosed : h.IsClosed S) {coll : Value} (hcoll : S coll) :
    IsFor S grow h (keys name h coll) := by
  refine all_bind fun found hfound => all_ok fun v hv => ?_
  rw [Sequence.toList_ofList] at hv
  obtain ⟨entry, hentry, rfl⟩ := List.mem_map.mp hv
  exact (entries_in hclosed hcoll hfound entry hentry).1

theorem isFor_vals (hclosed : h.IsClosed S) {coll : Value} (hcoll : S coll) :
    IsFor S grow h (vals name h coll) := by
  refine all_bind fun found hfound => all_ok fun v hv => ?_
  rw [Sequence.toList_ofList] at hv
  obtain ⟨entry, hentry, rfl⟩ := List.mem_map.mp hv
  exact (entries_in hclosed hcoll hfound entry hentry).2

end Collection

namespace Operation

open Answer

/-- The one operation, on the one kind of argument, that adds to what is there. -/
def AddsTo (op : Operation) (h : Heap) (args : List Value) (coll : Value) (cell : CellId)
    (vs : List Value) : Prop :=
  op = .conj ∧ args = coll :: vs ∧ h.content coll = .list cell

/-- Every operation refers to what is there, and only `conj` on a list adds to it. -/
theorem isFor_answer (host : Host) {h : Heap} {S : Value → Prop} (hclosed : h.IsClosed S)
    (op : Operation) {args : List Value} (hargs : ∀ v ∈ args, S v) :
    IsFor S (fun coll => ∃ cell vs, op.AddsTo h args coll cell vs) h (op.answer host h args) := by
  have hsome : ∀ {v : Value}, v ∈ args → S v := fun hv => hargs _ hv
  cases op with
  | add => exact Arithmetic.isFor_total 0 _ _
  | multiply => exact Arithmetic.isFor_total 1 _ _
  | subtract => exact Arithmetic.isFor_difference 0 (Arithmetic.isGuarded_ok (· - ·)) _
  | divide => exact Arithmetic.isFor_difference 1 Arithmetic.isGuarded_quotient _
  | modulo => exact all_binary fun x _ y _ => Arithmetic.isFor_modulo x y
  | compare c => exact Arithmetic.isFor_comparison hclosed c
  | equal => exact all_variadic fun _ _ _ => isFor_ofBool hclosed _
  | atom => exact all_unary fun v hv => all_ok (hsome hv)
  | deref => exact all_unary fun v _ => all_atom fun cell => all_ok (hclosed.deref cell)
  | reset => exact all_binary fun v _ new hnew => all_atom fun _ => all_ok (hsome hnew)
  | readString => exact all_unary fun v _ => all_string fun s => all_ok (isFor_readString s)
  | slurp => exact all_unary fun v _ => all_string fun path => all_ok (isFor_slurp host path)
  | list =>
    refine all_ok fun v hv => ?_
    rw [Sequence.toList_ofList] at hv
    exact hsome hv
  | vector =>
    refine all_ok ⟨fun v hv => ?_, fun _ hm => by cases hm⟩
    rw [Sequence.toList_ofList] at hv
    exact hsome hv
  | isSequential => exact all_unary fun v _ => isFor_ofBool hclosed _
  | isEmpty => exact all_unary fun v _ => all_bind fun _ _ => isFor_ofBool hclosed _
  | count => exact all_unary fun v _ => all_bind fun _ _ => isFor_int _
  | cons =>
    exact all_binary fun x hx coll hcoll =>
      Collection.isFor_cons hclosed (hsome hx) (hsome hcoll)
  | concat => exact Collection.isFor_concat hclosed hargs
  | conj =>
    refine all_variadic fun coll more hargs' => ?_
    subst hargs'
    exact Collection.isFor_conj hclosed (hsome (by simp)) (fun v hv => hsome (by simp [hv]))
      fun cell hlist => ⟨cell, more, rfl, rfl, hlist⟩
  | nth =>
    exact all_binary fun coll hcoll index _ => Collection.isFor_nth hclosed (hsome hcoll) index
  | first => exact all_unary fun coll hcoll => Collection.isFor_first hclosed (hsome hcoll)
  | rest => exact all_unary fun coll hcoll => Collection.isFor_rest hclosed (hsome hcoll)
  | vec => exact all_unary fun coll hcoll => Collection.isFor_vec hclosed (hsome hcoll)
  | hashMap =>
    unfold answer
    dsimp only
    split
    · exact all_error _
    · exact all_ok ⟨Heap.EntriesIn.entriesOf hargs, Heap.isKeyed_entriesOf args⟩
  | assoc =>
    refine all_variadic fun coll more hargs' => ?_
    subst hargs'
    exact Collection.isFor_assoc hclosed (hsome (by simp)) fun v hv => hsome (by simp [hv])
  | dissoc =>
    refine all_variadic fun coll keys hargs' => ?_
    subst hargs'
    exact Collection.isFor_dissoc hclosed (hsome (by simp)) keys
  | get => exact Collection.isFor_get hclosed hargs
  | contains => exact all_binary fun coll _ key _ => all_bind fun _ _ => isFor_ofBool hclosed _
  | keys => exact all_unary fun coll hcoll => Collection.isFor_keys hclosed (hsome hcoll)
  | vals => exact all_unary fun coll hcoll => Collection.isFor_vals hclosed (hsome hcoll)
  | isKind k => exact all_unary fun v _ => isFor_ofBool hclosed _
  | isTrue => exact all_unary fun v _ => isFor_ofBool hclosed _
  | isFalse => exact all_unary fun v _ => isFor_ofBool hclosed _
  | isNumber => exact all_unary fun v _ => isFor_ofBool hclosed _
  | isFunction => exact all_unary fun v _ => isFor_ofBool hclosed _
  | isMacro => exact all_unary fun v _ => isFor_ofBool hclosed _
  | symbol => exact all_unary fun v _ => all_string fun s => all_ok (hclosed.symbol s)
  | keyword => exact all_unary fun v hv => isFor_keyword (hsome hv)
  | gensym => exact isFor_gensym args
  | metadata =>
    refine all_unary fun v hv => all_ok ?_
    cases hm : h.metadata? v with
    | none => exact hclosed.nil
    | some m => exact hclosed.metadata v m (hsome hv) hm
  | withMetadata =>
    exact all_binary fun v hv metadata hmetadata => all_ok ⟨hsome hv, hsome hmetadata⟩
  | throw => exact all_unary fun v hv => all_ok (hsome hv)
  | error => exact all_unary fun v hv => all_ok ⟨hsome hv, trivial⟩
  | errorValue => exact all_unary fun v hv => isFor_errorValue hclosed (hsome hv)
  | clock =>
    unfold answer
    dsimp only
    split
    · exact all_error _
    · exact isFor_int _
  | printReadably => exact all_print fun _ => all_ok ⟨trivial, trivial⟩
  | printJoined => exact all_print fun _ => all_ok ⟨trivial, trivial⟩
  | writeReadably => exact all_print fun _ => all_ok trivial
  | writeDisplayed => exact all_print fun _ => all_ok trivial

theorem leads_call_allowed (hw : w.Ready may) {op : Operation} {args : List Value}
    (hargs : GivesAll w args)
    (hallows : ∀ coll cell vs, op.AddsTo w.heap args coll cell vs → may.Allows w.heap coll) :
    Leads may w Gives (op.call args w) := by
  have hfor := isFor_answer w.host hw.sound.heap.isClosed op hargs
  unfold call
  cases hanswer : op.answer w.host w.heap args with
  | error f => exact leads_fault f
  | ok reply =>
    exact Reply.leads_perform hw ((hfor reply hanswer).imp fun coll ⟨cell, vs, hadds⟩ =>
      hallows coll cell vs hadds)

theorem leads_call (hw : w.Ready may) {op : Operation} {args : List Value}
    (hargs : GivesAll w args)
    (hgrow : (∃ coll cell vs, op.AddsTo w.heap args coll cell vs) → may.grow) :
    Leads may w Gives (op.call args w) :=
  leads_call_allowed hw hargs fun coll cell vs hadds => .inl (hgrow ⟨coll, cell, vs, hadds⟩)

end Operation

end Lisp
