import Lisp.Operation.Answer
import Lisp.Proofs.Operation.Conduct
import Lisp.Proofs.World.Mirror

/-!
Operations do not depend on addresses. In a heap that mirrors another, an operation answers the same
to the same arguments, but for addresses, and what it then does to the world is mirrored.
-/
namespace Lisp

/-- Both fail in the same way, or both succeed with what is alike. -/
inductive Alike {ε α : Type} (R : α → α → Prop) : Except ε α → Except ε α → Prop
  | ok {a a' : α} : R a a' → Alike R (.ok a) (.ok a')
  | error (e : ε) : Alike R (.error e) (.error e)

namespace Alike

variable {ε α β : Type} {R : α → α → Prop} {S : β → β → Prop}

theorem bind {x x' : Except ε α} {f f' : α → Except ε β} (hx : Alike R x x')
    (hf : ∀ a a', R a a' → Alike S (f a) (f' a')) : Alike S (x >>= f) (x' >>= f') := by
  cases hx with
  | ok ha => exact hf _ _ ha
  | error e => exact .error e

theorem exists_alike (htotal : ∀ a, ∃ a', R a a') (x : Except ε α) : ∃ x', Alike R x x' := by
  cases x with
  | error e => exact ⟨_, .error e⟩
  | ok a =>
    obtain ⟨a', ha⟩ := htotal a
    exact ⟨_, .ok ha⟩

theorem mapM {γ : Type} {f f' : γ → Except ε α} {t : γ → γ}
    (hf : ∀ c, Alike R (f c) (f' (t c))) (cs : List γ) :
    Alike (List.Forall₂ R) (cs.mapM f) ((cs.map t).mapM f') := by
  induction cs with
  | nil => exact .ok .nil
  | cons c rest ih =>
    rw [List.map_cons, List.mapM_cons, List.mapM_cons]
    exact (hf c).bind fun a a' ha => ih.bind fun as as' has => .ok (.cons ha has)

end Alike

theorem mirrored_require {α : Type} {ρ : Renaming} {base : Heap} {g : α → α}
    {q q' : Heap → Except Fault α}
    (hq : ∀ {h h' : Heap}, h.Mirrors ρ h' → Alike (fun a a' => a' = g a) (q h) (q' h')) :
    Mirrored ρ base g (Run.require q) (Run.require q') := by
  have htotal : ∀ a, ∃ a', a' = g a := fun a => ⟨g a, rfl⟩
  refine Mirrored.lookAlike (Alike.exists_alike htotal) (fun hh _ => hq hh) fun x x' hx => ?_
  cases hx with
  | ok ha =>
    subst ha
    exact mirrored_pure _
  | error f => exact mirrored_fault f

/-- The same reply but for addresses. -/
inductive Reply.Mirrors (ρ : Renaming) : Reply → Reply → Prop
  | give (v : Value) : Mirrors ρ (.give v) (.give (ρ.value v))
  | make {c c' : Content} : c.Mirrors ρ c' → Mirrors ρ (.make c) (.make c')
  | makeString (s : Text) : Mirrors ρ (.makeString s) (.makeString s)
  | makeList {s t : Sequence Value} : t.toList = s.toList.map ρ.value →
    Mirrors ρ (.makeList s) (.makeList t)
  | makeVector {s t : Sequence Value} (metadata : Option Value) : t.toList = s.toList.map ρ.value →
    Mirrors ρ (.makeVector s metadata) (.makeVector t (metadata.map ρ.value))
  | makeAtom (v : Value) : Mirrors ρ (.makeAtom v) (.makeAtom (ρ.value v))
  | annotate (v metadata : Value) :
    Mirrors ρ (.annotate v metadata) (.annotate (ρ.value v) (ρ.value metadata))
  | build (d : Datum) : Mirrors ρ (.build d) (.build d)
  | append (whole : Value) (cell : CellId) (vs : List Value) :
    Mirrors ρ (.append whole cell vs) (.append (ρ.value whole) (ρ.cell cell) (vs.map ρ.value))
  | reset (atom : AtomId) (v : Value) : Mirrors ρ (.reset atom v) (.reset atom (ρ.value v))
  | generate (stem : Text) : Mirrors ρ (.generate stem) (.generate stem)
  | print {line line' : Rope} : line'.toList = line.toList →
    Mirrors ρ (.print line) (.print line')
  | raise (v : Value) : Mirrors ρ (.raise v) (.raise (ρ.value v))
  | raiseText (s : Text) : Mirrors ρ (.raiseText s) (.raiseText s)
  | unreadable (e : ParseError) : Mirrors ρ (.unreadable e) (.unreadable e)
  | want (path : Text) : Mirrors ρ (.want path) (.want path)
  | crash (c : Crash) : Mirrors ρ (.crash c) (.crash c)

theorem Sequence.exists_map (ρ : Renaming) (s : Sequence Value) :
    ∃ t : Sequence Value, t.toList = s.toList.map ρ.value :=
  ⟨.ofList (s.toList.map ρ.value), Sequence.toList_ofList _⟩

theorem Reply.exists_mirrors (ρ : Renaming) (r : Reply) : ∃ r', r.Mirrors ρ r' := by
  cases r with
  | give v => exact ⟨_, .give v⟩
  | make c =>
    obtain ⟨c', hc⟩ := c.exists_mirrors ρ
    exact ⟨_, .make hc⟩
  | makeString s => exact ⟨_, .makeString s⟩
  | makeList s =>
    obtain ⟨t, ht⟩ := s.exists_map ρ
    exact ⟨_, .makeList ht⟩
  | makeVector s metadata =>
    obtain ⟨t, ht⟩ := s.exists_map ρ
    exact ⟨_, .makeVector metadata ht⟩
  | makeAtom v => exact ⟨_, .makeAtom v⟩
  | annotate v metadata => exact ⟨_, .annotate v metadata⟩
  | build d => exact ⟨_, .build d⟩
  | append whole cell vs => exact ⟨_, .append whole cell vs⟩
  | reset atom v => exact ⟨_, .reset atom v⟩
  | generate stem => exact ⟨_, .generate stem⟩
  | print line => exact ⟨_, .print rfl⟩
  | raise v => exact ⟨_, .raise v⟩
  | raiseText s => exact ⟨_, .raiseText s⟩
  | unreadable e => exact ⟨_, .unreadable e⟩
  | want path => exact ⟨_, .want path⟩
  | crash c => exact ⟨_, .crash c⟩

section Performing

variable {ρ : Renaming} {base : Heap}

theorem mirrored_generate (stem : Text) :
    Mirrored ρ base ρ.value (Reply.generate stem).perform (Reply.generate stem).perform where
  grows w := .refl w.heap
  agree {w w'} hw _ := by
    simp only [Reply.perform, hw.generated]
    exact .ok { hw with generated := rfl }

/-- A line fits on one console if it fits on the other. -/
theorem mirrored_print {line line' : Rope} (hline : line'.toList = line.toList) :
    Mirrored ρ base ρ.value (Reply.print line).perform (Reply.print line').perform := by
  have hsize : line'.size = line.size := by
    rw [← Sequence.length_toList, hline, Sequence.length_toList]
  refine ⟨fun w => ?_, fun {w w'} hw _ => ?_⟩
  · simp only [Run.heapAfter, Reply.perform]
    cases w.console.print? (line.append [Text.newline]) with
    | none => exact .refl w.heap
    | some console => exact .refl w.heap
  · have hwritten : ∀ text : Text, ((w'.console.written.join (line'.append text)).toList =
        (w.console.written.join (line.append text)).toList) := by
      simp [hw.written, hline]
    simp only [Reply.perform, Console.print?, hw.room, Sequence.size_append, hsize]
    cases hroom : w.console.room with
    | none => exact .ok { hw with written := hwritten _, room := rfl }
    | some room =>
      dsimp only
      by_cases hfits : line.size + [Text.newline].length ≤ room
      · simp only [if_pos hfits]
        exact .ok { hw with written := hwritten _, room := rfl }
      · simp only [if_neg hfits]
        exact .error hw

theorem mirrored_ofParse {α : Type} {g : α → α} (e : ParseError) :
    Mirrored ρ base g (throw (.ofParse e)) (throw (.ofParse e)) := by
  unfold Failure.ofParse
  split
  · exact mirrored_throw (.crash _)
  · exact mirrored_throw (.parse e)

theorem Reply.Mirrors.perform {r r' : Reply} (hr : r.Mirrors ρ r') :
    Mirrored ρ base ρ.value r.perform r'.perform := by
  have hkept := Heap.isKept_mirrorsOver ρ base
  cases hr with
  | give v => exact mirrored_pure v
  | make hc => exact mirrored_make hc
  | makeString s => exact mirrored_make (.string rfl)
  | makeList hs =>
    exact mirrored_onHeap (fun h => h.precedes_makeSequence ..) fun hh _ =>
      hkept.makeSequence hh .list hs none
  | makeVector metadata hs =>
    exact mirrored_onHeap (fun h => h.precedes_makeSequence ..) fun hh _ =>
      hkept.makeSequence hh .vector hs metadata
  | makeAtom v =>
    exact mirrored_onHeap (fun h => h.precedes_makeAtom v) fun hh _ => hh.makeAtom v
  | annotate v metadata =>
    exact mirrored_onHeap (fun h => h.precedes_withMetadata v metadata) fun hh _ =>
      hkept.withMetadata hh v metadata
  | build d => exact mirrored_build d
  | append whole cell vs => exact mirrored_append whole cell vs
  | reset atom v => exact mirrored_reset atom v
  | generate stem => exact mirrored_generate stem
  | print hline => exact mirrored_print hline
  | raise v => exact mirrored_throw (.thrown v)
  | raiseText s =>
    exact (mirrored_make (c := .string (.ofList s)) (.string rfl)).bind fun v =>
      mirrored_throw (.thrown v)
  | unreadable e => exact mirrored_ofParse e
  | want path => exact mirrored_throw (.unread path)
  | crash c => exact mirrored_throw (.crash c)

end Performing

namespace Answer

abbrev Mirrors (ρ : Renaming) : Answer → Answer → Prop := Alike (Reply.Mirrors ρ)

variable {ρ : Renaming} {h h' : Heap} {name : Text}

theorem mirrors_ofBool (b : Bool) : Mirrors ρ (.ok (.ofBool b)) (.ok (.ofBool b)) :=
  .ok (.give (.bool b))

theorem mirrors_int (n : Int64) : Mirrors ρ (.ok (.make (.int n))) (.ok (.make (.int n))) :=
  .ok (.make (.int n))

section Arguments

variable {args : List Value}

theorem mirrors_unary {answer answer' : Value → Answer}
    (hanswer : ∀ x, Mirrors ρ (answer x) (answer' (ρ.value x))) :
    Mirrors ρ (unary name args answer) (unary name (args.map ρ.value) answer') := by
  rw [unary_eq, unary_eq]
  rcases args with _ | ⟨x, _ | ⟨y, more⟩⟩
  · exact .error _
  · exact hanswer x
  · simpa using Alike.error _

theorem mirrors_binary {answer answer' : Value → Value → Answer}
    (hanswer : ∀ x y, Mirrors ρ (answer x y) (answer' (ρ.value x) (ρ.value y))) :
    Mirrors ρ (binary name args answer) (binary name (args.map ρ.value) answer') := by
  rw [binary_eq, binary_eq]
  rcases args with _ | ⟨x, _ | ⟨y, _ | ⟨z, more⟩⟩⟩
  · exact .error _
  · exact .error _
  · exact hanswer x y
  · simpa using Alike.error _

theorem mirrors_variadic {answer answer' : Value → List Value → Answer}
    (hanswer : ∀ x more, Mirrors ρ (answer x more) (answer' (ρ.value x) (more.map ρ.value))) :
    Mirrors ρ (variadic name args answer) (variadic name (args.map ρ.value) answer') := by
  rw [variadic_eq, variadic_eq]
  cases args with
  | nil => exact .error _
  | cons x more => exact hanswer x more

end Arguments

section Reading

variable (hh : h.Mirrors ρ h')
include hh

theorem alike_refuse {α : Type} {R : α → α → Prop} (wanted : String) (v : Value) :
    Alike R (refuse name h wanted v) (refuse name h' wanted (ρ.value v)) := by
  unfold refuse
  rw [hh.kind]
  exact .error _

theorem mirrors_string {wanted : String} {answer answer' : Text → Answer}
    (hanswer : ∀ s, Mirrors ρ (answer s) (answer' s)) (v : Value) :
    Mirrors ρ (string name h wanted v answer) (string name h' wanted (ρ.value v) answer') := by
  have hv := hh.content v
  have hrefused : Mirrors ρ (refuse name h wanted v) (refuse name h' wanted (ρ.value v)) :=
    alike_refuse hh wanted v
  unfold string
  generalize h.content v = x at hv ⊢
  generalize h'.content (ρ.value v) = y at hv ⊢
  cases hv with
  | string hs =>
    dsimp only
    rw [hs]
    exact hanswer _
  | _ => exact hrefused

theorem mirrors_atom {answer answer' : AtomId → Answer}
    (hanswer : ∀ cell, Mirrors ρ (answer cell) (answer' cell)) (v : Value) :
    Mirrors ρ (atom name h v answer) (atom name h' (ρ.value v) answer') := by
  have hv := hh.content v
  have hrefused : Mirrors ρ (refuse name h "an atom" v) (refuse name h' "an atom" (ρ.value v)) :=
    alike_refuse hh _ v
  unfold atom
  generalize h.content v = x at hv ⊢
  generalize h'.content (ρ.value v) = y at hv ⊢
  cases hv with
  | atom cell => exact hanswer cell
  | _ => exact hrefused

theorem mirrors_keyword (v : Value) :
    Mirrors ρ (keyword name h v) (keyword name h' (ρ.value v)) := by
  have hv := hh.content v
  have hrefused : Mirrors ρ (refuse name h "a string or keyword" v)
      (refuse name h' "a string or keyword" (ρ.value v)) := alike_refuse hh _ v
  unfold keyword
  generalize h.content v = x at hv ⊢
  generalize h'.content (ρ.value v) = y at hv ⊢
  cases hv with
  | keyword name => exact .ok (.give v)
  | string hs =>
    dsimp only
    rw [hs]
    split
    · exact .ok (.make (.keyword _))
    · exact .ok (.make (.keyword _))
  | _ => exact hrefused

theorem mirrors_gensym (args : List Value) :
    Mirrors ρ (gensym name h args) (gensym name h' (args.map ρ.value)) := by
  rw [gensym_eq, gensym_eq]
  rcases args with _ | ⟨stem, _ | ⟨y, more⟩⟩
  · exact .ok (.generate _)
  · exact mirrors_string hh (fun s => .ok (.generate s)) stem
  · simpa using Alike.error _

theorem mirrors_errorValue (v : Value) :
    Mirrors ρ (errorValue name h v) (errorValue name h' (ρ.value v)) := by
  have hv := hh.content v
  have hrefused : Mirrors ρ (refuse name h "an error" v)
      (refuse name h' "an error" (ρ.value v)) := alike_refuse hh _ v
  unfold errorValue
  generalize h.content v = x at hv ⊢
  generalize h'.content (ρ.value v) = y at hv ⊢
  cases hv with
  | error payload => exact .ok (.give payload)
  | _ => exact hrefused

end Reading

theorem mirrors_slurp (host : Host) (path : Text) :
    (slurp host path).Mirrors ρ (slurp host path) := by
  unfold slurp
  split
  · exact .makeString _
  · exact .want path
  · exact .raiseText _

theorem mirrors_readString (source : Text) :
    (readString source).Mirrors ρ (readString source) := by
  unfold readString
  split
  · exact .build _
  · exact .unreadable _

end Answer

theorem Numeral.ofValue?_mirrors {ρ : Renaming} {h h' : Heap} (hh : h.Mirrors ρ h') (v : Value) :
    ofValue? h' (ρ.value v) = ofValue? h v := by
  have hv := hh.content v
  unfold ofValue?
  generalize h.content v = x at hv ⊢
  generalize h'.content (ρ.value v) = y at hv ⊢
  cases hv <;> rfl

namespace Arithmetic

open Answer

variable {ρ : Renaming} {h h' : Heap} {name : Text} (hh : h.Mirrors ρ h') (args : List Value)

theorem mirrors_settle (r : Except Break Int64) : (settle r).Mirrors ρ (settle r) := by
  unfold settle
  split
  · exact .make (.int _)
  · exact .raiseText _
  · exact .crash _

theorem mirrors_combine (int : Int64 → Int64 → Except Break Int64) (float : Float → Float → Float)
    (first : Numeral) (more : List Numeral) :
    (combine int float first more).Mirrors ρ (combine int float first more) := by
  unfold combine
  split
  · exact mirrors_settle _
  · exact .make (.float _)

include hh

theorem alike_numerals : Alike Eq (numerals name h args) (numerals name h' (args.map ρ.value)) := by
  rw [← List.forall₂_eq_eq_eq]
  refine Alike.mapM (fun v => ?_) args
  rw [Numeral.ofValue?_mirrors hh]
  cases Numeral.ofValue? h v with
  | some n => exact .ok rfl
  | none => exact alike_refuse hh _ v

theorem mirrors_total (empty : Int64) (int : Int64 → Int64 → Int64)
    (float : Float → Float → Float) :
    Mirrors ρ (total name h empty int float args)
      (total name h' empty int float (args.map ρ.value)) := by
  rw [total_eq, total_eq]
  refine (alike_numerals hh args).bind fun numbers _ hnumbers => ?_
  subst hnumbers
  cases numbers with
  | nil => exact mirrors_int _
  | cons first more => exact .ok (mirrors_combine ..)

theorem mirrors_difference (unit : Int64) (int : Int64 → Int64 → Except Break Int64)
    (float : Float → Float → Float) :
    Mirrors ρ (difference name h unit int float args)
      (difference name h' unit int float (args.map ρ.value)) := by
  rw [difference_eq, difference_eq]
  refine (alike_numerals hh args).bind fun numbers _ hnumbers => ?_
  subst hnumbers
  rcases numbers with _ | ⟨first, _ | ⟨second, more⟩⟩
  · exact .error _
  · exact .ok (mirrors_combine ..)
  · exact .ok (mirrors_combine ..)

theorem mirrors_modulo (x y : Value) :
    Mirrors ρ (modulo name h x y) (modulo name h' (ρ.value x) (ρ.value y)) := by
  have hx := hh.content x
  have hy := hh.content y
  have hrefused : ∀ v, Mirrors ρ (refuse name h "integers" v)
      (refuse name h' "integers" (ρ.value v)) := alike_refuse hh _
  unfold modulo
  generalize h.content x = c at hx ⊢
  generalize h'.content (ρ.value x) = c' at hx ⊢
  generalize h.content y = d at hy ⊢
  generalize h'.content (ρ.value y) = d' at hy ⊢
  cases hx with
  | int m =>
    cases hy with
    | int n => exact .ok (mirrors_settle _)
    | _ => exact hrefused y
  | _ => exact hrefused x

theorem mirrors_comparison (c : Comparison) :
    Mirrors ρ (comparison name h c args) (comparison name h' c (args.map ρ.value)) := by
  refine mirrors_variadic fun _ _ => (alike_numerals hh args).bind fun numbers _ hnumbers => ?_
  subst hnumbers
  exact mirrors_ofBool _

omit hh in
theorem chain_map {α β : Type} {t : α → β} {p : α → α → Bool} {q : β → β → Bool}
    (hq : ∀ x y, q (t x) (t y) = p x y) (xs : List α) : chain q (xs.map t) = chain p xs := by
  induction xs with
  | nil => rfl
  | cons x rest ih =>
    cases rest with
    | nil => rfl
    | cons y rest => simpa [chain, hq] using congrArg (p x y && ·) ih

end Arithmetic

namespace Collection

open Answer

variable {ρ : Renaming} {h h' : Heap} {name : Text} (hh : h.Mirrors ρ h')
include hh

theorem alike_sequence (v : Value) :
    Alike (fun s t : Sequence Value => t.toList = s.toList.map ρ.value) (sequence name h v)
      (sequence name h' (ρ.value v)) := by
  have hv := hh.content v
  have hrefused : Alike (fun s t : Sequence Value => t.toList = s.toList.map ρ.value)
      (refuse name h "a list or vector" v) (refuse name h' "a list or vector" (ρ.value v)) :=
    alike_refuse hh _ v
  unfold sequence
  generalize h.content v = x at hv ⊢
  generalize h'.content (ρ.value v) = y at hv ⊢
  cases hv with
  | list cell => exact .ok (hh.items cell)
  | vector cell => exact .ok (hh.items cell)
  | nil => exact .ok rfl
  | _ => exact hrefused

theorem alike_elements (v : Value) :
    Alike (fun vs vs' => vs' = vs.map ρ.value) (elements name h v)
      (elements name h' (ρ.value v)) :=
  (alike_sequence hh v).bind fun _ _ hs => .ok hs

theorem alike_entries (v : Value) :
    Alike (fun m n : Entries => n.toList = m.toList.map ρ.entry) (entries name h v)
      (entries name h' (ρ.value v)) := by
  have hv := hh.content v
  have hrefused : Alike (fun m n : Entries => n.toList = m.toList.map ρ.entry)
      (refuse name h "a hash-map" v) (refuse name h' "a hash-map" (ρ.value v)) :=
    alike_refuse hh _ v
  unfold entries
  generalize h.content v = x at hv ⊢
  generalize h'.content (ρ.value v) = y at hv ⊢
  cases hv with
  | map hn => exact .ok hn
  | nil => exact .ok rfl
  | _ => exact hrefused

theorem alike_size (v : Value) : Alike Eq (size name h v) (size name h' (ρ.value v)) := by
  have hv := hh.content v
  have hrefused : Alike (@Eq Nat) (refuse name h "a collection" v)
      (refuse name h' "a collection" (ρ.value v)) := alike_refuse hh _ v
  unfold size
  generalize h.content v = x at hv ⊢
  generalize h'.content (ρ.value v) = y at hv ⊢
  cases hv with
  | nil => exact .ok rfl
  | list cell => exact .ok (hh.size_sequence cell).symm
  | vector cell => exact .ok (hh.size_sequence cell).symm
  | map hn =>
    refine .ok ?_
    rw [← Sequence.length_toList, ← Sequence.length_toList, hn, List.length_map]
  | string hs =>
    refine .ok ?_
    rw [Rope.glyphCount_eq, Rope.glyphCount_eq, hs]
  | _ => exact hrefused

theorem mirrors_cons (x coll : Value) :
    Mirrors ρ (cons name h x coll) (cons name h' (ρ.value x) (ρ.value coll)) :=
  (alike_sequence hh coll).bind fun s t hs => .ok (.makeList (by simp [hs]))

theorem mirrors_concat (args : List Value) :
    Mirrors ρ (concat name h args) (concat name h' (args.map ρ.value)) := by
  refine (Alike.mapM (alike_sequence hh) args).bind fun parts parts' hparts =>
    .ok (.makeList ?_)
  suffices hjoin : ∀ s t : Sequence Value, t.toList = s.toList.map ρ.value →
      (parts'.foldl .join t).toList = (parts.foldl .join s).toList.map ρ.value from
    hjoin .empty .empty rfl
  induction hparts with
  | nil => exact fun s t hs => hs
  | cons hpart _ ih =>
    intro s t hs
    exact ih _ _ (by simp [hs, hpart])

theorem mirrors_conj (coll : Value) (vs : List Value) :
    Mirrors ρ (conj name h coll vs) (conj name h' (ρ.value coll) (vs.map ρ.value)) := by
  have hcoll := hh.content coll
  have hrefused : Mirrors ρ (refuse name h "a list or vector" coll)
      (refuse name h' "a list or vector" (ρ.value coll)) := alike_refuse hh _ coll
  unfold conj
  rw [hh.metadata]
  generalize h.content coll = x at hcoll ⊢
  generalize h'.content (ρ.value coll) = y at hcoll ⊢
  cases hcoll with
  | list cell => exact .ok (.append coll cell vs)
  | vector cell =>
    have hitems := hh.items cell
    refine .ok (.makeVector _ ?_)
    rw [Sequence.toList_append, Sequence.toList_append, List.map_append]
    exact congrArg (· ++ vs.map ρ.value) hitems
  | nil => exact .ok (.makeList (by simp))
  | _ => exact hrefused

theorem mirrors_nth (coll index : Value) :
    Mirrors ρ (nth name h coll index) (nth name h' (ρ.value coll) (ρ.value index)) := by
  have hindex := hh.content index
  have hrefused : Mirrors ρ (refuse name h "an integer index" index)
      (refuse name h' "an integer index" (ρ.value index)) := alike_refuse hh _ index
  unfold nth
  rcases hh.sequence?_cases coll with ⟨hs, ht⟩ | ⟨s, t, hs, ht, hitems⟩
  · rw [hs, ht]
    exact alike_refuse hh _ coll
  · rw [hs, ht]
    dsimp only
    generalize h.content index = x at hindex ⊢
    generalize h'.content (ρ.value index) = y at hindex ⊢
    cases hindex with
    | int i =>
      have hsize : t.size = s.size := by
        rw [← Sequence.length_toList, hitems, List.length_map, Sequence.length_toList]
      simp only [Sequence.nth_eq, check_ok, Sequence.get?_eq, hitems, List.getElem?_map, hsize]
      by_cases hi : 0 ≤ i.toInt
      · simp only [if_pos hi]
        cases s.toList[i.toInt.toNat]? with
        | none => exact .error _
        | some v => exact .ok (.give v)
      · simp only [if_neg hi]
        exact .error _
    | _ => exact hrefused

theorem mirrors_first (coll : Value) :
    Mirrors ρ (first name h coll) (first name h' (ρ.value coll)) := by
  refine (alike_sequence hh coll).bind fun s t hs => ?_
  simp only [Sequence.nth_eq, check_ok, Sequence.get?_eq, hs, List.getElem?_map]
  cases s.toList with
  | nil => exact .ok (.give .nil)
  | cons v rest => exact .ok (.give v)

theorem mirrors_rest (coll : Value) :
    Mirrors ρ (rest name h coll) (rest name h' (ρ.value coll)) := by
  rw [rest_eq, rest_eq]
  refine (alike_sequence hh coll).bind fun s t hs => .ok (.makeList ?_)
  have hsize : t.size = s.size := by
    rw [← Sequence.length_toList, hs, List.length_map, Sequence.length_toList]
  rw [hsize]
  split
  · rfl
  · simp [hs, List.map_take]

theorem mirrors_vec (coll : Value) :
    Mirrors ρ (vec name h coll) (vec name h' (ρ.value coll)) :=
  (alike_sequence hh coll).bind fun _ _ hs => .ok (.makeVector none hs)

theorem mirrors_keys (coll : Value) :
    Mirrors ρ (keys name h coll) (keys name h' (ρ.value coll)) :=
  (alike_entries hh coll).bind fun m n hn =>
    .ok (.makeList (by simp [hn, Renaming.entry, Function.comp_def]))

theorem mirrors_vals (coll : Value) :
    Mirrors ρ (vals name h coll) (vals name h' (ρ.value coll)) :=
  (alike_entries hh coll).bind fun m n hn =>
    .ok (.makeList (by simp [hn, Renaming.entry, Function.comp_def]))

section Entries

variable (hground : h.IsGrounded)
include hground

theorem mirrors_assoc (coll : Value) (more : List Value) :
    Mirrors ρ (assoc name h coll more) (assoc name h' (ρ.value coll) (more.map ρ.value)) := by
  unfold assoc
  rw [List.length_map]
  by_cases hodd : more.length % 2 ≠ 0
  · rw [if_pos hodd, if_pos hodd]
    exact .error _
  · rw [if_neg hodd, if_neg hodd]
    exact (alike_entries hh coll).bind fun m n hn =>
      .ok (.make (.map (hh.assoc hground hn more)))

theorem mirrors_dissoc (coll : Value) (keys : List Value) :
    Mirrors ρ (dissoc name h coll keys) (dissoc name h' (ρ.value coll) (keys.map ρ.value)) :=
  (alike_entries hh coll).bind fun _ _ hn => .ok (.make (.map (hh.dissoc hground hn keys)))

theorem mirrors_get (args : List Value) :
    Mirrors ρ (get name h args) (get name h' (args.map ρ.value)) := by
  have hfound : ∀ coll key fallback, Mirrors ρ
      (do let entries ← entries name h coll
          return .give ((h.get? entries key).getD fallback))
      (do let entries ← entries name h' (ρ.value coll)
          return .give ((h'.get? entries (ρ.value key)).getD (ρ.value fallback))) := by
    intro coll key fallback
    refine (alike_entries hh coll).bind fun m n hn => ?_
    rw [hh.get? hground hn]
    cases h.get? m key with
    | none => exact .ok (.give fallback)
    | some v => exact .ok (.give v)
  rw [get_eq, get_eq]
  rcases args with _ | ⟨coll, _ | ⟨key, _ | ⟨fallback, _ | ⟨extra, more⟩⟩⟩⟩
  · exact .error _
  · exact .error _
  · exact hfound coll key .nil
  · exact hfound coll key fallback
  · simpa using Alike.error _

theorem mirrors_contains (coll key : Value) :
    Mirrors ρ (contains name h coll key) (contains name h' (ρ.value coll) (ρ.value key)) := by
  refine (alike_entries hh coll).bind fun m n hn => ?_
  rw [hh.get? hground hn, Option.isSome_map]
  exact mirrors_ofBool _

end Entries

end Collection

namespace Operation

open Answer

variable {ρ : Renaming} {h h' : Heap}

theorem content_beq_bool (hh : h.Mirrors ρ h') (v : Value) (b : Bool) :
    (h'.content (ρ.value v) == .bool b) = (h.content v == .bool b) := by
  have hv := hh.content v
  generalize h.content v = x at hv ⊢
  generalize h'.content (ρ.value v) = y at hv ⊢
  cases hv <;> rfl

/-- Every operation answers the same, but for addresses. -/
theorem mirrors_answer (host : Host) (hh : h.Mirrors ρ h') (hground : h.IsGrounded) (op : Operation)
    (args : List Value) :
    Mirrors ρ (op.answer host h args) (op.answer host h' (args.map ρ.value)) := by
  have hprinted : ∀ style separator {reply : Rope → Answer},
      (∀ {r r' : Rope}, r'.toList = r.toList → Mirrors ρ (reply r) (reply r')) →
      Mirrors ρ (check (h.printAll style separator args) reply)
        (check (h'.printAll style separator (args.map ρ.value)) reply) := by
    intro style separator reply hreply
    rw [Heap.printAll_eq, Heap.printAll_eq]
    exact hreply (hh.renderAll hground style separator args)
  cases op with
  | add => exact Arithmetic.mirrors_total hh args 0 _ _
  | multiply => exact Arithmetic.mirrors_total hh args 1 _ _
  | subtract => exact Arithmetic.mirrors_difference hh args 0 _ _
  | divide => exact Arithmetic.mirrors_difference hh args 1 _ _
  | modulo => exact mirrors_binary fun x y => Arithmetic.mirrors_modulo hh x y
  | compare c => exact Arithmetic.mirrors_comparison hh args c
  | equal =>
    refine mirrors_variadic fun _ _ => ?_
    rw [Arithmetic.chain_map (hh.equal hground)]
    exact mirrors_ofBool _
  | atom => exact mirrors_unary fun v => .ok (.makeAtom v)
  | deref =>
    refine mirrors_unary fun v => mirrors_atom hh (fun cell => ?_) v
    rw [hh.deref]
    exact .ok (.give _)
  | reset =>
    exact mirrors_binary fun v new => mirrors_atom hh (fun cell => .ok (.reset cell new)) v
  | readString =>
    exact mirrors_unary fun v => mirrors_string hh (fun s => .ok (mirrors_readString s)) v
  | slurp =>
    exact mirrors_unary fun v => mirrors_string hh (fun path => .ok (mirrors_slurp host path)) v
  | list => exact .ok (.makeList (by simp))
  | vector => exact .ok (.makeVector none (by simp))
  | isSequential =>
    refine mirrors_unary fun v => ?_
    have hsame : (h'.sequence? (ρ.value v)).isSome = (h.sequence? v).isSome := by
      rcases hh.sequence?_cases v with ⟨hs, ht⟩ | ⟨s, t, hs, ht, _⟩
      · rw [hs, ht]
      · rw [hs, ht]
        rfl
    rw [hsame]
    exact mirrors_ofBool _
  | isEmpty =>
    refine mirrors_unary fun v => (Collection.alike_size hh v).bind fun n _ hn => ?_
    subst hn
    exact mirrors_ofBool _
  | count =>
    refine mirrors_unary fun v => (Collection.alike_size hh v).bind fun n _ hn => ?_
    subst hn
    exact mirrors_int _
  | cons => exact mirrors_binary fun x coll => Collection.mirrors_cons hh x coll
  | concat => exact Collection.mirrors_concat hh args
  | conj => exact mirrors_variadic fun coll vs => Collection.mirrors_conj hh coll vs
  | nth => exact mirrors_binary fun coll index => Collection.mirrors_nth hh coll index
  | first => exact mirrors_unary fun coll => Collection.mirrors_first hh coll
  | rest => exact mirrors_unary fun coll => Collection.mirrors_rest hh coll
  | vec => exact mirrors_unary fun coll => Collection.mirrors_vec hh coll
  | hashMap =>
    simp only [answer, List.length_map]
    by_cases hodd : args.length % 2 ≠ 0
    · rw [if_pos hodd, if_pos hodd]
      exact .error _
    · rw [if_neg hodd, if_neg hodd]
      exact .ok (.make (.map (hh.entriesOf hground args)))
  | assoc => exact mirrors_variadic fun coll more => Collection.mirrors_assoc hh hground coll more
  | dissoc => exact mirrors_variadic fun coll keys => Collection.mirrors_dissoc hh hground coll keys
  | get => exact Collection.mirrors_get hh hground args
  | contains => exact mirrors_binary fun coll key => Collection.mirrors_contains hh hground coll key
  | keys => exact mirrors_unary fun coll => Collection.mirrors_keys hh coll
  | vals => exact mirrors_unary fun coll => Collection.mirrors_vals hh coll
  | isKind k =>
    refine mirrors_unary fun v => ?_
    rw [hh.kind]
    exact mirrors_ofBool _
  | isTrue =>
    refine mirrors_unary fun v => ?_
    rw [content_beq_bool hh]
    exact mirrors_ofBool _
  | isFalse =>
    refine mirrors_unary fun v => ?_
    rw [content_beq_bool hh]
    exact mirrors_ofBool _
  | isNumber =>
    refine mirrors_unary fun v => ?_
    rw [Numeral.ofValue?_mirrors hh]
    exact mirrors_ofBool _
  | isFunction =>
    refine mirrors_unary fun v => ?_
    rw [Answer.isFunction, Answer.isFunction, hh.kind, hh.isMacro]
    exact mirrors_ofBool _
  | isMacro =>
    refine mirrors_unary fun v => ?_
    rw [hh.isMacro]
    exact mirrors_ofBool _
  | symbol =>
    exact mirrors_unary fun v => mirrors_string hh (fun s => .ok (.give (.symbol s))) v
  | keyword => exact mirrors_unary fun v => mirrors_keyword hh v
  | gensym => exact mirrors_gensym hh args
  | metadata =>
    refine mirrors_unary fun v => ?_
    rw [hh.metadata]
    cases h.metadata? v with
    | none => exact .ok (.give .nil)
    | some m => exact .ok (.give m)
  | withMetadata => exact mirrors_binary fun v metadata => .ok (.annotate v metadata)
  | throw => exact mirrors_unary fun v => .ok (.raise v)
  | error => exact mirrors_unary fun v => .ok (.make (.error v))
  | errorValue => exact mirrors_unary fun v => mirrors_errorValue hh v
  | clock =>
    cases args with
    | nil => exact mirrors_int _
    | cons x more => simpa [answer] using Alike.error _
  | printReadably => exact hprinted _ _ fun hr => .ok (.make (.string hr))
  | printJoined => exact hprinted _ _ fun hr => .ok (.make (.string hr))
  | writeReadably => exact hprinted _ _ fun hr => .ok (.print hr)
  | writeDisplayed => exact hprinted _ _ fun hr => .ok (.print hr)

theorem mirrored_call {base : Heap} (op : Operation) (args : List Value) :
    Mirrored ρ base ρ.value (op.call args) (op.call (args.map ρ.value)) := by
  refine Mirrored.read (fun w => op.answer w.host w.heap args)
    (fun w => op.answer w.host w.heap (args.map ρ.value)) Answer.perform Answer.perform
    (Alike.exists_alike (Reply.exists_mirrors ρ)) (fun {w w'} hw hground => ?_) fun x x' hx => ?_
  · rw [hw.host]
    exact mirrors_answer w.host hw.heap hground op args
  · cases hx with
    | ok hreply => exact hreply.perform
    | error f => exact mirrored_fault f

end Operation

end Lisp
