import Lisp.Proofs.Evaluator.Filling
import Lisp.Proofs.Evaluator.Mirror
import Lisp.Proofs.Heap.Embedding

/-!
Quasiquote fills a template. What the evaluator reads off the heap while it walks a template is the
template as a tree, for as long as the lists of the template do not grow meanwhile; so a quasiquoted
value ends as the filling of the tree does.
-/
namespace Lisp

open Evaluator Meaning

section Inversion

variable {w : World} {v item : Value} {frame : FrameId} {forms items : List Value} {cell : CellId}
  {α β : Type}

/-- A computation that goes on with what another gave. -/
theorem follows_run_iff {first : World → Ending α → Prop} {f : α → Run β} {r : Ending β} :
    Follows first (fun a u r => r = f a u) w r ↔ ∃ r', first w r' ∧ r = r'.andThen f := by
  constructor
  · rintro (⟨a, u, ha, rfl⟩ | ⟨e, u, he, rfl⟩)
    · exact ⟨.ok a u, ha, rfl⟩
    · exact ⟨.error e u, he, rfl⟩
  · rintro ⟨r', hr', rfl⟩
    cases r' with
    | ok a u => exact .inl ⟨a, u, hr', rfl⟩
    | error e u => exact .inr ⟨e, u, hr', rfl⟩

theorem fills_constant_iff (hv : w.heap.IsPlain v) {r : Ending Value} :
    Fills w v frame r ↔ r = .ok v w := by
  have hnone : ∀ special, holeForms? special w.heap v = none :=
    fun _ => holeForms?_of_no_list hv.list
  constructor
  · intro h
    cases h with
    | hole hhole => simp [hnone] at hhole
    | malformed hhole => simp [hnone] at hhole
    | list _ hlist => exact absurd hlist (hv.list _)
    | vector _ hvector => exact absurd hvector (hv.vector _)
    | map _ hmap => exact absurd hmap (hv.map _)
    | constant => rfl
  · rintro rfl
    exact .constant (hnone .unquote) hv.list hv.vector hv.map

theorem evaluatesOnly_iff {special : Special} {r : Ending Value} :
    EvaluatesOnly frame special forms w r ↔
      (∃ form, forms = [form] ∧ Evaluates w form frame r) ∨
      forms.length ≠ 1 ∧ r = .error (.fault (.malformed special .oneForm)) w := by
  unfold EvaluatesOnly
  split
  · simp
  · rename_i hforms
    have hlength : forms.length ≠ 1 := by
      intro hone
      obtain ⟨form, hform⟩ := List.length_eq_one_iff.mp hone
      exact hforms form hform
    constructor
    · exact fun hr => .inr ⟨hlength, hr⟩
    · rintro (⟨form, hform, -⟩ | ⟨-, hr⟩)
      · exact absurd hform (hforms form)
      · exact hr

theorem fills_hole_iff (hhole : holeForms? .unquote w.heap v = some forms) {r : Ending Value} :
    Fills w v frame r ↔ EvaluatesOnly frame .unquote forms w r := by
  rw [evaluatesOnly_iff]
  constructor
  · intro h
    cases h with
    | hole hfound heval =>
      cases hhole.symm.trans hfound
      exact .inl ⟨_, rfl, heval⟩
    | malformed hfound hforms =>
      cases hhole.symm.trans hfound
      exact .inr ⟨hforms, rfl⟩
    | list hnone => simp [hhole] at hnone
    | vector hnone => simp [hhole] at hnone
    | map hnone => simp [hhole] at hnone
    | constant hnone => simp [hhole] at hnone
  · rintro (⟨form, rfl, heval⟩ | ⟨hforms, rfl⟩)
    · exact .hole hhole heval
    · exact .malformed hhole hforms

theorem fills_list_iff (hhole : holeForms? .unquote w.heap v = none)
    (hlist : w.heap.content v = .list cell) {r : Ending Value} :
    Fills w v frame r ↔ Follows (fun u r => FillsAll u (w.heap.items cell) frame r)
      (fun vs u r => r = Run.makeList vs u) w r := by
  rw [follows_run_iff]
  constructor
  · intro h
    cases h with
    | hole hfound => simp [hhole] at hfound
    | malformed hfound => simp [hhole] at hfound
    | list _ hother hitems =>
      cases hlist.symm.trans hother
      exact ⟨_, hitems, rfl⟩
    | vector _ hvector => simp [hlist] at hvector
    | map _ hmap => simp [hlist] at hmap
    | constant _ hplain => exact absurd hlist (hplain cell)
  · rintro ⟨r', hitems, rfl⟩
    exact .list hhole hlist hitems

theorem fills_vector_iff (hvector : w.heap.content v = .vector cell) {r : Ending Value} :
    Fills w v frame r ↔ Follows (fun u r => FillsAll u (w.heap.items cell) frame r)
      (fun vs u r => r = Run.makeVector vs u) w r := by
  have hnone : holeForms? .unquote w.heap v = none := holeForms?_of_no_list (by simp [hvector])
  rw [follows_run_iff]
  constructor
  · intro h
    cases h with
    | hole hfound => simp [hnone] at hfound
    | malformed hfound => simp [hnone] at hfound
    | list _ hlist => simp [hvector] at hlist
    | vector _ hother hitems =>
      cases hvector.symm.trans hother
      exact ⟨_, hitems, rfl⟩
    | map _ hmap => simp [hvector] at hmap
    | constant _ _ hplain => exact absurd hvector (hplain cell)
  · rintro ⟨r', hitems, rfl⟩
    exact .vector hnone hvector hitems

theorem fills_map_iff {entries : Entries} (hmap : w.heap.content v = .map entries)
    {r : Ending Value} :
    Fills w v frame r ↔ Follows (fun u r => FillsEntries u entries.toList frame r)
      (fun vs u r => r = Run.makeMap vs u) w r := by
  have hnone : holeForms? .unquote w.heap v = none := holeForms?_of_no_list (by simp [hmap])
  rw [follows_run_iff]
  constructor
  · intro h
    cases h with
    | hole hfound => simp [hnone] at hfound
    | malformed hfound => simp [hnone] at hfound
    | list _ hlist => simp [hmap] at hlist
    | vector _ hvector => simp [hmap] at hvector
    | map _ hother hentries =>
      cases hmap.symm.trans hother
      exact ⟨_, hentries, rfl⟩
    | constant _ _ _ hplain => exact absurd hmap (hplain entries)
  · rintro ⟨r', hentries, rfl⟩
    exact .map hnone hmap hentries

variable {r : Ending (List Value)}

theorem fillsAll_nil_iff : FillsAll w [] frame r ↔ r = .ok [] w := by
  constructor
  · rintro ⟨⟩
    rfl
  · rintro rfl
    exact .nil

theorem exists_of_splice_ok {vs : List Value} {u : World}
    (hends : (Hole.splice forms).Ends frame w (.ok vs u)) :
    ∃ form v, forms = [form] ∧ Evaluates w form frame (.ok v u) ∧
      splicedItems u.heap v = .ok vs := by
  rcases hends with ⟨v, x, hv, hspliced⟩ | ⟨_, _, _, herror⟩
  · rcases evaluatesOnly_iff.mp hv with ⟨form, rfl, heval⟩ | ⟨_, herror⟩
    · rw [run_require] at hspliced
      cases hitems : splicedItems x.heap v with
      | error f => simp [hitems] at hspliced
      | ok found =>
        rw [hitems] at hspliced
        cases hspliced
        exact ⟨form, v, rfl, heval, hitems⟩
    · cases herror
  · cases herror

/-- A splice fails when it is no form alone, when the form fails or when its value has no elements.
-/
theorem cases_of_splice_error {e : Failure} {u : World}
    (hends : (Hole.splice forms).Ends frame w (.error e u)) :
    (∃ form v fault, forms = [form] ∧ Evaluates w form frame (.ok v u) ∧
      splicedItems u.heap v = .error fault ∧ e = .fault fault) ∨
    (∃ form, forms = [form] ∧ Evaluates w form frame (.error e u)) ∨
    forms.length ≠ 1 ∧ e = .fault (.malformed .splice .oneForm) ∧ u = w := by
  rcases hends with ⟨v, x, hv, hspliced⟩ | ⟨_, _, he, hr⟩
  · rcases evaluatesOnly_iff.mp hv with ⟨form, rfl, heval⟩ | ⟨_, herror⟩
    · rw [run_require] at hspliced
      cases hitems : splicedItems x.heap v with
      | ok found => simp [hitems] at hspliced
      | error fault =>
        rw [hitems] at hspliced
        cases hspliced
        exact .inl ⟨form, v, fault, rfl, heval, hitems, rfl⟩
    · cases herror
  · cases hr
    rcases evaluatesOnly_iff.mp he with ⟨form, rfl, heval⟩ | ⟨hforms, hr⟩
    · exact .inr (.inl ⟨form, rfl, heval⟩)
    · cases hr
      exact .inr (.inr ⟨hforms, rfl, rfl⟩)

theorem fillsAll_splice_iff (hhole : holeForms? .splice w.heap item = some forms) :
    FillsAll w (item :: items) frame r ↔ Follows ((Hole.splice forms).Ends frame)
      (fun vs => Follows (fun u r => FillsAll u items frame r)
        fun more u r => r = .ok (vs ++ more) u) w r := by
  constructor
  · intro h
    cases h with
    | splice hfound heval hspliced hrest =>
      cases hhole.symm.trans hfound
      refine .inl ⟨_, _, .inl ⟨_, _, heval, ?_⟩, follows_run_iff.mpr ⟨_, hrest, rfl⟩⟩
      simp only [run_require, hspliced]
    | spliceRefused hfound heval hspliced =>
      cases hhole.symm.trans hfound
      refine .inr ⟨_, _, .inl ⟨_, _, heval, ?_⟩, rfl⟩
      simp only [run_require, hspliced]
    | spliceFails hfound heval =>
      cases hhole.symm.trans hfound
      exact .inr ⟨_, _, .inr ⟨_, _, heval, rfl⟩, rfl⟩
    | spliceMalformed hfound hforms =>
      cases hhole.symm.trans hfound
      exact .inr ⟨_, _, .inr ⟨_, _, evaluatesOnly_iff.mpr (.inr ⟨hforms, rfl⟩), rfl⟩, rfl⟩
    | cons hnone => simp [hhole] at hnone
    | fails hnone => simp [hhole] at hnone
  · rintro (⟨vs, u, hends, hrest⟩ | ⟨e, u, hends, rfl⟩)
    · obtain ⟨r', hmore, rfl⟩ := follows_run_iff.mp hrest
      obtain ⟨form, v, rfl, heval, hitems⟩ := exists_of_splice_ok hends
      exact .splice hhole heval hitems hmore
    · rcases cases_of_splice_error hends with ⟨form, v, fault, rfl, heval, hitems, rfl⟩ |
        ⟨form, rfl, heval⟩ | ⟨hforms, rfl, rfl⟩
      · exact .spliceRefused hhole heval hitems
      · exact .spliceFails hhole heval
      · exact .spliceMalformed hhole hforms

theorem fillsAll_cons_iff (hhole : holeForms? .splice w.heap item = none) :
    FillsAll w (item :: items) frame r ↔ Follows (fun u r => Fills u item frame r)
      (fun v => Follows (fun u r => FillsAll u items frame r)
        fun more u r => r = .ok (v :: more) u) w r := by
  constructor
  · intro h
    cases h with
    | cons _ hitem hrest => exact .inl ⟨_, _, hitem, follows_run_iff.mpr ⟨_, hrest, rfl⟩⟩
    | fails _ hitem => exact .inr ⟨_, _, hitem, rfl⟩
    | splice hfound => simp [hhole] at hfound
    | spliceRefused hfound => simp [hhole] at hfound
    | spliceFails hfound => simp [hhole] at hfound
    | spliceMalformed hfound => simp [hhole] at hfound
  · rintro (⟨v, u, hitem, hrest⟩ | ⟨e, u, hitem, rfl⟩)
    · obtain ⟨r', hmore, rfl⟩ := follows_run_iff.mp hrest
      exact .cons hhole hitem hmore
    · exact .fails hhole hitem

theorem fillsEntries_nil_iff : FillsEntries w [] frame r ↔ r = .ok [] w := by
  constructor
  · rintro ⟨⟩
    rfl
  · rintro rfl
    exact .nil

theorem fillsEntries_cons_iff {key value : Value} {entries : List (Value × Value)} :
    FillsEntries w ((key, value) :: entries) frame r ↔ Follows (fun u r => Fills u value frame r)
      (fun v => Follows (fun u r => FillsEntries u entries frame r)
        fun more u r => r = .ok (key :: v :: more) u) w r := by
  constructor
  · intro h
    cases h with
    | cons hvalue hrest => exact .inl ⟨_, _, hvalue, follows_run_iff.mpr ⟨_, hrest, rfl⟩⟩
    | fails hvalue => exact .inr ⟨_, _, hvalue, rfl⟩
  · rintro (⟨v, u, hvalue, hrest⟩ | ⟨e, u, hvalue, rfl⟩)
    · obtain ⟨r', hmore, rfl⟩ := follows_run_iff.mp hrest
      exact .cons hvalue hmore
    · exact .fails hvalue

end Inversion

section Growth

variable {w : World} {frame : FrameId} {α β : Type} {r : Ending (List Value)}

theorem Meaning.Eventually.precedes {m : Bounds → Run α} {r : Ending α}
    (hm : Eventually fun b => m b w = r) (hgrows : ∀ b, w.heap.Precedes ((m b).heapAfter w)) :
    w.heap.Precedes r.world.heap := by
  obtain ⟨n, hn⟩ := hm
  have hrun := hn ⟨n, n, n, n⟩ ⟨Nat.le_refl n, Nat.le_refl n, Nat.le_refl n, Nat.le_refl n⟩
  have hgrows := hgrows ⟨n, n, n, n⟩
  unfold Run.heapAfter at hgrows
  rw [hrun] at hgrows
  cases r with
  | ok a u => exact hgrows
  | error e u => exact hgrows

theorem Meaning.FillsAll.precedes {vs : List Value} (h : FillsAll w vs frame r) :
    w.heap.Precedes r.world.heap := by
  refine Eventually.precedes h.runs fun b => ?_
  have hmirrored : IsMirrored .identity w.heap b.eval := isMirrored_eval b.limit b.depth
  exact (mirrored_fillItems hmirrored frame (mirrored_fill hmirrored frame b.steps) vs).grows w

theorem Meaning.FillsEntries.precedes {entries : List (Value × Value)}
    (h : FillsEntries w entries frame r) : w.heap.Precedes r.world.heap := by
  refine Eventually.precedes h.runs fun b => ?_
  have hmirrored : IsMirrored .identity w.heap b.eval := isMirrored_eval b.limit b.depth
  exact (mirrored_fillEntries (mirrored_fill hmirrored frame b.steps) entries).grows w

theorem Outcome.precedes {base : Heap} {veil : Veil} {holes : List Hole}
    {good : List (List Value) → Veil → World → α → Prop} {r : Ending α}
    (hr : Outcome base frame veil w holes good r) : w.heap.Precedes r.world.heap := by
  cases r with
  | ok a u =>
    obtain ⟨_, _, _, _, hdeep, _⟩ := hr
    exact hdeep.before.precedes
  | error e u => exact hr.1.precedes

end Growth

/-- Both end in the same way, as far as heaps are concerned that come before the one given. -/
def AgreeUpTo (stop : Heap) {α : Type} (P Q : Ending α → Prop) : Prop :=
  ∀ r, r.world.heap.Precedes stop → (P r ↔ Q r)

section Agreement

variable {stop : Heap} {w : World} {α β : Type} {first first' : World → Ending α → Prop}
  {second second' : α → World → Ending β → Prop}

theorem Follows.precedes {f : α → Run β} {r : Ending β}
    (hr : Follows first (fun a u r => r = f a u) w r)
    (hfirst : ∀ r, first w r → w.heap.Precedes r.world.heap)
    (hf : ∀ a (u : World), u.heap.Precedes (Ending.world (f a u)).heap) :
    w.heap.Precedes r.world.heap := by
  rcases hr with ⟨a, u, ha, rfl⟩ | ⟨e, u, he, rfl⟩
  · exact (hfirst _ ha).trans (hf a u)
  · exact hfirst _ he

/-- Two computations in turn agree when the first ones do, and the second ones from there on. -/
theorem AgreeUpTo.follows (hfirst : AgreeUpTo stop (first w) (first' w))
    (hsecond : ∀ a u, first' w (.ok a u) → u.heap.Precedes stop →
      AgreeUpTo stop (second a u) (second' a u))
    (hgrows : ∀ a u r, second a u r → u.heap.Precedes r.world.heap)
    (hgrows' : ∀ a u r, first' w (.ok a u) → second' a u r → u.heap.Precedes r.world.heap) :
    AgreeUpTo stop (Follows first second w) (Follows first' second' w) := by
  intro r hr
  constructor
  · rintro (⟨a, u, ha, hnext⟩ | ⟨e, u, he, rfl⟩)
    · have hu := (hgrows a u r hnext).trans hr
      have ha' := (hfirst (.ok a u) hu).mp ha
      exact .inl ⟨a, u, ha', (hsecond a u ha' hu r hr).mp hnext⟩
    · exact .inr ⟨e, u, (hfirst _ hr).mp he, rfl⟩
  · rintro (⟨a, u, ha', hnext⟩ | ⟨e, u, he, rfl⟩)
    · have hu := (hgrows' a u r ha' hnext).trans hr
      exact .inl ⟨a, u, (hfirst (.ok a u) hu).mpr ha', (hsecond a u ha' hu r hr).mpr hnext⟩
    · exact .inr ⟨e, u, (hfirst _ hr).mpr he, rfl⟩

/-- What is done with the outcome may be the same on both sides. -/
theorem AgreeUpTo.follows_run (hfirst : AgreeUpTo stop (first w) (first' w)) {f : α → Run β}
    (hf : ∀ a (u : World), u.heap.Precedes (Ending.world (f a u)).heap) :
    AgreeUpTo stop (Follows first (fun a u r => r = f a u) w)
      (Follows first' (fun a u r => r = f a u) w) := by
  refine hfirst.follows (fun _ _ _ _ _ _ => Iff.rfl) ?_ ?_
  · rintro a u _ rfl
    exact hf a u
  · rintro a u _ _ rfl
    exact hf a u

variable {base : Heap} {frame : FrameId}

/-- Of the parts of a template the rest follows the first one. -/
theorem AgreeUpTo.follows_rest {veil : Veil} {holes more : List Hole}
    {good : List (List Value) → Veil → World → α → Prop}
    {next : List (List Value) → Veil → World → List Value → Prop}
    {P Q : World → Ending (List Value) → Prop} {f : α → List Value → List Value}
    (hfirst : AgreeUpTo stop (first w) (first' w))
    (houtcome : ∀ r, first' w r → Outcome base frame veil w holes good r)
    (hrest : ∀ u veil', Midway base frame veil' u → w.heap.IsBefore u.heap →
      u.heap.Precedes stop → AgreeUpTo stop (P u) (Q u))
    (hgrows : ∀ u r, P u r → u.heap.Precedes r.world.heap)
    (houtcome' : ∀ u veil' r, Midway base frame veil' u → Q u r →
      Outcome base frame veil' u more next r) :
    AgreeUpTo stop (Follows first (fun a => Follows P fun b u r => r = .ok (f a b) u) w)
      (Follows first' (fun a => Follows Q fun b u r => r = .ok (f a b) u) w) := by
  refine hfirst.follows (fun a u ha hu => ?_) (fun a u r hr => ?_) fun a u r ha hr => ?_
  · obtain ⟨_, veil', -, hmidway, hdeep, -⟩ := houtcome _ ha
    exact (hrest u veil' hmidway hdeep.before hu).follows_run fun _ u => .refl u.heap
  · exact hr.precedes (hgrows u) fun _ u => .refl u.heap
  · obtain ⟨_, veil', -, hmidway, -⟩ := houtcome _ ha
    exact hr.precedes (fun r hr => (houtcome' u veil' r hmidway hr).precedes)
      fun _ u => .refl u.heap

mutual

/-- While the lists of a template do not grow, its filling is that of the tree. -/
theorem Template.Describes.agree {t : Template} {v : Value} {veil : Veil} {w : World}
    (ht : t.Describes w.heap v) (hstop : t.Describes stop v) (hw : Midway base frame veil w)
    (hprecedes : w.heap.Precedes stop) (hv : w.heap.Has v)
    (hover : t.IsOver (Value.IsBelow base.objects.size)) :
    AgreeUpTo stop (Fills w v frame) (t.Ends frame w) := by
  have hsound := hw.ready.sound.heap
  have hkept : ∀ cell, (w.heap.content v).cell? = some cell → stop.items cell = w.heap.items cell :=
    fun _ hcell => (ht.items_between hprecedes (.refl stop) hv hstop hcell).1
  have hcontent := hprecedes.content_of_has hv
  cases t with
  | constant c =>
    obtain ⟨rfl, hplain⟩ := ht
    exact fun r _ => fills_constant_iff hplain
  | hole forms => exact fun r _ => fills_hole_iff ht
  | list items =>
    obtain ⟨hhole, cell, hlist, hitems⟩ := ht
    obtain ⟨-, other, hlist', hitems'⟩ := hstop
    rw [hcontent, hlist] at hlist'
    cases hlist'
    rw [hkept cell (by rw [hlist]; rfl)] at hitems'
    have hagree := hitems.agree hitems' hw hprecedes (hsound.items cell) hover
    intro r hr
    rw [fills_list_iff hhole hlist]
    exact hagree.follows_run (f := Run.makeList) (fun vs u => u.heap.precedes_makeSequence ..) r hr
  | vector items =>
    obtain ⟨cell, hvector, hitems⟩ := ht
    obtain ⟨other, hvector', hitems'⟩ := hstop
    rw [hcontent, hvector] at hvector'
    cases hvector'
    rw [hkept cell (by rw [hvector]; rfl)] at hitems'
    have hagree := hitems.agree hitems' hw hprecedes (hsound.items cell) hover
    intro r hr
    rw [fills_vector_iff hvector]
    exact hagree.follows_run (f := Run.makeVector)
      (fun vs u => u.heap.precedes_makeSequence ..) r hr
  | map entries =>
    obtain ⟨found, hmap, hentries⟩ := ht
    obtain ⟨other, hmap', hentries'⟩ := hstop
    rw [hcontent, hmap] at hmap'
    cases hmap'
    have hagree := hentries.agree hentries' hw hprecedes (entries_in hsound.isClosed hv hmap) hover
    intro r hr
    rw [fills_map_iff hmap]
    exact hagree.follows_run (f := Run.makeMap) (fun vs u => u.heap.precedes_alloc _) r hr

theorem TemplateItems.Describes.agree {items : TemplateItems} {vs : List Value} {veil : Veil}
    {w : World} (hitems : items.Describes w.heap vs) (hstop : items.Describes stop vs)
    (hw : Midway base frame veil w) (hprecedes : w.heap.Precedes stop)
    (hvs : ∀ v ∈ vs, w.heap.Has v) (hover : items.IsOver (Value.IsBelow base.objects.size)) :
    AgreeUpTo stop (FillsAll w vs frame) (items.Ends frame w) := by
  have hsound := hw.ready.sound.heap
  cases items with
  | nil =>
    cases hitems
    exact fun r _ => fillsAll_nil_iff
  | splice forms rest =>
    obtain ⟨v, more, rfl, hhole, hrest⟩ := hitems
    obtain ⟨_, _, hcons, -, hrest'⟩ := hstop
    cases hcons
    obtain ⟨-, hmore⟩ := List.forall_mem_cons.mp hvs
    intro r hr
    rw [fillsAll_splice_iff hhole]
    refine AgreeUpTo.follows_rest (fun _ _ => Iff.rfl) (fun r hr => hr.outcome hw hover.1)
      (fun u veil' hu hwu hstop => ?_) (fun u r hr => hr.precedes)
      (fun u veil' r hu hr => hr.outcome hu hover.2) r hr
    exact (hrest.between hrest' hwu.precedes hstop hsound hmore).agree hrest' hu hstop
      (fun x hx => hwu.notSmaller.has (hmore x hx)) hover.2
  | cons t rest =>
    obtain ⟨v, more, rfl, hhole, ht, hrest⟩ := hitems
    obtain ⟨_, _, hcons, -, ht', hrest'⟩ := hstop
    cases hcons
    obtain ⟨hv, hmore⟩ := List.forall_mem_cons.mp hvs
    intro r hr
    rw [fillsAll_cons_iff hhole]
    refine AgreeUpTo.follows_rest (ht.agree ht' hw hprecedes hv hover.1)
      (fun r hr => hr.outcome hw hover.1) (fun u veil' hu hwu hstop => ?_)
      (fun u r hr => hr.precedes) (fun u veil' r hu hr => hr.outcome hu hover.2) r hr
    exact (hrest.between hrest' hwu.precedes hstop hsound hmore).agree hrest' hu hstop
      (fun x hx => hwu.notSmaller.has (hmore x hx)) hover.2

theorem TemplateEntries.Describes.agree {entries : TemplateEntries}
    {found : List (Value × Value)} {veil : Veil} {w : World}
    (hentries : entries.Describes w.heap found) (hstop : entries.Describes stop found)
    (hw : Midway base frame veil w) (hprecedes : w.heap.Precedes stop)
    (hfound : ∀ entry ∈ found, w.heap.Has entry.1 ∧ w.heap.Has entry.2)
    (hover : entries.IsOver (Value.IsBelow base.objects.size)) :
    AgreeUpTo stop (FillsEntries w found frame) (entries.Ends frame w) := by
  cases entries with
  | nil =>
    cases hentries
    exact fun r _ => fillsEntries_nil_iff
  | cons key t rest =>
    obtain ⟨v, more, rfl, ht, hrest⟩ := hentries
    obtain ⟨_, _, hcons, ht', hrest'⟩ := hstop
    cases hcons
    obtain ⟨⟨-, hv⟩, hmore⟩ := List.forall_mem_cons.mp hfound
    intro r hr
    rw [fillsEntries_cons_iff]
    refine AgreeUpTo.follows_rest (ht.agree ht' hw hprecedes hv hover.2.1)
      (fun r hr => hr.outcome hw hover.2.1) (fun u veil' hu hwu hstop => ?_)
      (fun u r hr => hr.precedes) (fun u veil' r hu hr => hr.outcome hu hover.2.2) r hr
    exact (hrest.between hrest' hwu.precedes hstop hw.ready.sound.heap hmore).agree hrest' hu hstop
      (fun x hx => (hmore x hx).imp hwu.notSmaller.has hwu.notSmaller.has) hover.2.2

end

end Agreement

end Lisp
