import Lisp.World
import Lisp.Proofs.Heap.Mirror
import Lisp.Proofs.World.Soundness

/-!
Worlds that are the same but for addresses, and computations that do the same in them. A computation
mirrors another when, started in such a world, it ends in one: with the same value but for
addresses, or with the same failure. Heaps only grow, so what is asked of the heap where a
computation ends holds wherever it passes through, and computations in sequence are mirrored if each
is.
-/
namespace Lisp

def Renaming.failure (ρ : Renaming) : Failure → Failure
  | .thrown v => .thrown (ρ.value v)
  | .loading path cause => .loading path (failure ρ cause)
  | e => e

/-- Frames bind the same names to the same values, but for addresses. -/
structure Scopes.Mirrors (ρ : Renaming) (s s' : Scopes) : Prop where
  get? : ∀ f name, s'.get? (ρ.frame f) name = (s.get? f name).map ρ.value
  outers : ∀ f, (s'.frame (ρ.frame f)).outers = (s.frame f).outers.map ρ.frame
  nextFrame : ∀ n, ρ.frame (s.frames.size + n) = s'.frames.size + n

namespace Scopes.Mirrors

variable {ρ : Renaming} {s s' : Scopes} (hs : s.Mirrors ρ s')
include hs

theorem path (f : FrameId) : s'.path (ρ.frame f) = (s.path f).map ρ.frame := by
  rw [Scopes.path, Scopes.path, hs.outers, List.map_cons]

theorem find? (f : FrameId) (name : Text) :
    s'.find? (ρ.frame f) name = (s.find? f name).map ρ.value := by
  rw [Scopes.find?, Scopes.find?, hs.path, List.findSome?_map]
  induction s.path f with
  | nil => rfl
  | cons g rest ih =>
    simp only [List.findSome?_cons, Function.comp_apply, hs.get?]
    cases s.get? g name with
    | none => exact ih
    | some v => rfl

theorem resolve? (f : FrameId) (name : Text) :
    s'.resolve? (ρ.frame f) name = (s.resolve? f name).map ρ.frame := by
  rw [Scopes.resolve?, Scopes.resolve?, hs.path, List.find?_map]
  simp only [Function.comp_def, hs.get?, Option.isSome_map]

theorem push (outer : Option FrameId) {b b' : Bindings}
    (hb : ∀ name, b'.get? name = (b.get? name).map ρ.value) :
    (s'.push (outer.map ρ.frame) b').1 = ρ.frame (s.push outer b).1 ∧
      (s.push outer b).2.Mirrors ρ (s'.push (outer.map ρ.frame) b').2 := by
  have hnext : ρ.frame s.frames.size = s'.frames.size := hs.nextFrame 0
  have hnew : ∀ f, ρ.frame f = s'.frames.size ↔ f = s.frames.size := fun f => by
    rw [← hnext, ρ.frame_injective.eq_iff]
  refine ⟨hnext.symm, ⟨fun f name => ?_, fun f => ?_, fun n => ?_⟩⟩
  · simp only [Scopes.get?, frame_push, hnew]
    by_cases hf : f = s.frames.size
    · simp only [hf, if_true, hb]
    · simp only [hf, if_false]
      exact hs.get? f name
  · simp only [frame_push, hnew]
    by_cases hf : f = s.frames.size
    · cases outer with
      | none => simp [hf]
      | some o => simp [hf, hs.path]
    · simp only [hf, if_false]
      exact hs.outers f
  · have hlater := hs.nextFrame (1 + n)
    rw [size_push, size_push, Nat.add_assoc, hlater, Nat.add_assoc]

theorem define (f : FrameId) (name : Text) (v : Value) :
    (s.define f name v).Mirrors ρ (s'.define (ρ.frame f) name (ρ.value v)) := by
  have hlt : ρ.frame f < s'.frames.size ↔ f < s.frames.size := by
    refine ⟨fun hlt => ?_, lt_of_aligned ρ.frame_injective hs.nextFrame⟩
    by_contra hge
    obtain ⟨n, rfl⟩ := Nat.exists_eq_add_of_le (Nat.le_of_not_lt hge)
    rw [hs.nextFrame n] at hlt
    exact absurd hlt (Nat.not_lt.mpr (Nat.le_add_right ..))
  refine ⟨fun g other => ?_, fun g => ?_, fun n => ?_⟩
  · simp only [get?_define, hs.get?, ρ.frame_injective.eq_iff, hlt]
    by_cases hg : g = f ∧ f < s.frames.size ∧ name = other
    · rw [if_pos hg, if_pos hg]
      rfl
    · rw [if_neg hg, if_neg hg]
  · rw [outers_define, outers_define, hs.outers]
  · rw [size_define, size_define, hs.nextFrame]

end Scopes.Mirrors

/-- What names are bound to is the same but for addresses. -/
theorem Bindings.get?_ofPairs_map (ρ : Renaming) (params : List Text) (args : List Value)
    (name : Text) :
    (ofPairs (params.zip (args.map ρ.value))).get? name =
      ((ofPairs (params.zip args)).get? name).map ρ.value := by
  have hpairs : params.zip (args.map ρ.value) =
      (params.zip args).map fun pair => (pair.1, ρ.value pair.2) := by
    rw [List.zip_map_right]
    rfl
  rw [hpairs, ofPairs, ofPairs, List.foldl_map]
  induction params.zip args using List.reverseRecOn with
  | nil => simp
  | append_singleton pairs pair ih =>
    rw [List.foldl_append, List.foldl_append]
    simp only [List.foldl_cons, List.foldl_nil, get?_put, ih]
    by_cases hname : pair.1 = name
    · simp [hname]
    · simp [hname]

namespace World

/-- The same state but for addresses. The log is left aside. -/
structure Mirrors (ρ : Renaming) (w w' : World) : Prop where
  heap : w.heap.Mirrors ρ w'.heap
  scopes : w.scopes.Mirrors ρ w'.scopes
  generated : w'.generated = w.generated
  written : w'.console.written.toList = w.console.written.toList
  room : w'.console.room = w.console.room
  host : w'.host = w.host

/-- A mirror whose heap has kept what else was in `base`. -/
structure MirrorsOver (ρ : Renaming) (base : Heap) (w w' : World) : Prop
    extends Mirrors ρ w w' where
  heapOver : Heap.MirrorsOver ρ base w.heap w'.heap

end World

section Computations

variable {α β γ : Type} {ρ : Renaming} {base : Heap}

/-- The heap where a computation ends. -/
def Run.heapAfter (m : Run α) (w : World) : Heap :=
  match m w with
  | .ok _ u => u.heap
  | .error _ u => u.heap

/-- Both end with a value or both fail, the same way but for addresses. -/
inductive Agree (ρ : Renaming) (base : Heap) (g : α → α) :
    EStateM.Result Failure World α → EStateM.Result Failure World α → Prop
  | ok {a : α} {u u' : World} : u.MirrorsOver ρ base u' → Agree ρ base g (.ok a u) (.ok (g a) u')
  | error {e : Failure} {u u' : World} :
    u.MirrorsOver ρ base u' → Agree ρ base g (.error e u) (.error (ρ.failure e) u')

/-- The second computation mirrors the first, giving `g a` where that gives `a`, unless the first
ends where comparisons might not end. -/
structure Mirrored (ρ : Renaming) (base : Heap) (g : α → α) (m m' : Run α) : Prop where
  grows : ∀ w : World, w.heap.Precedes (m.heapAfter w)
  agree : ∀ {w w' : World}, w.MirrorsOver ρ base w' → (m.heapAfter w).IsGrounded →
    Agree ρ base g (m w) (m' w')

variable {g : α → α} {k : β → β} {m m' : Run α} {f f' : α → Run β}

theorem mirrored_pure (a : α) : Mirrored ρ base g (pure a) (pure (g a)) where
  grows w := .refl w.heap
  agree hw _ := .ok hw

theorem mirrored_throw (e : Failure) :
    Mirrored ρ base g (throw e) (throw (ρ.failure e)) where
  grows w := .refl w.heap
  agree hw _ := .error hw

theorem mirrored_fault (e : Fault) : Mirrored ρ base g (Run.fault e) (Run.fault e) :=
  mirrored_throw (.fault e)

theorem mirrored_malformed (form : Special) (why : Malformation) :
    Mirrored ρ base g (Run.malformed form why) (Run.malformed form why) :=
  mirrored_fault _

theorem mirrored_exhausted : Mirrored ρ base g (throw .exhausted) (throw .exhausted) :=
  mirrored_throw .exhausted

theorem heapAfter_bind (m : Run α) (f : α → Run β) (w : World) :
    (m >>= f).heapAfter w =
      match m w with
      | .ok a u => (f a).heapAfter u
      | .error _ u => u.heap := by
  change (match EStateM.bind m f w with | .ok _ u => u.heap | .error _ u => u.heap) = _
  unfold EStateM.bind
  cases m w with
  | ok a u => rfl
  | error e u => rfl

theorem Mirrored.bind (hm : Mirrored ρ base g m m')
    (hf : ∀ a, Mirrored ρ base k (f a) (f' (g a))) :
    Mirrored ρ base k (m >>= f) (m' >>= f') where
  grows w := by
    have hfirst := hm.grows w
    rw [heapAfter_bind]
    unfold Run.heapAfter at hfirst
    cases hresult : m w with
    | ok a u =>
      rw [hresult] at hfirst
      exact hfirst.trans ((hf a).grows u)
    | error e u =>
      rw [hresult] at hfirst
      exact hfirst
  agree {w w'} hw hground := by
    rw [heapAfter_bind] at hground
    change Agree ρ base k (EStateM.bind m f w) (EStateM.bind m' f' w')
    unfold EStateM.bind
    cases hresult : m w with
    | ok a u =>
      rw [hresult] at hground
      have hbefore : (m.heapAfter w).IsGrounded := by
        unfold Run.heapAfter
        rw [hresult]
        exact ((hf a).grows u).isGrounded hground
      have hagree := hm.agree hw hbefore
      rw [hresult] at hagree
      generalize m' w' = r at hagree
      cases hagree with
      | ok hu => exact (hf a).agree hu hground
    | error e u =>
      rw [hresult] at hground
      have hbefore : (m.heapAfter w).IsGrounded := by
        unfold Run.heapAfter
        rw [hresult]
        exact hground
      have hagree := hm.agree hw hbefore
      rw [hresult] at hagree
      generalize m' w' = r at hagree
      cases hagree with
      | error hu => exact .error hu

theorem Mirrored.map {t : α → β} (hm : Mirrored ρ base g m m') (ht : ∀ a, t (g a) = k (t a)) :
    Mirrored ρ base k (t <$> m) (t <$> m') := by
  have hpure : ∀ a, Mirrored ρ base k (pure (t a)) (pure (t (g a))) := fun a =>
    ht a ▸ mirrored_pure (t a)
  rw [← bind_pure_comp, ← bind_pure_comp]
  exact hm.bind hpure

/-- What is read of the world is the same but for addresses, in whatever sense, and so is what is
done with it. -/
theorem Mirrored.read {R : γ → γ → Prop} (p p' : World → γ) (f f' : γ → Run β)
    (htotal : ∀ c, ∃ c', R c c')
    (hp : ∀ {w w' : World}, w.MirrorsOver ρ base w' → w.heap.IsGrounded → R (p w) (p' w'))
    (hf : ∀ c c', R c c' → Mirrored ρ base k (f c) (f' c')) :
    Mirrored ρ base k (fun w => f (p w) w) fun w => f' (p' w) w where
  grows w := by
    obtain ⟨c', hc⟩ := htotal (p w)
    exact (hf _ _ hc).grows w
  agree {w w'} hw hground := by
    obtain ⟨c', hc⟩ := htotal (p w)
    have hbefore : w.heap.IsGrounded := ((hf _ _ hc).grows w).isGrounded hground
    exact (hf _ _ (hp hw hbefore)).agree hw hground

theorem Mirrored.lookAlike {R : γ → γ → Prop} {q q' : Heap → γ} {f f' : γ → Run β}
    (htotal : ∀ c, ∃ c', R c c')
    (hq : ∀ {h h' : Heap}, h.Mirrors ρ h' → h.IsGrounded → R (q h) (q' h'))
    (hf : ∀ c c', R c c' → Mirrored ρ base k (f c) (f' c')) :
    Mirrored ρ base k (Run.look q >>= f) (Run.look q' >>= f') :=
  Mirrored.read (fun w => q w.heap) (fun w => q' w.heap) f f' htotal
    (fun hw hground => hq hw.heap hground) hf

theorem Mirrored.look {g : γ → γ} {q q' : Heap → γ} {f f' : γ → Run β}
    (hq : ∀ {h h' : Heap}, h.Mirrors ρ h' → h.IsGrounded → q' h' = g (q h))
    (hf : ∀ c, Mirrored ρ base k (f c) (f' (g c))) :
    Mirrored ρ base k (Run.look q >>= f) (Run.look q' >>= f') :=
  Mirrored.lookAlike (R := fun c c' => c' = g c) (fun c => ⟨g c, rfl⟩) hq fun c _ hc => hc ▸ hf c

theorem Mirrored.lookSame {q q' : Heap → γ} {f f' : γ → Run β}
    (hq : ∀ {h h' : Heap}, h.Mirrors ρ h' → h.IsGrounded → q' h' = q h)
    (hf : ∀ c, Mirrored ρ base k (f c) (f' c)) :
    Mirrored ρ base k (Run.look q >>= f) (Run.look q' >>= f') :=
  Mirrored.look (g := id) hq hf

theorem Mirrored.lookContent (v : Value) {f f' : Content → Run β}
    (hf : ∀ c c' : Content, c.Mirrors ρ c' → Mirrored ρ base k (f c) (f' c')) :
    Mirrored ρ base k (Run.look (·.content v) >>= f) (Run.look (·.content (ρ.value v)) >>= f') :=
  Mirrored.lookAlike (Content.exists_mirrors ρ) (fun hh _ => hh.content v) hf

theorem Mirrored.inScopes {g : γ → γ} {q q' : Scopes → γ} {f f' : γ → Run β}
    (hq : ∀ {s s' : Scopes}, s.Mirrors ρ s' → q' s' = g (q s))
    (hf : ∀ c, Mirrored ρ base k (f c) (f' (g c))) :
    Mirrored ρ base k (Run.inScopes q >>= f) (Run.inScopes q' >>= f') :=
  Mirrored.read (R := fun c c' => c' = g c) (fun w => q w.scopes) (fun w => q' w.scopes) f f'
    (fun c => ⟨g c, rfl⟩) (fun hw _ => hq hw.scopes) fun c _ hc => hc ▸ hf c

theorem mirrored_onHeap {q q' : Heap → α × Heap} (hgrows : ∀ h : Heap, h.Precedes (q h).2)
    (hq : ∀ {h h' : Heap}, Heap.MirrorsOver ρ base h h' → (q h).2.IsGrounded →
      (q' h').1 = g (q h).1 ∧ Heap.MirrorsOver ρ base (q h).2 (q' h').2) :
    Mirrored ρ base g (Run.onHeap q) (Run.onHeap q') where
  grows w := hgrows w.heap
  agree {w w'} hw hground := by
    obtain ⟨hvalue, hover⟩ := hq hw.heapOver hground
    unfold Run.onHeap
    simp only [hvalue]
    exact .ok { hw with heap := hover.toMirrors, heapOver := hover }

theorem mirrored_append (whole : Value) (cell : CellId) (vs : List Value) :
    Mirrored ρ base ρ.value (Run.onHeap fun h => (whole, h.append cell vs))
      (Run.onHeap fun h => (ρ.value whole, h.append (ρ.cell cell) (vs.map ρ.value))) :=
  mirrored_onHeap (fun h => h.precedes_append cell vs) fun hh _ => ⟨rfl, hh.append cell vs⟩

theorem mirrored_reset (atom : AtomId) (v : Value) :
    Mirrored ρ base ρ.value (Run.onHeap fun h => (v, h.reset atom v))
      (Run.onHeap fun h => (ρ.value v, h.reset atom (ρ.value v))) :=
  mirrored_onHeap (fun h => h.precedes_reset atom v) fun hh _ => ⟨rfl, hh.reset atom v⟩

theorem mirrored_make {c c' : Content} (hc : c.Mirrors ρ c') :
    Mirrored ρ base ρ.value (Run.make c) (Run.make c') :=
  mirrored_onHeap (fun h => h.precedes_alloc _)
    fun hh _ => (Heap.isKept_mirrorsOver ρ base).make hh hc

theorem mirrored_makeList (vs : List Value) :
    Mirrored ρ base ρ.value (Run.makeList vs) (Run.makeList (vs.map ρ.value)) :=
  mirrored_onHeap (fun h => h.precedes_makeSequence ..) fun hh _ =>
    (Heap.isKept_mirrorsOver ρ base).makeList hh vs

theorem mirrored_makeVector (vs : List Value) :
    Mirrored ρ base ρ.value (Run.makeVector vs) (Run.makeVector (vs.map ρ.value)) :=
  mirrored_onHeap (fun h => h.precedes_makeSequence ..) fun hh _ =>
    (Heap.isKept_mirrorsOver ρ base).makeVector hh vs

theorem mirrored_build (d : Datum) : Mirrored ρ base ρ.value (Run.build d) (Run.build d) :=
  mirrored_onHeap (fun h => h.precedes_build d) fun hh hground =>
    (Heap.isKept_mirrorsOver ρ base).build d hh hground

theorem exists_map_entries (ρ : Renaming) (m : Entries) :
    ∃ n : Entries, n.toList = m.toList.map ρ.entry :=
  ⟨.ofList (m.toList.map ρ.entry), Sequence.toList_ofList _⟩

theorem mirrored_makeMap (alternating : List Value) :
    Mirrored ρ base ρ.value (Run.makeMap alternating) (Run.makeMap (alternating.map ρ.value)) :=
  Mirrored.lookAlike (exists_map_entries ρ) (fun hh hground => hh.entriesOf hground alternating)
    fun _ _ hentries => mirrored_make (.map hentries)

theorem mirrored_onScopes {q q' : Scopes → α × Scopes}
    (hq : ∀ {s s' : Scopes}, s.Mirrors ρ s' →
      (q' s').1 = g (q s).1 ∧ (q s).2.Mirrors ρ (q' s').2) :
    Mirrored ρ base g (Run.onScopes q) (Run.onScopes q') where
  grows w := .refl w.heap
  agree {w w'} hw _ := by
    obtain ⟨hvalue, hscopes⟩ := hq hw.scopes
    unfold Run.onScopes
    simp only [hvalue]
    exact .ok { hw with scopes := hscopes }

theorem mirrored_newFrame (outer : Option FrameId) {b b' : Bindings}
    (hb : ∀ name, b'.get? name = (b.get? name).map ρ.value) :
    Mirrored ρ base ρ.frame (Run.newFrame outer b) (Run.newFrame (outer.map ρ.frame) b') :=
  mirrored_onScopes fun hs => hs.push outer hb

theorem mirrored_define (f : FrameId) (name : Text) (v : Value) :
    Mirrored ρ base id (Run.define f name v) (Run.define (ρ.frame f) name (ρ.value v)) :=
  mirrored_onScopes fun hs => ⟨rfl, hs.define f name v⟩

theorem mirrored_lookup (f : FrameId) (name : Text) :
    Mirrored ρ base ρ.value (Run.lookup f name) (Run.lookup (ρ.frame f) name) := by
  refine Mirrored.inScopes (fun hs => hs.find? f name) fun found => ?_
  cases found with
  | none => exact mirrored_fault _
  | some v => exact mirrored_pure v

theorem mirrored_assign (f : FrameId) (name : Text) (v : Value) :
    Mirrored ρ base id (Run.assign f name v) (Run.assign (ρ.frame f) name (ρ.value v)) := by
  refine Mirrored.inScopes (fun hs => hs.resolve? f name) fun found => ?_
  cases found with
  | none => exact mirrored_fault _
  | some g => exact mirrored_define g name v

theorem mirrored_bindClosure (c : Closure) (args : List Value) :
    Mirrored ρ base ρ.frame (Run.bindClosure c args)
      (Run.bindClosure (ρ.closure c) (args.map ρ.value)) := by
  obtain ⟨scope, params, tail, body, isMacro⟩ := c
  simp only [Run.bindClosure, Renaming.closure]
  cases tail with
  | none =>
    rw [Run.bind_none, Run.bind_none, List.length_map]
    by_cases hlength : args.length ≠ params.length
    · simp only [if_pos hlength]
      exact mirrored_fault _
    · simp only [if_neg hlength]
      exact mirrored_newFrame (some scope) (Bindings.get?_ofPairs_map ρ params args)
  | some rest =>
    rw [Run.bind_some, Run.bind_some, List.length_map]
    by_cases hlength : args.length < params.length
    · simp only [if_pos hlength]
      exact mirrored_fault _
    · simp only [if_neg hlength, ← List.map_drop]
      refine (mirrored_makeList _).bind fun surplus => ?_
      refine mirrored_newFrame (some scope) fun name => ?_
      rw [Bindings.get?_put, Bindings.get?_put, Bindings.get?_ofPairs_map]
      by_cases hname : rest = name
      · rw [if_pos hname, if_pos hname]
        rfl
      · rw [if_neg hname, if_neg hname]

/-- A note changes nothing but the log. -/
theorem Run.exists_log (line : Heap → Text) (w : World) :
    ∃ log, Run.note (fun h => .ok (line h)) w = .ok () { w with log } := by
  unfold Run.note
  by_cases hlog : w.log.isEnabled
  · exact ⟨_, if_pos hlog⟩
  · exact ⟨w.log, if_neg hlog⟩

/-- What is noted makes no difference. -/
theorem mirrored_note (line line' : Heap → Text) :
    Mirrored ρ base id (Run.note (fun h => .ok (line h))) (Run.note (fun h => .ok (line' h))) := by
  refine ⟨fun w => ?_, fun {w w'} hw _ => ?_⟩
  · obtain ⟨log, hlog⟩ := Run.exists_log line w
    unfold Run.heapAfter
    rw [hlog]
    exact .refl w.heap
  · obtain ⟨log, hlog⟩ := Run.exists_log line w
    obtain ⟨log', hlog'⟩ := Run.exists_log line' w'
    rw [hlog, hlog']
    exact .ok { hw with }

end Computations

end Lisp
