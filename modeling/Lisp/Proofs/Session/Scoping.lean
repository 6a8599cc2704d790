import Lisp.Proofs.Session.Reachable
import Lisp.Proofs.World.Resolution

/-!
Scopes do not leak. An evaluation adds names only to the frame it is run in, to the outermost frame,
where the native `eval` works, and to frames that it makes itself. All other frames keep their
names, and no frame is ever moved: frames lie inside older frames, so that looking a name up is a
walk outwards that ends.
-/
namespace Lisp

namespace Scopes

/-- All frames are kept, and those that may not be added to have no new names. -/
structure Kept (bind : FrameId → Prop) (s s' : Scopes) : Prop where
  size : s.frames.size ≤ s'.frames.size
  outers : ∀ g < s.frames.size, (s'.frame g).outers = (s.frame g).outers
  names : ∀ g < s.frames.size, ∀ name ∈ s.names g, name ∈ s'.names g
  others : ∀ g < s.frames.size, ¬ bind g → ∀ name ∈ s'.names g, name ∈ s.names g

variable {bind : FrameId → Prop} {s s' s'' : Scopes}

theorem Kept.refl : Kept bind s s :=
  ⟨Nat.le_refl _, fun _ _ => rfl, fun _ _ _ hname => hname, fun _ _ _ _ hname => hname⟩

theorem Kept.trans (hab : Kept bind s s') (hbc : Kept bind s' s'') : Kept bind s s'' where
  size := Nat.le_trans hab.size hbc.size
  outers g hg := (hbc.outers g (Nat.lt_of_lt_of_le hg hab.size)).trans (hab.outers g hg)
  names g hg name hname :=
    hbc.names g (Nat.lt_of_lt_of_le hg hab.size) name (hab.names g hg name hname)
  others g hg hbind name hname :=
    hab.others g hg hbind name (hbc.others g (Nat.lt_of_lt_of_le hg hab.size) hbind name hname)

theorem mem_names {g : FrameId} {name : Text} : name ∈ s.names g ↔ (s.get? g name).isSome :=
  Bindings.mem_names

theorem kept_push (outer : Option FrameId) (bindings : Bindings) :
    Kept bind s (s.push outer bindings).2 := by
  have hframe : ∀ g < s.frames.size, (s.push outer bindings).2.frame g = s.frame g :=
    fun g hg => by rw [frame_push, if_neg (Nat.ne_of_lt hg)]
  refine ⟨by simp, fun g hg => ?_, fun g hg name hname => ?_, fun g hg _ name hname => ?_⟩
  · rw [hframe g hg]
  · rwa [Scopes.names, hframe g hg]
  · rwa [Scopes.names, hframe g hg] at hname

/-- A name is bound in a frame that may be added to, or that binds it already. -/
theorem kept_define {f : FrameId} {name : Text} (v : Value)
    (hf : bind f ∨ (s.get? f name).isSome) : Kept bind s (s.define f name v) := by
  refine ⟨by simp, fun g _ => outers_define s f g name v, fun g _ other hother => ?_,
    fun g _ hg other hother => ?_⟩
  · rw [mem_names, get?_define]
    split
    · rfl
    · exact mem_names.mp hother
  · rw [mem_names, get?_define] at hother
    split at hother
    · rename_i hsame
      obtain ⟨rfl, _, rfl⟩ := hsame
      rcases hf with hbind | hbound
      · exact absurd hbind hg
      · exact mem_names.mpr hbound
    · exact mem_names.mpr hother

end Scopes

namespace World

variable {may : Licence} {w w' : World}

theorem Step.keptScopes (hstep : Step may w w') : w.scopes.Kept may.bind w'.scopes := by
  cases hstep with
  | heap _ => exact .refl
  | frame outer bindings _ _ => exact Scopes.kept_push outer bindings
  | define name hbind _ => exact Scopes.kept_define _ (.inl hbind)
  | assign hbound _ => exact Scopes.kept_define _ (.inr hbound)
  | other _ hscopes => exact hscopes ▸ .refl

theorem Steps.keptScopes (hsteps : Steps may w w') : w.scopes.Kept may.bind w'.scopes := by
  induction hsteps with
  | refl => exact .refl
  | tail _ hstep ih => exact ih.trans hstep.keptScopes

theorem IsSound.find? (hsound : w.IsSound) (g : FrameId) (name : Text) :
    w.scopes.find? g name =
      (w.scopes.get? g name).or ((w.scopes.outer? g).bind (w.scopes.find? · name)) :=
  Scopes.IsForest.find? hsound.nested g name

theorem IsSound.resolve? (hsound : w.IsSound) (g : FrameId) (name : Text) :
    w.scopes.resolve? g name =
      if (w.scopes.get? g name).isSome then some g
      else (w.scopes.outer? g).bind (w.scopes.resolve? · name) :=
  Scopes.IsForest.resolve? hsound.nested g name

end World

namespace Session

open World

/-- To bind names in a frame, in the outermost frame, and in all frames that are not there yet. -/
def licenceIn (w : World) (frame : FrameId) : Licence :=
  ⟨fun g => g = frame ∨ g = World.root ∨ w.scopes.frames.size ≤ g, True, fun _ _ => True⟩

theorem steps_eval {w : World} (hw : Reachable w) (limit depth : Nat) {form : Value}
    {frame : FrameId} (hform : w.heap.Has form) (hframe : frame < w.scopes.frames.size) :
    Steps (licenceIn w frame) w (w.after (Evaluator.eval limit depth form frame)) := by
  have hready : w.Ready (licenceIn w frame) :=
    ⟨hw.ready.sound, ⟨hw.ready.root.1, .inr (.inl rfl)⟩, fun f hf => .inr (.inr hf)⟩
  have hopens : w.Opens (licenceIn w frame) frame := ⟨hframe, .inl rfl⟩
  have hstandard : Library.standard.Behaves (licenceIn w frame) := Library.behaves_standard trivial
  have hbehaves := Evaluator.behaves_eval hstandard limit depth
  exact (hbehaves w form frame hready hform hopens).steps

/-- An evaluation keeps the frames that were there: each lies where it lay and loses no name, and
only its own frame and the outermost one get new names. Frames lie inside older frames, so looking
a name up, to read it or to bind it anew, is a recursion along them that ends. -/
theorem evaluation_keeps_scopes {w : World} (hw : Reachable w) (limit depth : Nat) {form : Value}
    {frame : FrameId} (hform : w.heap.Has form) (hframe : frame < w.scopes.frames.size) :
    let s := w.scopes
    let s' := (w.after (Evaluator.eval limit depth form frame)).scopes
    (∀ g < s.frames.size, s'.outer? g = s.outer? g ∧ (∀ name ∈ s.names g, name ∈ s'.names g) ∧
      (g ≠ frame → g ≠ World.root → ∀ name, name ∈ s'.names g ↔ name ∈ s.names g)) ∧
    (∀ g o, s'.outer? g = some o → o < g) ∧ WellFounded (fun o g => s'.outer? g = some o) ∧
    ∀ g name,
      s'.find? g name = (s'.get? g name).or ((s'.outer? g).bind (s'.find? · name)) ∧
      s'.resolve? g name =
        if (s'.get? g name).isSome then some g else (s'.outer? g).bind (s'.resolve? · name) := by
  intro s s'
  have hsteps := steps_eval hw limit depth hform hframe
  have hkept := hsteps.keptScopes
  have hsound := hw.ready.sound.steps hsteps
  have holder : ∀ g o, s'.outer? g = some o → o < g := fun g o ho => (hsound.nested g o ho).1
  refine ⟨fun g hg => ⟨?_, hkept.names g hg, fun hown hroot name => ⟨?_, hkept.names g hg name⟩⟩,
    holder, ?_, fun g name => ⟨hsound.find? g name, hsound.resolve? g name⟩⟩
  · exact congrArg List.head? (hkept.outers g hg)
  · refine hkept.others g hg ?_ name
    rintro (rfl | rfl | hnew)
    · exact hown rfl
    · exact hroot rfl
    · exact Nat.lt_irrefl g (Nat.lt_of_lt_of_le hg hnew)
  · exact Subrelation.wf (fun {o g} ho => holder g o ho) Nat.lt_wfRel.wf

/-- A session with a frame inside the outermost one, and another inside that. -/
def nest : World :=
  ((start [] false {}).after (Run.newFrame (some 0) {})).after (Run.newFrame (some 1) {})

/-- `((fn* [x] (def! y x)) nil)` -/
def definesInside : Datum :=
  .group .round [.group .round [.symbol Special.function.name,
    .group .square [.symbol (Text.of "x")],
    .group .round [.symbol Special.define.name, .symbol (Text.of "y"), .symbol (Text.of "x")]],
    .nil]

/-- A function that defines a name does so in the frame of its call. -/
theorem evaluation_keeps_scopes_nest :
    let w := nest.after (Run.build definesInside)
    let s' := (w.after (Evaluator.eval 9 9 (nest.heap.build definesInside).1 2)).scopes
    s'.names 3 = [Text.of "x", Text.of "y"] ∧ s'.outer? 3 = some 2 ∧
      s'.outer? 1 = w.scopes.outer? 1 ∧ ∀ name, name ∈ s'.names 1 ↔ name ∈ w.scopes.names 1 := by
  intro w s'
  have hlater : Later (start [] false {}) w :=
    ((Relation.ReflTransGen.single (Action.nest (by decide +kernel))).tail
      (Action.nest (by decide +kernel))).tail (Action.build definesInside)
  have hreach : Reachable w := ⟨[], false, {}, rfl, rfl, hlater⟩
  have hform : w.heap.Has (nest.heap.build definesInside).1 := by decide +kernel
  have hframe : 2 < w.scopes.frames.size := by decide +kernel
  obtain ⟨houter, _, hnames⟩ :=
    (evaluation_keeps_scopes hreach 9 9 hform hframe).1 1 (by decide +kernel)
  exact ⟨by decide +kernel, by decide +kernel, houter, hnames (by decide) (by decide)⟩

end Session

end Lisp
