import Lisp.Proofs.Evaluator.Written
import Lisp.Proofs.Heap.Embedding
import Lisp.Proofs.World.Mirror

/-!
Worlds inside worlds. A world that was only added to mirrors the world as it was, by a renaming that
leaves every address of that world as it is. Where a datum is built that the mirroring world has
built before, the renaming can be changed so that the worlds mirror each other again.
-/
namespace Lisp

namespace Renaming

/-- All that the world has keeps its address. -/
structure Fixes (ρ : Renaming) (w : World) : Prop where
  object : ∀ a < w.heap.objects.size, ρ.object a = a
  cell : ∀ c < w.heap.cells.size, ρ.cell c = c
  frame : ∀ f < w.scopes.frames.size, ρ.frame f = f

namespace Fixes

variable {ρ τ : Renaming} {w : World}

theorem value (hfix : ρ.Fixes w) {v : Value} (hv : w.heap.Has v) : ρ.value v = v := by
  cases v with
  | object address => exact congrArg Value.object (hfix.object address hv)
  | _ => rfl

/-- What is done with a larger heap is done with the world. -/
theorem sameOn (hfix : ρ.Fixes w) {h : Heap} (hsize : w.heap.NotSmaller h) (hsame : SameOn h ρ τ)
    (hframe : τ.frame = ρ.frame) : τ.Fixes w where
  object a ha := (hsame.object a (Nat.lt_of_lt_of_le ha hsize.objects)).trans (hfix.object a ha)
  cell c hc := (hsame.cell c (Nat.lt_of_lt_of_le hc hsize.cells)).trans (hfix.cell c hc)
  frame f hf := hframe ▸ hfix.frame f hf

end Fixes

end Renaming

namespace World

variable {w u : World}

theorem IsSound.outers_lt (hsound : w.IsSound) {f o : FrameId}
    (ho : o ∈ (w.scopes.frame f).outers) : o < f := by
  induction f using Nat.strong_induction_on generalizing o with
  | _ f ih =>
    cases houters : (w.scopes.frame f).outers with
    | nil => simp [houters] at ho
    | cons g rest =>
      obtain ⟨hlt, hpath⟩ := hsound.nested f g (by rw [Scopes.outer?, houters]; rfl)
      rw [hpath, Scopes.path] at ho
      rcases List.mem_cons.mp ho with rfl | hmem
      · exact hlt
      · exact Nat.lt_trans (ih g hlt hmem) hlt

section Adding

variable (hadds : w.Adds u)
include hadds

theorem Adds.frames_le : w.scopes.frames.size ≤ u.scopes.frames.size := by
  by_contra hlt
  have hlast : u.scopes.frames.size < w.scopes.frames.size := by omega
  have hthere := hadds.frames _ _ (Array.getElem?_eq_getElem hlast)
  simp at hthere

theorem Adds.frame {f : FrameId} (hf : f < w.scopes.frames.size) :
    u.scopes.frame f = w.scopes.frame f := by
  have hold : w.scopes.frames[f]? = some w.scopes.frames[f] := Array.getElem?_eq_getElem hf
  simp only [Scopes.frame, Array.getD_eq_getD_getElem?, hadds.frames f _ hold, hold]

/-- All addresses of a world stay, and those that are still to come go behind what was added. -/
theorem Adds.exists_renaming (hroot : root < w.scopes.frames.size) :
    ∃ ρ : Renaming, ρ.Fixes w ∧ ρ.Spares w.heap u.heap ∧
      (∀ n, ρ.object (w.heap.objects.size + n) = u.heap.objects.size + n) ∧
      (∀ n, ρ.cell (w.heap.cells.size + n) = u.heap.cells.size + n) ∧
      ∀ n, ρ.frame (w.scopes.frames.size + n) = u.scopes.frames.size + n := by
  have hinjective : ∀ {size next : Nat}, size ≤ next → (redirect id size 0 0 next).Injective :=
    fun hle => redirect_injective (fun _ => .inr (Nat.zero_le _)) (Nat.le_refl 0) (Nat.zero_le _)
      Function.injective_id fun _ ha => Nat.lt_of_lt_of_le ha hle
  have havoids : ∀ size next, Avoids (redirect id size 0 0 next) size next := by
    intro size next a
    rcases redirect_cases id size 0 0 next a with ⟨hold, ha⟩ | ⟨i, hi, _⟩ | ⟨i, _, ha⟩
    · exact .inl (ha ▸ hold)
    · exact absurd hi (Nat.not_lt_zero i)
    · exact .inr (ha ▸ Nat.le_add_right next i)
  have hnext : ∀ size next n, redirect id size 0 0 next (size + n) = next + n := fun _ _ _ =>
    redirect_next
  let ρ : Renaming :=
    { object := redirect id w.heap.objects.size 0 0 u.heap.objects.size
      cell := redirect id w.heap.cells.size 0 0 u.heap.cells.size
      frame := redirect id w.scopes.frames.size 0 0 u.scopes.frames.size
      object_injective := hinjective hadds.heap.objects_le
      cell_injective := hinjective hadds.heap.cells_le
      frame_injective := hinjective hadds.frames_le
      frame_zero := redirect_old hroot }
  exact ⟨ρ, ⟨fun _ => redirect_old, fun _ => redirect_old, fun _ => redirect_old⟩,
    ⟨havoids _ _, havoids _ _⟩, hnext _ _, hnext _ _, hnext _ _⟩

end Adding

/-- The heap and the frames were added to, and nothing else was done. -/
structure AddsOnly (w u : World) : Prop extends Adds w u where
  atoms : u.heap.atoms = w.heap.atoms
  generated : u.generated = w.generated
  console : u.console = w.console
  host : u.host = w.host

namespace AddsOnly

variable {x : World}

theorem refl (w : World) : w.AddsOnly w := ⟨.refl w, rfl, rfl, rfl, rfl⟩

theorem trans (hwu : w.AddsOnly u) (hux : u.AddsOnly x) : w.AddsOnly x where
  toAdds := hwu.toAdds.trans hux.toAdds
  atoms := hux.atoms.trans hwu.atoms
  generated := hux.generated.trans hwu.generated
  console := hux.console.trans hwu.console
  host := hux.host.trans hwu.host

theorem make {c : Content} {v : Value} (h : Run.make c w = .ok v u) : w.AddsOnly u := by
  cases h
  exact ⟨(Adds.make rfl).1, rfl, rfl, rfl, rfl⟩

theorem build {d : Datum} {v : Value} (h : Run.build d w = .ok v u) : w.AddsOnly u := by
  cases h
  obtain ⟨_, _, hatoms, hclosures, hnatives⟩ := w.heap.build_behind d
  exact ⟨⟨w.heap.grows_build d, hclosures, hnatives, fun _ _ hfr => hfr⟩, hatoms, rfl, rfl, rfl⟩

theorem newFrame {outer : Option FrameId} {bindings : Bindings} {inner : FrameId}
    (h : Run.newFrame outer bindings w = .ok inner u) : w.AddsOnly u := by
  cases h
  exact ⟨(Adds.newFrame rfl).1, rfl, rfl, rfl, rfl⟩

end AddsOnly

/-- A world that was only added to mirrors what it was. -/
theorem AddsOnly.exists_mirrorsOver (hadds : w.AddsOnly u) (hsound : w.IsSound)
    (hroot : root < w.scopes.frames.size) :
    ∃ ρ : Renaming, ρ.Fixes w ∧ ρ.Spares w.heap u.heap ∧ w.MirrorsOver ρ u.heap u := by
  obtain ⟨ρ, hfix, hspares, hobject, hcell, hframe⟩ := hadds.exists_renaming hroot
  have hsame : Renaming.SameOn w.heap .identity ρ := ⟨hfix.object, hfix.cell⟩
  have hcopies : w.heap.Copies ρ u.heap :=
    (hadds.heap.embeds.congr hsound.heap hsame).copies hobject hcell
  have hvalues : w.heap.atoms.map ρ.value = w.heap.atoms := by
    conv => rhs; rw [← Array.map_id w.heap.atoms]
    exact Array.map_congr_left fun v hv => hfix.value (hsound.heap.has_atom hv)
  have hfunctions : w.heap.closures.map ρ.closure = w.heap.closures := by
    conv => rhs; rw [← Array.map_id w.heap.closures]
    refine Array.map_congr_left fun c hc => ?_
    have hbody := hfix.value (hsound.heap.has_body hc)
    obtain ⟨i, hi, rfl⟩ := Array.mem_iff_getElem.mp hc
    have hscope : w.heap.closures[i].scope < w.scopes.frames.size := by
      simpa [Heap.closure, hi] using hsound.scope i hi
    simp only [Renaming.closure, hbody, hfix.frame _ hscope, id]
  have hover : Heap.MirrorsOver ρ u.heap w.heap u.heap :=
    { hcopies with
      atoms := by rw [hadds.atoms, hvalues]
      closures := by rw [hadds.closures, hfunctions]
      natives := hadds.natives
      old := fun _ _ ho => ho
      oldCells := Nat.le_refl _
      kept := fun _ _ _ => rfl }
  refine ⟨ρ, hfix, hspares, ⟨hover.toMirrors, ⟨fun f name => ?_, fun f => ?_, hframe⟩,
    hadds.generated, by rw [hadds.console], by rw [hadds.console], hadds.host⟩, hover⟩
  · by_cases hf : f < w.scopes.frames.size
    · rw [hfix.frame f hf, Scopes.get?, hadds.frame hf]
      cases hv : (w.scopes.frame f).bindings.get? name with
      | none => simp [Scopes.get?, hv]
      | some v => simp [Scopes.get?, hv, hfix.value (hsound.bound f name v hv)]
    · obtain ⟨n, rfl⟩ := Nat.exists_eq_add_of_le (Nat.le_of_not_lt hf)
      simp [hframe, Scopes.get?, Scopes.frame, Array.getD_eq_getD_getElem?]
  · by_cases hf : f < w.scopes.frames.size
    · rw [hfix.frame f hf, hadds.frame hf]
      conv => lhs; rw [← List.map_id (w.scopes.frame f).outers]
      exact List.map_congr_left fun o ho =>
        (hfix.frame o (Nat.lt_trans (hsound.outers_lt ho) hf)).symm
    · obtain ⟨n, rfl⟩ := Nat.exists_eq_add_of_le (Nat.le_of_not_lt hf)
      simp [hframe, Scopes.frame, Array.getD_eq_getD_getElem?]

/-- A datum is built that was built in the other world already. -/
theorem MirrorsOver.exists_extension {ρ : Renaming} {base g stop : Heap} {d : Datum}
    (hsound : w.IsSound) (hm : w.MirrorsOver ρ base u) (hspares : ρ.Spares g stop)
    (hbuilt : (g.build d).2.Grows stop) (hstop : stop.Grows base) :
    ∃ τ : Renaming, Renaming.SameOn w.heap ρ τ ∧ τ.frame = ρ.frame ∧
      τ.value (w.heap.build d).1 = (g.build d).1 ∧
      { w with heap := (w.heap.build d).2 }.MirrorsOver τ base u ∧
      τ.Spares (g.build d).2 stop := by
  obtain ⟨τ, hsame, hframe, hvalue, hover, hspared⟩ :=
    hm.heapOver.exists_extension hsound.heap hspares hbuilt hstop
  refine ⟨τ, hsame, hframe, hvalue, ?_, hspared⟩
  refine ⟨⟨hover.toMirrors, ⟨fun f name => ?_, ?_, ?_⟩, hm.generated, hm.written, hm.room, hm.host⟩,
    hover⟩
  · rw [hframe, hm.scopes.get?]
    cases hv : w.scopes.get? f name with
    | none => rfl
    | some v => simp [hsame.value (hsound.bound f name v hv)]
  · exact hframe ▸ hm.scopes.outers
  · exact hframe ▸ hm.scopes.nextFrame

end World

end Lisp
