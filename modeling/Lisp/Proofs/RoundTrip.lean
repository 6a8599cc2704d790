import Lisp.Proofs.Datum.Origin
import Lisp.Proofs.Heap.Building
import Lisp.Proofs.Heap.Rendering

/-!
Writing what was read. The value built of a datum that was read is written as a text that reads as
an equal value, unless the value holds a double from 2^64 up to, but without, 10^21: the text of
such a double starts with digits that no integer has, and it is refused.
-/
namespace Lisp

/-- A datum that is no double with the property. -/
def Datum.Avoids (p : Float → Prop) : Datum → Prop
  | .float x => ¬ p x
  | _ => True

namespace Heap

/-- Somewhere inside the value there is a double with the property. -/
inductive HoldsDouble (h : Heap) (p : Float → Prop) : Value → Prop
  | here {v : Value} {x : Float} (hv : h.content? v = some (.float x)) (hx : p x) :
      HoldsDouble h p v
  | inside {v u : Value} {b : Bracket} {vs : List Value} (hv : h.parts? v = some (b, vs))
      (hu : u ∈ vs) (hin : HoldsDouble h p u) : HoldsDouble h p v

/-- Somewhere inside the value there is a double from 2^64 up to, but without, 10^21, or the
negative of one. -/
def HoldsVast (h : Heap) (v : Value) : Prop :=
  h.HoldsDouble (fun x => Number.IsVast (Number.magnitude x)) v

theorem HoldsDouble.not_each {h : Heap} {p : Float → Prop} {v : Value} (hv : h.HoldsDouble p v)
    {d : Datum} (hd : h.Unfolds v d) : ¬ d.Each (Datum.Avoids p) := by
  induction hv generalizing d with
  | here hv hx =>
    cases hd.unique (show h.Unfolds _ (.float _) from hv)
    exact fun hnone => hnone hx
  | inside hv hu _ ih =>
    rcases d.leaf_or_group with hleaf | ⟨b, items, rfl⟩
    · rw [parts?_eq_none hd hleaf] at hv
      cases hv
    · obtain ⟨vs, hparts, hitems⟩ := unfolds_group.mp hd
      rw [hv] at hparts
      cases hparts
      obtain ⟨item, hitem, hunfolds⟩ := exists_of_mem_right hitems.flip hu
      intro hnone
      exact ih hunfolds ((Datum.each_group.mp hnone).2 item hitem)

theorem holdsDouble_of_not_each {h : Heap} {p : Float → Prop} {v : Value} {d : Datum}
    (hd : h.Unfolds v d) (hsome : ¬ d.Each (Datum.Avoids p)) : h.HoldsDouble p v := by
  induction d generalizing v with
  | float x => exact .here hd (not_not.mp hsome)
  | group b items ih =>
    obtain ⟨vs, hparts, hitems⟩ := unfolds_group.mp hd
    have hitem : ∃ item ∈ items, ¬ item.Each (Datum.Avoids p) := by
      by_contra hnone
      refine hsome (Datum.each_group.mpr ⟨trivial, fun item hmem => ?_⟩)
      exact not_not.mp fun hin => hnone ⟨item, hmem, hin⟩
    obtain ⟨item, hmem, hin⟩ := hitem
    obtain ⟨u, hu, hunfolds⟩ := exists_of_mem_right hitems hmem
    exact .inside hparts hu (ih item hmem hunfolds hin)
  | _ => exact absurd trivial hsome

end Heap

namespace Datum

/-- Settling keeps what was read as it was. -/
theorem each_isRead_settled {d : Datum} (h : d.Each IsRead) : d.settled.Each IsRead := by
  refine h.settled fun b xs ys hgroup heven => ⟨trivial, heven⟩

theorem isNumber_of_isRead {d : Datum} (h : d.IsRead) : d.IsNumber := by
  cases d with
  | float x =>
    have hle : Number.magnitude x ≤ Number.infinityCode := le_of_lt h
    simp [IsNumber, Number.same, hle]
  | _ => trivial

theorem isSpelled_of_isRead {d : Datum} (h : d.IsRead) : d.IsSpelled := by
  cases d with
  | float x => exact isSpelled_float h
  | _ => exact h.1

/-- A datum that was read is readable again, or it is a vast double and refused. -/
theorem readable_iff_of_isRead {d : Datum} (h : d.IsRead) :
    (d.Avoids (fun x => Number.IsVast (Number.magnitude x)) ↔ d.IsReadable) ∧
      (d.IsReadable ∨ d.IsRefused) := by
  cases d with
  | float x =>
    by_cases hvast : Number.IsVast (Number.magnitude x)
    · have hrefused := isRefused_float h hvast
      refine ⟨⟨fun hnot => absurd hvast hnot, fun hread => ?_⟩, Or.inr hrefused⟩
      exact absurd hread hrefused.not_isReadable
    · have hread := isReadable_float h hvast
      exact ⟨⟨fun _ => hread, fun _ => hvast⟩, Or.inl hread⟩
  | _ => exact ⟨⟨fun _ => h.2, fun _ => trivial⟩, Or.inl h.2⟩

/-- Writing what was built of a datum that was read, and reading the text. The result is equal,
unless a double from 2^64 up to, but without, 10^21 makes the reading fail. -/
theorem read_render_build {source : Text} {d : Datum} (hread : read source = .ok d) (h : Heap) :
    (¬ (h.build d).2.HoldsVast (h.build d).1 →
      ∃ e, read ((h.build d).2.render .readable (h.build d).1) = .ok e ∧
        ((h.build d).2.build e).2.equal (h.build d).1 ((h.build d).2.build e).1 = true) ∧
    ((h.build d).2.HoldsVast (h.build d).1 →
      ∃ error, read ((h.build d).2.render .readable (h.build d).1) = .error error) := by
  have horigin := each_isRead hread
  have hsettled := each_isRead_settled horigin
  have htidy := tidy_settled (horigin.imp fun _ => isNumber_of_isRead)
  obtain ⟨_, hbuilt⟩ := h.build_spec (horigin.imp fun _ => isNumber_of_isRead)
  rw [Heap.render_eq_text hbuilt]
  generalize (h.build d).1 = v at *
  generalize (h.build d).2 = g at *
  generalize d.settled = e at *
  have hspelled := hsettled.imp fun _ => isSpelled_of_isRead
  constructor
  · intro hnone
    have havoids : e.Each (Avoids fun x => Number.IsVast (Number.magnitude x)) :=
      not_not.mp fun hsome => hnone (Heap.holdsDouble_of_not_each hbuilt hsome)
    have hreadable : e.Each IsReadable :=
      (hsettled.and havoids).imp fun _ hd => (readable_iff_of_isRead hd.1).1.mp hd.2
    obtain ⟨r, hnext, _⟩ := next_ofText_text hspelled hreadable
    obtain ⟨hgrows, hagain⟩ := g.build_spec (hsettled.imp fun _ => isNumber_of_isRead)
    rw [settled_eq_self htidy] at hagain
    refine ⟨e, by rw [read, hnext], ?_⟩
    rw [Heap.equal_eq_same (hgrows.unfolds hbuilt) hagain htidy htidy, same_self htidy]
  · intro hsome
    refine read_text_refused hspelled
      (hsettled.imp fun _ hd => (readable_iff_of_isRead hd).2) fun hreadable => ?_
    refine hsome.not_each hbuilt ?_
    exact (hsettled.and hreadable).imp fun _ hd => (readable_iff_of_isRead hd.1).1.mpr hd.2

/-- Both sides of the upper bound: `1e20` is written as `100000000000000000000.0`, which is refused,
and `1e21` comes back. -/
theorem read_render_build_bounds :
    (∃ d, read (Text.of "1e20") = .ok d ∧
      ∃ error, read ((Heap.build {} d).2.render .readable (Heap.build {} d).1) = .error error) ∧
    ∃ d, read (Text.of "1e21") = .ok d ∧
      ∃ e, read ((Heap.build {} d).2.render .readable (Heap.build {} d).1) = .ok e ∧
        ((Heap.build {} d).2.build e).2.equal (Heap.build {} d).1
          ((Heap.build {} d).2.build e).1 = true := by
  have hword : ∀ (digit : UInt8) (x : Float), IsWord [49, 101, 50, digit] →
      Number.looksNumeric [49, 101, 50, digit] = true →
      Number.scanInteger [49, 101, 50, digit] = .notOne →
      Number.scanDouble [49, 101, 50, digit] = .value x →
      read [49, 101, 50, digit] = .ok (.float x) := by
    intro digit x hplain hnumeric hinteger hdouble
    refine read_word hplain ?_
    simp only [ofAtom_of_isWord hplain, ofWord_cons, hnumeric, hinteger, hdouble, if_true]
  have hvast : read (Text.of "1e20") = .ok (.float (Float.ofBits 0x4415AF1D78B58C40)) :=
    hword 48 _ (by decide) (by decide) (by decide) (by decide +kernel)
  have hnext : read (Text.of "1e21") = .ok (.float (Float.ofBits 0x444B1AE4D6E2EF50)) :=
    hword 49 _ (by decide) (by decide) (by decide) (by decide +kernel)
  refine ⟨⟨_, hvast, (read_render_build hvast {}).2 (.here rfl ?_)⟩,
    ⟨_, hnext, (read_render_build hnext {}).1 ?_⟩⟩
  · decide +kernel
  · rintro (⟨hcontent, hx⟩ | ⟨hparts, _, _⟩)
    · cases hcontent
      revert hx
      decide +kernel
    · cases hparts

end Datum

end Lisp
