import Lisp.Proofs.Heap.Termination
import Lisp.Proofs.Heap.Unfolding

/-!
The readable text of a value that unfolds to a tree is the text of the tree: nothing in it is cut
short, neither because it is open already nor because it lies too deep. For every other value, too,
the depth that rendering is given is enough: between two openings of a place it goes through maps
and errors only, which do not lead back to themselves.
-/
namespace Lisp.Heap

theorem map_eq_map_of_forall₂ {α : Type} {h : Heap} {vs : List Value} {items : List Datum}
    {f : Value → α} {g : Datum → α} (hitems : List.Forall₂ h.Unfolds vs items)
    (heq : ∀ d ∈ items, ∀ v, h.Unfolds v d → f v = g d) : vs.map f = items.map g := by
  induction hitems with
  | nil => rfl
  | cons hv _ ih =>
    rw [List.map_cons, List.map_cons, heq _ List.mem_cons_self _ hv,
      ih fun d hd => heq d (List.mem_cons_of_mem _ hd)]

/-- The cells that are open while a rendering goes on. -/
def OpenIn (opened : Trail) (cell : CellId) : Prop :=
  opened.contains (Place.sequence cell).mark = true

theorem openIn_add (opened : Trail) (cell : CellId) :
    OpenIn (opened.add (Place.sequence cell).mark) =
      fun other => other = cell ∨ OpenIn opened other := by
  funext other
  simp only [OpenIn, Trail.contains_add, Bool.or_eq_true, beq_iff_eq, eq_iff_iff]
  refine or_congr_left ⟨fun hmark => ?_, fun heq => by rw [heq]⟩
  cases Place.mark_injective hmark
  rfl

/-- The parts of a collection are written one after the other, each with the collection open. -/
theorem renderWithin_group {h : Heap} {v : Value} {b : Bracket} {vs : List Value}
    {items : List Datum} {opened : Trail} (hparts : h.parts? v = some (b, vs))
    (hitems : List.Forall₂ h.Unfolds vs items) (hin : h.Inside (OpenIn opened) (.group b items))
    (fuel : Nat) :
    ∃ inner, (∀ d ∈ items, h.Inside (OpenIn inner) d) ∧
      h.renderWithin .readable (fuel + 1) opened v =
        [b.opener] ++ Text.join [32] (vs.map (h.renderWithin .readable fuel inner)) ++
          [b.closer] := by
  have hopened {cell : CellId} {values : Sequence Value} (hcell : h.cells[cell]? = some values)
      (hvalues : List.Forall₂ h.Unfolds values.toList items) :
      opened.contains (Place.sequence cell).mark = false ∧
        ∀ d ∈ items, h.Inside (OpenIn (opened.add (Place.sequence cell).mark)) d := by
    refine ⟨Bool.eq_false_iff.mpr (hin.not_open hcell hvalues), fun d hd => ?_⟩
    rw [openIn_add]
    exact hin.open hcell hvalues hd
  rcases parts?_cases hparts with ⟨cell, values, rfl, hc, hcell, rfl⟩ |
    ⟨cell, values, rfl, hc, hcell, rfl⟩ | ⟨entries, rfl, hc, rfl⟩
  · obtain ⟨hclosed, hinner⟩ := hopened hcell hitems
    refine ⟨_, hinner, ?_⟩
    rw [renderWithin, content_of_content? hc]
    simp [sequenceText, hclosed, items_eq hcell, Bracket.opener, Bracket.closer]
  · obtain ⟨hclosed, hinner⟩ := hopened hcell hitems
    refine ⟨_, hinner, ?_⟩
    rw [renderWithin, content_of_content? hc]
    simp [sequenceText, hclosed, items_eq hcell, Bracket.opener, Bracket.closer]
  · refine ⟨opened, fun d hd => hin.item hd, ?_⟩
    rw [renderWithin, content_of_content? hc]
    rfl

theorem renderWithin_eq {h : Heap} {v : Value} {d : Datum} {opened : Trail} {fuel : Nat}
    (hv : h.Unfolds v d) (hin : h.Inside (OpenIn opened) d) (hfuel : d.height ≤ fuel + 1) :
    h.renderWithin .readable (fuel + 1) opened v = d.text := by
  induction d generalizing v opened fuel with
  | group b items ih =>
    obtain ⟨vs, hparts, hitems⟩ := unfolds_group.mp hv
    obtain ⟨inner, hinner, heq⟩ := renderWithin_group hparts hitems hin fuel
    have hitem : ∀ d ∈ items, ∀ v, h.Unfolds v d →
        h.renderWithin .readable fuel inner v = d.text := by
      intro d hd v hv
      have hlt : d.height < (Datum.group b items).height := Datum.height_lt_group hd
      have hpos := d.height_pos
      obtain ⟨n, rfl⟩ : ∃ n, fuel = n + 1 := Nat.exists_eq_succ_of_ne_zero (by omega)
      exact ih d hd hv (hinner d hd) (by omega)
    rw [heq, map_eq_map_of_forall₂ hitems hitem, Datum.text_group]
    simp
  | string s =>
    obtain ⟨r, hr, rfl⟩ := hv
    rw [renderWithin, content_of_content? hr]
    rfl
  | bool b =>
    rw [renderWithin, content_of_content? hv]
    cases b <;> rfl
  | _ =>
    rw [renderWithin, content_of_content? hv]
    rfl

theorem render_eq_text {h : Heap} {v : Value} {d : Datum} (hv : h.Unfolds v d) :
    h.render .readable v = d.text := by
  have hle := hv.height_le
  have hdepth : 1 * (h.objects.size + 2) ≤ h.renderingDepth :=
    Nat.mul_le_mul_right _ (Nat.le_add_left ..)
  obtain ⟨fuel, hfuel⟩ : ∃ n, h.renderingDepth = n + 1 :=
    Nat.exists_eq_succ_of_ne_zero (by omega)
  have hin : h.Inside (OpenIn {}) d := by
    intro cell items ds hopen
    simp [OpenIn] at hopen
  rw [render_eq, hfuel, renderWithin_eq hv hin (by omega)]

section Depth

variable {h : Heap} {opened : Trail} {v : Value}

/-- What is rendered, with the places that are open around it, when a value is. -/
inductive Renders (h : Heap) : Trail × Value → Trail × Value → Prop
  | element {opened : Trail} {v x : Value} {cell : CellId} :
    h.content v = .list cell ∨ h.content v = .vector cell →
    opened.contains (Place.sequence cell).mark = false → x ∈ h.items cell →
    Renders h (opened, v) (opened.add (Place.sequence cell).mark, x)
  | enclosed {opened : Trail} {v x : Value} : h.Encloses v x → Renders h (opened, v) (opened, x)
  | atom {opened : Trail} {v : Value} {atom : AtomId} :
    h.content v = .atom atom → opened.contains (Place.atom atom).mark = false →
    Renders h (opened, v) (opened.add (Place.atom atom).mark, h.deref atom)

/-- The marks of all places. -/
def marks (h : Heap) : Finset (Nat × Nat) :=
  (Finset.range h.cells.size).image (fun cell => (Place.sequence cell).mark) ∪
    (Finset.range h.atoms.size).image fun atom => (Place.atom atom).mark

theorem card_marks_le : h.marks.card ≤ h.cells.size + h.atoms.size := by
  refine (Finset.card_union_le ..).trans (Nat.add_le_add ?_ ?_)
  · exact Finset.card_image_le.trans_eq (Finset.card_range _)
  · exact Finset.card_image_le.trans_eq (Finset.card_range _)

/-- The number of places that can still be opened counts most, then what is enclosed. -/
noncomputable def renderingRank (h : Heap) (q : Trail × Value) : Nat :=
  {mark ∈ h.marks | q.1.contains mark = false}.card * (h.objects.size + 2) +
    (h.reached h.Encloses q.2).card

theorem renderingRank_lt_renderingDepth (q : Trail × Value) :
    h.renderingRank q < h.renderingDepth := by
  have hmarks : {mark ∈ h.marks | q.1.contains mark = false}.card ≤ h.cells.size + h.atoms.size :=
    (Finset.card_filter_le ..).trans card_marks_le
  have henclosed : (h.reached h.Encloses q.2).card ≤ h.objects.size := card_reached_le
  have hplaces := Nat.mul_le_mul_right (h.objects.size + 2) hmarks
  rw [renderingRank, renderingDepth, Nat.succ_mul]
  omega

theorem unopened_add_subset (mark : Nat × Nat) :
    {m ∈ h.marks | (opened.add mark).contains m = false} ⊆
      {m ∈ h.marks | opened.contains m = false} := by
  intro m hm
  obtain ⟨hmark, hclosed⟩ := Finset.mem_filter.mp hm
  rw [Trail.contains_add, Bool.or_eq_false_iff] at hclosed
  exact Finset.mem_filter.mpr ⟨hmark, hclosed.2⟩

theorem reached_nil : h.reached h.Encloses .nil = ∅ := by
  refine Finset.eq_empty_of_forall_notMem fun address haddress => ?_
  obtain ⟨_, hreach⟩ := mem_reached.mp haddress
  rcases hreach.cases_head with heq | ⟨x, hx, _⟩
  · cases heq
  · obtain ⟨_, _, hobject⟩ := exists_object_of_holds hx.holds
    cases hobject

/-- An object reaches itself. -/
theorem card_reached_pos {R : Value → Value → Prop} (hv : h.content v ≠ .nil)
    (hobject : ∃ address, v = .object address) : 0 < (h.reached R v).card := by
  obtain ⟨address, rfl⟩ := hobject
  refine Finset.card_pos.mpr ⟨address, mem_reached.mpr ⟨?_, .refl⟩⟩
  by_contra hge
  have hnone : h.objects[address]? = none := Array.getElem?_eq_none (Nat.le_of_not_lt hge)
  exact hv (by simp [content, object, Array.getD_eq_getD_getElem?, hnone])

/-- To open a place leaves fewer. -/
theorem renderingRank_add {mark : Nat × Nat} (hmark : mark ∈ h.marks)
    (hclosed : opened.contains mark = false) (x : Value) :
    h.renderingRank (opened.add mark, x) < h.renderingRank (opened, v) := by
  have hlt : {m ∈ h.marks | (opened.add mark).contains m = false}.card <
      {m ∈ h.marks | opened.contains m = false}.card := by
    refine Finset.card_lt_card
      ((Finset.ssubset_iff_of_subset (unopened_add_subset mark)).mpr ⟨mark, ?_, ?_⟩)
    · exact Finset.mem_filter.mpr ⟨hmark, hclosed⟩
    · intro hmem
      simpa using (Finset.mem_filter.mp hmem).2
  have hplaces := Nat.mul_le_mul_right (h.objects.size + 2) (Nat.succ_le_of_lt hlt)
  have henclosed : (h.reached h.Encloses x).card ≤ h.objects.size := card_reached_le
  rw [Nat.succ_mul] at hplaces
  simp only [renderingRank]
  omega

theorem renderingRank_lt (hground : h.IsGrounded) {p q : Trail × Value} (hrenders : h.Renders p q) :
    h.renderingRank q < h.renderingRank p := by
  cases hrenders with
  | @element opened v x cell _ hclosed hx =>
    refine renderingRank_add (Finset.mem_union_left _ ?_) hclosed x
    exact Finset.mem_image_of_mem _ (Finset.mem_range.mpr (lt_size_of_mem_items hx))
  | @enclosed opened v x hx =>
    have hlt := card_reached_lt hx.holds hx (not_reflTransGen_of_encloses hground hx)
    simp only [renderingRank]
    omega
  | @atom opened v atom hv hclosed =>
    by_cases hatom : atom < h.atoms.size
    · refine renderingRank_add (Finset.mem_union_right _ ?_) hclosed _
      exact Finset.mem_image_of_mem _ (Finset.mem_range.mpr hatom)
    · -- An atom that was never made holds nil, which encloses nothing.
      have hnil : h.deref atom = .nil := by
        simp [deref, Array.getD_eq_getD_getElem?, Array.getElem?_eq_none (Nat.le_of_not_lt hatom)]
      have hopened := Nat.mul_le_mul_right (h.objects.size + 2)
        (Finset.card_le_card (@unopened_add_subset h opened (Place.atom atom).mark))
      have hpos : 0 < (h.reached h.Encloses v).card := by
        refine card_reached_pos (by simp [hv]) ?_
        cases v with
        | object address => exact ⟨address, rfl⟩
        | _ => cases hv
      rw [hnil]
      simp only [renderingRank, reached_nil, Finset.card_empty]
      omega

/-- Any two depths above the rank give the same text. -/
theorem renderWithin_stable (hground : h.IsGrounded) {style : Style} {fuel fuel' : Nat}
    (hfuel : h.renderingRank (opened, v) < fuel) (hfuel' : h.renderingRank (opened, v) < fuel') :
    h.renderWithin style fuel opened v = h.renderWithin style fuel' opened v := by
  induction fuel generalizing fuel' opened v with
  | zero => omega
  | succ fuel ih =>
    cases fuel' with
    | zero => omega
    | succ fuel' =>
      have hcalls : ∀ {opened' x}, h.Renders (opened, v) (opened', x) →
          h.renderWithin style fuel opened' x = h.renderWithin style fuel' opened' x := by
        intro opened' x hrenders
        have hlt := renderingRank_lt hground hrenders
        exact ih (by omega) (by omega)
      have hitems : ∀ {cell : CellId}, h.content v = .list cell ∨ h.content v = .vector cell →
          ∀ left right, h.sequenceText left right cell opened (h.renderWithin style fuel) =
            h.sequenceText left right cell opened (h.renderWithin style fuel') := by
        intro cell hv left right
        unfold sequenceText
        cases hclosed : opened.contains (Place.sequence cell).mark with
        | true => simp only [hclosed, if_true]
        | false =>
          simp only [List.map_congr_left fun x hx => hcalls (.element hv hclosed hx)]
      cases hv : h.content v with
      | list cell => simp only [renderWithin, hv, hitems (.inl hv)]
      | vector cell => simp only [renderWithin, hv, hitems (.inr hv)]
      | map entries =>
        have hentries : (entries.toList.flatMap fun entry => [entry.1, entry.2]).map
              (h.renderWithin style fuel opened) =
            (entries.toList.flatMap fun entry => [entry.1, entry.2]).map
              (h.renderWithin style fuel' opened) := by
          refine List.map_congr_left fun x hx => hcalls (.enclosed ?_)
          obtain ⟨entry, hentry, hmem⟩ := List.mem_flatMap.mp hx
          obtain ⟨hkey, hvalue⟩ := encloses_entry hv hentry
          simp only [List.mem_cons, List.not_mem_nil, or_false] at hmem
          rcases hmem with rfl | rfl
          · exact hkey
          · exact hvalue
        simp only [renderWithin, hv, hentries]
      | atom atom =>
        cases hclosed : opened.contains (Place.atom atom).mark with
        | true => simp [renderWithin, hv, hclosed]
        | false => simp [renderWithin, hv, hclosed, hcalls (.atom hv hclosed)]
      | error payload => simp [renderWithin, hv, hcalls (.enclosed (encloses_payload hv))]
      | bool b => cases b <;> simp [renderWithin, hv]
      | _ => simp [renderWithin, hv]

/-- A greater depth than rendering is given makes no difference. -/
theorem renderWithin_of_le (hground : h.IsGrounded) {style : Style} {fuel : Nat}
    (hfuel : h.renderingDepth ≤ fuel) (v : Value) :
    h.renderWithin style fuel {} v = h.render style v := by
  rw [render_eq]
  have hlt := renderingRank_lt_renderingDepth (h := h) ({}, v)
  exact renderWithin_stable hground (Nat.lt_of_lt_of_le hlt hfuel) hlt

end Depth

end Lisp.Heap
