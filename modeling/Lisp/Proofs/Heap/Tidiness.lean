import Lisp.Proofs.Heap.Soundness
import Lisp.Proofs.Heap.Symmetry

/-!
What steps keep. Objects, functions and the elements of vectors are kept for good; a list only gets
more elements at its end. As long as no list inside a key grows, a heap stays tidy: the keys of each
map differ, and no map is reached from one of its own.
-/
namespace Lisp.Heap

section Keeping

theorem elements?_eq (h : Heap) (v : Value) :
    h.elements? v = (h.content v).cell?.map h.items := by
  unfold elements? sequence?
  cases h.content v <;> rfl

/-- What an earlier and a later heap agree on; `grow` says whether lists may have become longer. -/
structure Kept (grow : Prop) (h h' : Heap) : Prop where
  size : h.NotSmaller h'
  object : ∀ v, h.Has v → h'.object v = h.object v
  closure : ∀ id < h.closures.size, h'.closure id = h.closure id
  native : ∀ id < h.natives.size, h'.native id = h.native id
  vector : ∀ v cell, h.content v = .vector cell → h'.items cell = h.items cell
  list : ∀ v cell, h.content v = .list cell → h.items cell <+: h'.items cell
  still : ¬ grow → ∀ v cell, h.content v = .list cell → h'.items cell = h.items cell

variable {grow : Prop} {frames : Nat} {h h' h'' : Heap}

theorem Kept.content (hkept : Kept grow h h') {v : Value} (hv : h.Has v) :
    h'.content v = h.content v :=
  congrArg Object.content (hkept.object v hv)

theorem Kept.refl : Kept grow h h :=
  ⟨.refl h, fun _ _ => rfl, fun _ _ => rfl, fun _ _ => rfl, fun _ _ _ => rfl,
    fun _ _ _ => List.prefix_refl _, fun _ _ _ _ => rfl⟩

theorem Kept.trans (hab : Kept grow h h') (hbc : Kept grow h' h'') : Kept grow h h'' := by
  have hthere : ∀ {v c}, h.content v = c → c ≠ .nil → h'.content v = c := fun hv hc =>
    (hab.content (has_of_content_ne_nil (hv ▸ hc))).trans hv
  refine ⟨hab.size.trans hbc.size, fun v hv => ?_, fun id hid => ?_, fun id hid => ?_,
    fun v cell hv => ?_, fun v cell hv => ?_, fun hgrow v cell hv => ?_⟩
  · rw [hbc.object v (hab.size.has hv), hab.object v hv]
  · rw [hbc.closure id (Nat.lt_of_lt_of_le hid hab.size.closures), hab.closure id hid]
  · rw [hbc.native id (Nat.lt_of_lt_of_le hid hab.size.natives), hab.native id hid]
  · rw [hbc.vector v cell (hthere hv (by simp)), hab.vector v cell hv]
  · exact (hab.list v cell hv).trans (hbc.list v cell (hthere hv (by simp)))
  · rw [hbc.still hgrow v cell (hthere hv (by simp)), hab.still hgrow v cell hv]

theorem ne_of_has {v : Value} (hv : h.Has v) : v ≠ .object h.objects.size := by
  rintro rfl
  exact Nat.lt_irrefl _ hv

theorem native_push (h : Heap) (n : Native) {id : NativeId} (hid : id < h.natives.size) :
    ({ h with natives := h.natives.push n } : Heap).native id = h.native id := by
  simp [native, Array.getD_eq_getD_getElem?, Array.getElem?_push, Nat.ne_of_lt hid]

theorem IsSound.items_push_of_cell (hsound : h.IsSound) (items : Sequence Value) {v : Value}
    {cell : CellId} (hv : (h.content v).cell? = some cell) :
    ({ h with cells := h.cells.push items } : Heap).items cell = h.items cell := by
  rw [items_push, if_neg (Nat.ne_of_lt ((hsound.content v).cell_lt hv))]

/-- A step changes the elements of a list only where that is allowed. -/
theorem Step.still {grow : Heap → Value → Prop} (hsound : h.IsSound)
    (hstep : Step grow frames h h') {v : Value} {cell : CellId}
    (hv : (h.content v).cell? = some cell) (hgrow : h.content v = .list cell → ¬ grow h v) :
    h'.items cell = h.items cell := by
  cases hstep with
  | @sequence shape items metadata _ _ _ => exact hsound.items_push_of_cell items hv
  | @append list other vs hlist hcontent _ =>
    refine (items_append h other cell vs).trans (if_neg ?_)
    rintro ⟨rfl, _⟩
    obtain rfl : list = v := hsound.owner list v cell (by rw [hcontent]; rfl) hv
    exact hgrow hcontent hlist
  | _ => rfl

/-- A step keeps all objects and functions, and makes at most one list longer. -/
theorem Step.kept {grow : Heap → Value → Prop} (hsound : h.IsSound)
    (hstep : Step grow frames h h') : Kept (∃ g list, grow g list) h h' := by
  have hsize := hstep.notSmaller
  have hvector : ∀ v cell, h.content v = .vector cell → h'.items cell = h.items cell :=
    fun v cell hv => hstep.still hsound (by rw [hv]; rfl) fun hlist => by
      rw [hv] at hlist
      cases hlist
  have hstill : ¬ (∃ g list, grow g list) → ∀ v cell, h.content v = .list cell →
      h'.items cell = h.items cell := fun hnone v cell hv =>
    hstep.still hsound (by rw [hv]; rfl) fun _ hgrow => hnone ⟨h, v, hgrow⟩
  have hsame : Kept (∃ g list, grow g list) h h := .refl
  cases hstep with
  | object o hcell hcontent hmetadata =>
    exact { hsame with
      size := hsize
      object := fun v hv => by rw [object_alloc, if_neg (ne_of_has hv)] }
  | @sequence shape items metadata hshape hitems hmetadata =>
    refine { hsame with
      size := hsize, vector := hvector, still := hstill, object := ?_, list := ?_ }
    · exact fun v hv => (object_alloc _ _ v).trans (if_neg (ne_of_has hv))
    · exact fun v cell hv => (hsound.items_push_of_cell items (by rw [hv]; rfl)) ▸
        List.prefix_refl _
  | atom v hv => exact { hsame with size := hsize }
  | closure c hbody hscope =>
    exact { hsame with
      size := hsize
      closure := fun id hid => by rw [closure_push, if_neg (Nat.ne_of_lt hid)] }
  | native n => exact { hsame with size := hsize, native := fun id hid => native_push h n hid }
  | @append list cell vs hgrow hlist hvs =>
    refine { hsame with size := hsize, vector := hvector, still := hstill, list := ?_ }
    intro v other hv
    rw [items_append]
    split
    · rename_i hcell
      rw [hcell.1]
      exact List.prefix_append _ _
    · exact List.prefix_refl _
  | reset atom v hv => exact { hsame with size := hsize }

end Keeping

section Keys

/-- The value is reached from a key of a map. -/
def InKey (h : Heap) (v : Value) : Prop :=
  ∃ a entries entry, h.content a = .map entries ∧ entry ∈ entries.toList ∧
    Relation.ReflTransGen h.Holds entry.1 v

variable {g h h' : Heap} {grow : Heap → Value → Prop} {frames : Nat} {a b v : Value}
  {entries : Entries}

theorem inKey_key (hv : h.content v = .map entries) {entry : Value × Value}
    (hentry : entry ∈ entries.toList) : h.InKey entry.1 :=
  ⟨v, entries, entry, hv, hentry, .refl⟩

theorem not_inKey_of_not_holds (hv : ∀ a, ¬ h.Holds a v) : ¬ h.InKey v := by
  rintro ⟨a, entries, entry, ha, hentry, hreach⟩
  cases hreach with
  | refl =>
    refine hv a ?_
    rw [Holds, held, ha]
    exact mem_alternate.mpr ⟨entry, hentry, .inl rfl⟩
  | tail _ hholds => exact hv _ hholds

theorem hereditary_inKey (h : Heap) : h.Hereditary h.InKey :=
  fun _ _ ⟨a, entries, entry, ha, hentry, hreach⟩ hholds =>
    ⟨a, entries, entry, ha, hentry, hreach.tail hholds⟩

section Sound

variable (hsound : h.IsSound)
include hsound

theorem IsSound.hereditary_has : h.Hereditary h.Has := by
  intro a b _ hab
  have hcontent := hsound.content a
  unfold Holds held at hab
  cases hc : h.content a with
  | list cell | vector cell =>
    rw [hc] at hab
    exact hsound.items cell b hab
  | _ =>
    rw [hc] at hab hcontent
    exact hcontent.enclosed hab

theorem IsSound.has_key (hv : h.content v = .map entries) {entry : Value × Value}
    (hentry : entry ∈ entries.toList) : h.Has entry.1 := by
  have hcontent := hsound.content v
  rw [hv] at hcontent
  exact (hcontent entry hentry).1

theorem IsSound.has_of_inKey (hv : h.InKey v) : h.Has v := by
  obtain ⟨a, entries, entry, ha, hentry, hreach⟩ := hv
  exact hsound.hereditary_has.reached (hsound.has_key ha hentry) hreach

end Sound

/-- Where no list inside a key may grow, what is inside keys stays as it is. -/
theorem Step.agreesOn_inKey (hsound : h.IsSound) (hgrow : ∀ list, grow h list → ¬ h.InKey list)
    (hstep : Step grow frames h h') : AgreesOn h.InKey h h' :=
  ⟨fun _ hv => (hstep.kept hsound).content (hsound.has_of_inKey hv),
    fun v _ hv hcell => hstep.still hsound hcell fun _ hlist => hgrow v hlist hv⟩

/-- A map was there, or it is new: then all else stays as it is, its keys are there, and each two of
them differ or stand in a map already. -/
theorem Step.map_cases (hsound : h.IsSound) (hstep : Step grow frames h h')
    (hv : h'.content v = .map entries) :
    h.content v = .map entries ∨ ¬ h.Has v ∧ AgreesOn h.Has h h' ∧ h.HasContent (.map entries) ∧
      h.IsKeyed (.map entries) := by
  by_cases hhas : h.Has v
  · rw [(hstep.kept hsound).content hhas] at hv
    exact Or.inl hv
  · have hkept := hstep.kept hsound
    have hnot : h.content v ≠ .map entries := fun hc =>
      hhas (has_of_content_ne_nil (by rw [hc]; simp))
    refine Or.inr ⟨hhas, ?_⟩
    cases hstep with
    | object o hcell hcontent hmetadata hkeyed =>
      rw [content_alloc] at hv
      split at hv
      · rw [hv] at hcontent hkeyed
        exact ⟨⟨fun u hu => hkept.content hu, fun _ _ _ _ => rfl⟩, hcontent, hkeyed⟩
      · exact absurd hv hnot
    | @sequence shape items metadata hshape hitems hmetadata =>
      have hv' : ({ h with cells := h.cells.push items }.alloc
        ⟨shape h.cells.size, metadata⟩).2.content v = .map entries := hv
      rw [content_alloc] at hv'
      split at hv'
      · rcases hshape with rfl | rfl <;> cases hv'
      · exact absurd hv' hnot
    | _ => exact absurd hv hnot

/-- What is inside keys and does not change leaves the keys of a map different. -/
theorem KeysDiffer.of_agreesOn {S : Value → Prop} (hdiffer : h.KeysDiffer entries)
    (hagree : AgreesOn S h h') (hS : h.Hereditary S) (hsize : h.NotSmaller h')
    (hground : h.IsGrounded) (hmem : ∀ entry ∈ entries.toList, S entry.1) :
    h'.KeysDiffer entries := by
  refine List.Pairwise.imp_of_mem (fun {entry later} hentry hlater hne => ?_) hdiffer
  rw [hagree.equal hsize hground hS (hmem entry hentry) (hmem later hlater)]
  exact hne

/-- Under each key its own entry is found. -/
theorem KeysDiffer.find?_toList (hdiffer : h.KeysDiffer entries) {entry : Value × Value}
    (hentry : entry ∈ entries.toList) :
    (entries.toList.find? fun other => h.equal other.1 entry.1) = some entry := by
  unfold KeysDiffer at hdiffer
  generalize entries.toList = xs at hdiffer hentry ⊢
  induction xs with
  | nil => cases hentry
  | cons x rest ih =>
    obtain ⟨hfirst, hrest⟩ := List.pairwise_cons.mp hdiffer
    rcases List.mem_cons.mp hentry with rfl | hentry
    · rw [List.find?_cons, equal_refl]
    · rw [List.find?_cons, hfirst entry hentry]
      exact ih hrest hentry

theorem KeysDiffer.get? (hdiffer : h.KeysDiffer entries) {entry : Value × Value}
    (hentry : entry ∈ entries.toList) : h.get? entries entry.1 = some entry.2 := by
  unfold Heap.get? entry?
  rw [← Sequence.find?_toList, hdiffer.find?_toList hentry]
  rfl

/-- The keys of a new map differ: where they stood in a map already, they differed there. -/
theorem IsTidy.keysDiffer (htidy : h.IsTidy) (hkeyed : h.IsKeyed (.map entries)) :
    h.KeysDiffer entries := by
  rw [isKeyed_map, List.pairwise_map] at hkeyed
  refine hkeyed.imp fun {entry later} hpair => ?_
  rcases hpair with hne | ⟨v, others, hv, hsub⟩
  · exact hne
  · have hothers := htidy.differ v others hv
    rw [KeysDiffer, ← List.pairwise_map (f := Prod.fst)
      (R := fun key later => h.equal key later = false)] at hothers
    exact List.pairwise_iff_forall_sublist.mp hothers hsub

/-- Tidy heaps stay tidy as long as no list inside a key grows. -/
theorem IsTidy.step (hsound : h.IsSound) (htidy : h.IsTidy)
    (hgrow : ∀ list, grow h list → ¬ h.InKey list) (hstep : Step grow frames h h') :
    h'.IsTidy := by
  have hground := hsound.isGrounded
  have hinKey := hstep.agreesOn_inKey hsound hgrow
  constructor
  · intro v entries hv
    rcases hstep.map_cases hsound hv with hold | ⟨_, hagree, hcontent, hkeyed⟩
    · exact (htidy.differ v entries hold).of_agreesOn hinKey h.hereditary_inKey hstep.notSmaller
        hground fun entry hentry => inKey_key hold hentry
    · exact (htidy.keysDiffer hkeyed).of_agreesOn hagree hsound.hereditary_has hstep.notSmaller
        hground fun entry hentry => (hcontent entry hentry).1
  · intro v entries hv entry hentry hreach
    rcases hstep.map_cases hsound hv with hold | ⟨hnew, hagree, hcontent, _⟩
    · exact htidy.apart v entries hold entry hentry
        (hinKey.reached h.hereditary_inKey (inKey_key hold hentry) hreach)
    · have hkey := (hcontent entry hentry).1
      have hback := hagree.reached hsound.hereditary_has hkey hreach
      exact hnew (hsound.hereditary_has.reached hkey hback)

theorem isTidy_empty : ({} : Heap).IsTidy := by
  have hcontent : ∀ v entries, ({} : Heap).content v ≠ .map entries := fun v entries hv => by
    cases v <;> cases hv
  exact ⟨fun v entries hv => absurd hv (hcontent v entries),
    fun v entries hv => absurd hv (hcontent v entries)⟩

end Keys

end Lisp.Heap
