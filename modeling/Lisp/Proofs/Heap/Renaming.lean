import Lisp.Proofs.Heap.Depth

/-!
Heaps that are the same but for their addresses. A renaming gives new addresses to objects and
cells; one heap copies another when each value, under its new address, is what it was with the
values in it renamed. The copy may hold more. Addresses that are yet to be handed out go to
addresses yet to be handed out, in order, so that a renaming stays the same while both heaps grow
together.
Nothing that can be seen of a value depends on addresses: equality gives the same answers in both.
-/
namespace Lisp

/-- New addresses for objects, cells and frames. The outermost frame keeps its own. -/
structure Renaming where
  object : Nat → Nat
  cell : CellId → CellId
  frame : FrameId → FrameId
  object_injective : object.Injective
  cell_injective : cell.Injective
  frame_injective : frame.Injective
  frame_zero : frame 0 = 0

section Aligned

variable {f : Nat → Nat} {m m' : Nat}

/-- What comes before the addresses that are next goes before those that are next. -/
theorem lt_of_aligned (hf : f.Injective) (hnext : ∀ n, f (m + n) = m' + n) {a : Nat} (ha : a < m) :
    f a < m' := by
  by_contra hge
  have hsame : f (m + (f a - m')) = f a := by
    rw [hnext]
    omega
  have := hf hsame
  omega

theorem le_of_aligned (hf : f.Injective) (hnext : ∀ n, f (m + n) = m' + n) : m ≤ m' := by
  have hmaps : ∀ a ∈ Finset.range m, f a ∈ Finset.range m' := fun a ha =>
    Finset.mem_range.mpr (lt_of_aligned hf hnext (Finset.mem_range.mp ha))
  simpa using Finset.card_le_card_of_injOn f hmaps hf.injOn

end Aligned

namespace Renaming

variable (ρ : Renaming)

def value : Value → Value
  | .object address => .object (ρ.object address)
  | v => v

@[simp] theorem value_nil : ρ.value .nil = .nil := rfl

@[simp] theorem value_bool (b : Bool) : ρ.value (.bool b) = .bool b := rfl

@[simp] theorem value_symbol (name : Text) : ρ.value (.symbol name) = .symbol name := rfl

@[simp] theorem value_object (address : Nat) :
    ρ.value (.object address) = .object (ρ.object address) := rfl

theorem value_injective : ρ.value.Injective := by
  intro a b hab
  cases a <;> cases b <;> simp_all [value, ρ.object_injective.eq_iff]

@[simp] theorem value_inj {a b : Value} : ρ.value a = ρ.value b ↔ a = b :=
  ρ.value_injective.eq_iff

def entry (entry : Value × Value) : Value × Value := (ρ.value entry.1, ρ.value entry.2)

def closure (c : Closure) : Closure := { c with scope := ρ.frame c.scope, body := ρ.value c.body }

end Renaming

/-- A content with the addresses in it renamed. Texts and entries count for what they list. -/
inductive Content.Mirrors (ρ : Renaming) : Content → Content → Prop
  | nil : Mirrors ρ .nil .nil
  | bool (b : Bool) : Mirrors ρ (.bool b) (.bool b)
  | int (n : Int64) : Mirrors ρ (.int n) (.int n)
  | float (x : Float) : Mirrors ρ (.float x) (.float x)
  | string {s t : Rope} : t.toList = s.toList → Mirrors ρ (.string s) (.string t)
  | symbol (name : Text) : Mirrors ρ (.symbol name) (.symbol name)
  | keyword (name : Text) : Mirrors ρ (.keyword name) (.keyword name)
  | list (cell : CellId) : Mirrors ρ (.list cell) (.list (ρ.cell cell))
  | vector (cell : CellId) : Mirrors ρ (.vector cell) (.vector (ρ.cell cell))
  | map {m n : Entries} : n.toList = m.toList.map ρ.entry → Mirrors ρ (.map m) (.map n)
  | atom (cell : AtomId) : Mirrors ρ (.atom cell) (.atom cell)
  | native (id : NativeId) : Mirrors ρ (.native id) (.native id)
  | closure (id : ClosureId) : Mirrors ρ (.closure id) (.closure id)
  | error (payload : Value) : Mirrors ρ (.error payload) (.error (ρ.value payload))

theorem Content.Mirrors.kind {ρ : Renaming} {c c' : Content} (h : c.Mirrors ρ c') :
    c'.kind = c.kind := by
  cases h <;> rfl

theorem Content.exists_mirrors (ρ : Renaming) (c : Content) : ∃ c', c.Mirrors ρ c' := by
  cases c with
  | nil => exact ⟨_, .nil⟩
  | bool b => exact ⟨_, .bool b⟩
  | int n => exact ⟨_, .int n⟩
  | float x => exact ⟨_, .float x⟩
  | string s => exact ⟨_, .string rfl⟩
  | symbol name => exact ⟨_, .symbol name⟩
  | keyword name => exact ⟨_, .keyword name⟩
  | list cell => exact ⟨_, .list cell⟩
  | vector cell => exact ⟨_, .vector cell⟩
  | map m => exact ⟨.map (.ofList (m.toList.map ρ.entry)), .map (Sequence.toList_ofList _)⟩
  | atom cell => exact ⟨_, .atom cell⟩
  | native id => exact ⟨_, .native id⟩
  | closure id => exact ⟨_, .closure id⟩
  | error payload => exact ⟨_, .error payload⟩

namespace Heap

/-- The second heap has all objects and cells of the first, under new addresses. -/
structure Copies (ρ : Renaming) (h h' : Heap) : Prop where
  content : ∀ v, (h.content v).Mirrors ρ (h'.content (ρ.value v))
  metadata : ∀ v, h'.metadata? (ρ.value v) = (h.metadata? v).map ρ.value
  items : ∀ cell, h'.items (ρ.cell cell) = (h.items cell).map ρ.value
  nextObject : ∀ n, ρ.object (h.objects.size + n) = h'.objects.size + n
  nextCell : ∀ n, ρ.cell (h.cells.size + n) = h'.cells.size + n

namespace Copies

variable {ρ : Renaming} {h h' : Heap}

theorem kind (hc : h.Copies ρ h') (v : Value) : h'.kind (ρ.value v) = h.kind v :=
  (hc.content v).kind

theorem symbol? (hc : h.Copies ρ h') (v : Value) : h'.symbol? (ρ.value v) = h.symbol? v := by
  have hv := hc.content v
  unfold Heap.symbol?
  generalize h.content v = x at hv ⊢
  generalize h'.content (ρ.value v) = y at hv ⊢
  cases hv <;> rfl

theorem isSymbol (hc : h.Copies ρ h') (v : Value) (name : Text) :
    h'.isSymbol (ρ.value v) name = h.isSymbol v name := by
  rw [Heap.isSymbol, Heap.isSymbol, hc.symbol?]

theorem isTruthy (hc : h.Copies ρ h') (v : Value) : h'.isTruthy (ρ.value v) = h.isTruthy v := by
  have hv := hc.content v
  unfold Heap.isTruthy
  generalize h.content v = x at hv ⊢
  generalize h'.content (ρ.value v) = y at hv ⊢
  cases hv <;> rfl

theorem size_sequence (hc : h.Copies ρ h') (cell : CellId) :
    (h'.sequence (ρ.cell cell)).size = (h.sequence cell).size := by
  have hlength := congrArg List.length (hc.items cell)
  simpa [Heap.items] using hlength

/-- A list or vector is one with the elements renamed, and nothing else is one. -/
theorem sequence?_cases (hc : h.Copies ρ h') (v : Value) :
    (h.sequence? v = none ∧ h'.sequence? (ρ.value v) = none) ∨
      ∃ s t, h.sequence? v = some s ∧ h'.sequence? (ρ.value v) = some t ∧
        t.toList = s.toList.map ρ.value := by
  have hv := hc.content v
  unfold Heap.sequence?
  generalize h.content v = x at hv ⊢
  generalize h'.content (ρ.value v) = y at hv ⊢
  cases hv with
  | list cell => exact Or.inr ⟨_, _, rfl, rfl, hc.items cell⟩
  | vector cell => exact Or.inr ⟨_, _, rfl, rfl, hc.items cell⟩
  | _ => exact Or.inl ⟨rfl, rfl⟩

theorem elements? (hc : h.Copies ρ h') (v : Value) :
    h'.elements? (ρ.value v) = (h.elements? v).map (List.map ρ.value) := by
  unfold Heap.elements?
  rcases hc.sequence?_cases v with ⟨hv, hv'⟩ | ⟨s, t, hv, hv', ht⟩
  · rw [hv, hv']
    rfl
  · rw [hv, hv', Option.map_some, ht]
    rfl

end Copies

/-- The same comparison on renamed values. -/
inductive Comparison.Mirrors (ρ : Renaming) : Comparison → Comparison → Prop
  | equal : Mirrors ρ .equal .equal
  | different : Mirrors ρ .different .different
  | sequences (c d : CellId) : Mirrors ρ (.sequences c d) (.sequences (ρ.cell c) (ρ.cell d))
  | maps {m n m' n' : Entries} : m'.toList = m.toList.map ρ.entry →
    n'.toList = n.toList.map ρ.entry → Mirrors ρ (.maps m n) (.maps m' n')
  | payloads (p q : Value) : Mirrors ρ (.payloads p q) (.payloads (ρ.value p) (ρ.value q))

namespace Copies

variable {ρ : Renaming} {h h' : Heap} {a b : Value}

theorem comparison (hc : h.Copies ρ h') (a b : Value) :
    (h.comparison a b).Mirrors ρ (h'.comparison (ρ.value a) (ρ.value b)) := by
  have hsettled : ∀ p : Bool, (Comparison.ofBool p).Mirrors ρ (Comparison.ofBool p) := by
    intro p
    cases p
    · exact .different
    · exact .equal
  unfold Heap.comparison
  by_cases hab : a = b
  · simp only [hab, beq_self_eq_true, if_true]
    exact .equal
  · have hrenamed : ¬ ρ.value a = ρ.value b := by simpa using hab
    simp only [beq_iff_eq, if_neg hab, if_neg hrenamed]
    have ha := hc.content a
    have hb := hc.content b
    generalize h.content a = x at ha ⊢
    generalize h'.content (ρ.value a) = x' at ha ⊢
    generalize h.content b = y at hb ⊢
    generalize h'.content (ρ.value b) = y' at hb ⊢
    cases ha with
    | nil =>
      cases hb with
      | nil => exact .equal
      | _ => exact .different
    | bool p =>
      cases hb with
      | bool q => exact hsettled _
      | _ => exact .different
    | int m =>
      cases hb with
      | int q => exact hsettled _
      | _ => exact .different
    | float x =>
      cases hb with
      | float q => exact hsettled _
      | _ => exact .different
    | string hs =>
      cases hb with
      | string ht =>
        simp only [Sequence.same_eq, hs, ht]
        exact hsettled _
      | _ => exact .different
    | symbol s =>
      cases hb with
      | symbol t => exact hsettled _
      | _ => exact .different
    | keyword s =>
      cases hb with
      | keyword t => exact hsettled _
      | _ => exact .different
    | list c =>
      cases hb with
      | list d => exact .sequences c d
      | _ => exact .different
    | vector c =>
      cases hb with
      | vector d => exact .sequences c d
      | _ => exact .different
    | map hm =>
      cases hb with
      | map hn => exact .maps hm hn
      | _ => exact .different
    | atom p =>
      cases hb with
      | atom q => exact hsettled _
      | _ => exact .different
    | native p =>
      cases hb with
      | native q => exact hsettled _
      | _ => exact .different
    | closure p =>
      cases hb with
      | closure q => exact hsettled _
      | _ => exact .different
    | error p =>
      cases hb with
      | error q => exact .payloads p q
      | _ => exact .different

/-- Comparisons have the same answers on both sides, at every depth. -/
theorem equalWithin? (hc : h.Copies ρ h') (fuel : Nat) {opened opened' : Trail}
    (hopened : ∀ c d, opened'.contains (ρ.cell c, ρ.cell d) = opened.contains (c, d))
    (a b : Value) :
    h'.equalWithin? fuel opened' (ρ.value a) (ρ.value b) = h.equalWithin? fuel opened a b := by
  induction fuel generalizing opened opened' a b with
  | zero => rfl
  | succ fuel ih =>
    have hab := hc.comparison a b
    rw [Heap.equalWithin?, Heap.equalWithin?, equalStep?_eq, equalStep?_eq]
    generalize h.comparison a b = x at hab ⊢
    generalize h'.comparison (ρ.value a) (ρ.value b) = y at hab ⊢
    cases hab with
    | equal => rfl
    | different => rfl
    | sequences c d =>
      have hadded : ∀ c' d', (opened'.add (ρ.cell c, ρ.cell d)).contains (ρ.cell c', ρ.cell d') =
          (opened.add (c, d)).contains (c', d') := by
        intro c' d'
        simp only [Trail.contains_add, hopened]
        congr 1
        rw [Bool.eq_iff_iff]
        simp [ρ.cell_injective.eq_iff]
      simp only [hopened, hc.size_sequence, hc.items, List.zip_map, allM_map,
        Function.comp_def, Prod.map, ih hadded]
    | maps hm hn =>
      rename_i m n m' n'
      have hkeys : ∀ c d, ({} : Trail).contains (ρ.cell c, ρ.cell d) =
          ({} : Trail).contains (c, d) := by simp
      have hfind : ∀ key,
          (n'.toList.findM? fun entry => h'.equalWithin? fuel {} entry.1 (ρ.value key)) =
            (n.toList.findM? fun entry => h.equalWithin? fuel {} entry.1 key).map
              (Option.map ρ.entry) := by
        intro key
        rw [hn, findM?_map]
        simp only [Function.comp_def, Renaming.entry, ih hkeys]
      have hsize : m'.size = m.size ∧ n'.size = n.size := by
        simp only [← Sequence.length_toList, hm, hn, List.length_map, and_self]
      simp only [hsize, hm, allM_map, Function.comp_def, Renaming.entry, hfind]
      congr 2
      funext entry
      cases n.toList.findM? fun other => h.equalWithin? fuel {} other.1 entry.1 with
      | none => rfl
      | some found =>
        cases found with
        | none => rfl
        | some other => exact ih hopened entry.2 other.2
    | payloads p q => exact ih hopened p q

/-- The copy is no smaller. -/
theorem objects_le (hc : h.Copies ρ h') : h.objects.size ≤ h'.objects.size :=
  le_of_aligned ρ.object_injective hc.nextObject

theorem cells_le (hc : h.Copies ρ h') : h.cells.size ≤ h'.cells.size :=
  le_of_aligned ρ.cell_injective hc.nextCell

theorem equal (hc : h.Copies ρ h') (hground : h.IsGrounded) (a b : Value) :
    h'.equal (ρ.value a) (ρ.value b) = h.equal a b := by
  have hopened : ∀ c d, ({} : Trail).contains (ρ.cell c, ρ.cell d) =
      ({} : Trail).contains (c, d) := by simp
  rw [equal_eq, equal_eq, equalInside, equalInside, hc.equalWithin? _ hopened,
    equalWithin?_of_le hground (equalityDepth_mono hc.objects_le hc.cells_le)]

end Copies

end Heap

end Lisp
