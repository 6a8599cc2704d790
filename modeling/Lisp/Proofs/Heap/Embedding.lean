import Lisp.Proofs.Heap.Mirror

/-!
Heaps inside heaps. A heap is embedded in another by a renaming when all that it has handed out is
there under its new address; nothing is asked of other addresses. What is built of a datum is the
same block behind every heap. So a block that a heap builds can be sent to one that was built in the
other heap long before: the renaming that does so keeps what it did with all that was there, and the
heaps mirror each other again.
-/
namespace Lisp

/-- Addresses below `size` go where `f` sends them, those of a block behind them to a block at
`start`, and all later ones behind `next`. -/
def redirect (f : Nat → Nat) (size length start next : Nat) (a : Nat) : Nat :=
  if a < size then f a
  else if a < size + length then start + (a - size)
  else next + (a - (size + length))

/-- Nothing is sent to the addresses from `start` to `stop`. -/
def Avoids (f : Nat → Nat) (start stop : Nat) : Prop := ∀ a, f a < start ∨ stop ≤ f a

section Redirect

variable {f : Nat → Nat} {size length start next a i : Nat}

theorem redirect_old (ha : a < size) : redirect f size length start next a = f a := if_pos ha

theorem redirect_block (hi : i < length) :
    redirect f size length start next (size + i) = start + i := by
  have hnew : ¬ size + i < size := by omega
  have hblock : size + i < size + length := by omega
  rw [redirect, if_neg hnew, if_pos hblock]
  omega

theorem redirect_next : redirect f size length start next (size + length + i) = next + i := by
  have hnew : ¬ size + length + i < size := by omega
  have hlater : ¬ size + length + i < size + length := by omega
  rw [redirect, if_neg hnew, if_neg hlater]
  omega

/-- Old, in the block, or later. -/
theorem redirect_cases (f : Nat → Nat) (size length start next a : Nat) :
    (a < size ∧ redirect f size length start next a = f a) ∨
      (∃ i < length, a = size + i ∧ redirect f size length start next a = start + i) ∨
      ∃ i, a = size + length + i ∧ redirect f size length start next a = next + i := by
  by_cases hold : a < size
  · exact .inl ⟨hold, redirect_old hold⟩
  · obtain ⟨i, rfl⟩ := Nat.exists_eq_add_of_le (Nat.le_of_not_lt hold)
    by_cases hblock : i < length
    · exact .inr (.inl ⟨i, hblock, rfl, redirect_block hblock⟩)
    · obtain ⟨j, rfl⟩ := Nat.exists_eq_add_of_le (Nat.le_of_not_lt hblock)
      rw [← Nat.add_assoc]
      exact .inr (.inr ⟨j, rfl, redirect_next⟩)

variable {stop : Nat} (havoids : Avoids f start stop) (hblock : start + length ≤ stop)
  (hnext : stop ≤ next)
include havoids hblock hnext

theorem redirect_injective (hf : f.Injective) (hbelow : ∀ a < size, f a < next) :
    (redirect f size length start next).Injective := by
  intro a b hab
  have ha := redirect_cases f size length start next a
  have hb := redirect_cases f size length start next b
  have hapartA := havoids a
  have hapartB := havoids b
  have hbelowA := hbelow a
  have hbelowB := hbelow b
  rcases ha with ⟨holdA, ha⟩ | ⟨i, hi, rfl, ha⟩ | ⟨i, rfl, ha⟩ <;>
    rcases hb with ⟨holdB, hb⟩ | ⟨j, hj, rfl, hb⟩ | ⟨j, rfl, hb⟩
  · exact hf (by omega)
  all_goals omega

omit hblock in
theorem avoids_redirect : Avoids (redirect f size length start next) (start + length) stop := by
  intro a
  have hapart := havoids a
  rcases redirect_cases f size length start next a with ⟨_, ha⟩ | ⟨i, hi, rfl, ha⟩ | ⟨i, rfl, ha⟩
  all_goals omega

end Redirect

namespace Renaming

/-- Every address stays. -/
def identity : Renaming := ⟨id, id, id, fun _ _ h => h, fun _ _ h => h, fun _ _ h => h, rfl⟩

theorem value_identity : identity.value = id := by
  funext v
  cases v <;> rfl

theorem entry_identity : identity.entry = id := by
  funext pair
  rw [entry, value_identity]
  rfl

/-- Addresses are counted from where a heap ends. -/
def behind (h : Heap) : Renaming where
  object a := h.objects.size + a
  cell c := h.cells.size + c
  frame f := f
  object_injective _ _ hab := Nat.add_left_cancel hab
  cell_injective _ _ hab := Nat.add_left_cancel hab
  frame_injective _ _ hab := hab
  frame_zero := rfl

/-- Two renamings do the same with all that a heap has handed out. -/
structure SameOn (h : Heap) (ρ τ : Renaming) : Prop where
  object : ∀ a < h.objects.size, τ.object a = ρ.object a
  cell : ∀ c < h.cells.size, τ.cell c = ρ.cell c

theorem SameOn.value {h : Heap} {ρ τ : Renaming} (hsame : SameOn h ρ τ) {v : Value}
    (hv : h.Has v) : τ.value v = ρ.value v := by
  cases v with
  | object address => exact congrArg Value.object (hsame.object address hv)
  | _ => rfl

/-- Nothing is sent to what was handed out between two heaps. -/
structure Spares (ρ : Renaming) (start stop : Heap) : Prop where
  object : Avoids ρ.object start.objects.size stop.objects.size
  cell : Avoids ρ.cell start.cells.size stop.cells.size

end Renaming

namespace Content

theorem mirrors_identity (c : Content) : c.Mirrors .identity c := by
  cases c with
  | map m =>
    refine .map ?_
    rw [Renaming.entry_identity, List.map_id]
  | error payload =>
    have hsame := Mirrors.error (ρ := .identity) payload
    rwa [Renaming.value_identity] at hsame
  | nil => exact .nil
  | bool b => exact .bool b
  | int n => exact .int n
  | float x => exact .float x
  | string s => exact .string rfl
  | symbol name => exact .symbol name
  | keyword name => exact .keyword name
  | list cell => exact .list cell
  | vector cell => exact .vector cell
  | atom cell => exact .atom cell
  | native id => exact .native id
  | closure id => exact .closure id

/-- Two images of one content are images of each other. -/
theorem Mirrors.between {ρ σ τ : Renaming} {e : Heap} {c c₁ c₂ : Content} (h₁ : c.Mirrors σ c₁)
    (h₂ : c.Mirrors τ c₂) (hc : e.HasContent c)
    (hvalue : ∀ v, e.Has v → ρ.value (σ.value v) = τ.value v)
    (hcell : ∀ cell < e.cells.size, ρ.cell (σ.cell cell) = τ.cell cell) : c₁.Mirrors ρ c₂ := by
  cases h₁ with
  | map hm =>
    cases h₂ with
    | map hn =>
      refine .map ?_
      rw [hn, hm, List.map_map]
      refine List.map_congr_left fun entry hentry => ?_
      obtain ⟨hkey, hval⟩ := hc entry hentry
      simp only [Function.comp_apply, Renaming.entry, hvalue _ hkey, hvalue _ hval]
  | error payload =>
    cases h₂ with
    | error _ => exact hvalue payload hc ▸ .error _
  | list cell =>
    cases h₂ with
    | list _ => exact hcell cell hc ▸ .list _
  | vector cell =>
    cases h₂ with
    | vector _ => exact hcell cell hc ▸ .vector _
  | string hs =>
    cases h₂ with
    | string ht => exact .string (ht.trans hs.symm)
  | nil => cases h₂; exact .nil
  | bool b => cases h₂; exact .bool b
  | int n => cases h₂; exact .int n
  | float x => cases h₂; exact .float x
  | symbol name => cases h₂; exact .symbol name
  | keyword name => cases h₂; exact .keyword name
  | atom cell => cases h₂; exact .atom cell
  | native id => cases h₂; exact .native id
  | closure id => cases h₂; exact .closure id

end Content

namespace Heap

/-- All that the first heap has handed out is in the second, under its new address. -/
structure Embeds (ρ : Renaming) (h h' : Heap) : Prop where
  content : ∀ v, h.Has v → (h.content v).Mirrors ρ (h'.content (ρ.value v))
  metadata : ∀ v, h.Has v → h'.metadata? (ρ.value v) = (h.metadata? v).map ρ.value
  items : ∀ cell < h.cells.size, h'.items (ρ.cell cell) = (h.items cell).map ρ.value

section Growing

variable {h u : Heap}

theorem Grows.object (hgrows : h.Grows u) {v : Value} (hv : h.Has v) : u.object v = h.object v := by
  cases v with
  | object address =>
    have hlt : address < h.objects.size := hv
    have hold : h.objects[address]? = some h.objects[address] := Array.getElem?_eq_getElem hlt
    simp only [Heap.object, Array.getD_eq_getD_getElem?, hgrows.objects address _ hold, hold]
  | _ => rfl

theorem Grows.items (hgrows : h.Grows u) {cell : CellId} (hcell : cell < h.cells.size) :
    u.items cell = h.items cell := by
  have hold : h.cells[cell]? = some h.cells[cell] := Array.getElem?_eq_getElem hcell
  rw [items_eq hold, items_eq (hgrows.cells cell _ hold)]

theorem Grows.embeds (hgrows : h.Grows u) : h.Embeds .identity u where
  content v hv := by
    have hsame : u.content v = h.content v := congrArg Object.content (hgrows.object hv)
    rw [Renaming.value_identity, id, hsame]
    exact Content.mirrors_identity _
  metadata v hv := by
    rw [Renaming.value_identity, id, Option.map_id]
    exact congrArg Object.metadata (hgrows.object hv)
  items cell hcell := by
    rw [Renaming.value_identity, List.map_id]
    exact hgrows.items hcell

end Growing

namespace Embeds

variable {ρ σ τ : Renaming} {e g h u : Heap}

theorem of_copies (hc : h.Copies ρ u) : h.Embeds ρ u :=
  ⟨fun v _ => hc.content v, fun v _ => hc.metadata v, fun cell _ => hc.items cell⟩

/-- An embedding that sends fresh addresses to fresh addresses makes a copy. -/
theorem copies (he : h.Embeds ρ u)
    (hobject : ∀ n, ρ.object (h.objects.size + n) = u.objects.size + n)
    (hcell : ∀ n, ρ.cell (h.cells.size + n) = u.cells.size + n) : h.Copies ρ u := by
  have hfresh : ∀ v, ¬ h.Has v →
      h.object v = ⟨.nil, none⟩ ∧ u.object (ρ.value v) = ⟨.nil, none⟩ := by
    intro v hv
    cases v with
    | object address =>
      have hle : h.objects.size ≤ address := Nat.le_of_not_lt hv
      obtain ⟨n, rfl⟩ := Nat.exists_eq_add_of_le hle
      simp [Heap.object, hobject, Array.getD_eq_getD_getElem?]
    | _ => exact absurd trivial hv
  refine ⟨fun v => ?_, fun v => ?_, fun cell => ?_, hobject, hcell⟩
  · by_cases hv : h.Has v
    · exact he.content v hv
    · rw [Heap.content, Heap.content, (hfresh v hv).1, (hfresh v hv).2]
      exact .nil
  · by_cases hv : h.Has v
    · exact he.metadata v hv
    · rw [metadata?, metadata?, (hfresh v hv).1, (hfresh v hv).2]
      rfl
  · by_cases hlt : cell < h.cells.size
    · exact he.items cell hlt
    · obtain ⟨n, rfl⟩ := Nat.exists_eq_add_of_le (Nat.le_of_not_lt hlt)
      simp [Heap.items, sequence, hcell, Array.getD_eq_getD_getElem?]

section Between

variable (hsound : e.IsSound) (h₁ : e.Embeds σ g) (h₂ : e.Embeds τ u)
  (hvalue : ∀ v, e.Has v → ρ.value (σ.value v) = τ.value v)
include hsound h₁ h₂ hvalue

/-- Two images of one value are images of each other. -/
theorem content_between (hcell : ∀ cell < e.cells.size, ρ.cell (σ.cell cell) = τ.cell cell)
    {v : Value} (hv : e.Has v) :
    (g.content (σ.value v)).Mirrors ρ (u.content (ρ.value (σ.value v))) := by
  rw [hvalue v hv]
  exact (h₁.content v hv).between (h₂.content v hv) (hsound.content v) hvalue hcell

theorem metadata_between {v : Value} (hv : e.Has v) :
    u.metadata? (ρ.value (σ.value v)) = (g.metadata? (σ.value v)).map ρ.value := by
  rw [hvalue v hv, h₁.metadata v hv, h₂.metadata v hv]
  cases hm : e.metadata? v with
  | none => rfl
  | some m => simp [hvalue m (hsound.metadata v m hm)]

theorem items_between (hcell : ∀ cell < e.cells.size, ρ.cell (σ.cell cell) = τ.cell cell)
    {cell : CellId} (hlt : cell < e.cells.size) :
    u.items (ρ.cell (σ.cell cell)) = (g.items (σ.cell cell)).map ρ.value := by
  rw [hcell cell hlt, h₁.items cell hlt, h₂.items cell hlt, List.map_map]
  exact List.map_congr_left fun v hv => (hvalue v (hsound.items cell v hv)).symm

end Between

/-- Only what is done with addresses that were handed out matters. -/
theorem congr (hsound : h.IsSound) (he : h.Embeds ρ u) (hsame : Renaming.SameOn h ρ τ) :
    h.Embeds τ u := by
  have hself : h.Embeds .identity h := (Grows.refl h).embeds
  have hvalue : ∀ v, h.Has v → τ.value (Renaming.identity.value v) = ρ.value v := fun v hv => by
    rw [Renaming.value_identity]
    exact hsame.value hv
  refine ⟨fun v hv => ?_, fun v hv => ?_, fun cell hcell => ?_⟩
  · simpa [Renaming.value_identity] using content_between hsound hself he hvalue hsame.cell hv
  · simpa [Renaming.value_identity] using metadata_between hsound hself he hvalue hv
  · exact items_between hsound hself he hvalue hsame.cell hcell

end Embeds

section Building

variable (h : Heap) (d : Datum)

/-- The datum alone in a heap. -/
def block (d : Datum) : Heap := (({} : Heap).build d).2

theorem makes_block : Makes (fun _ _ => False) 0 {} (({} : Heap).build d) := makes_build d {}

theorem isSound_block : (block d).IsSound := isSound_empty.steps (makes_block d).1

theorem copies_behind : ({} : Heap).Copies (.behind h) h :=
  Embeds.copies ⟨fun v hv => by cases v with
      | object _ => exact absurd hv (Nat.not_lt_zero _)
      | nil => exact .nil
      | bool b => exact .bool b
      | symbol name => exact .symbol name,
    fun v hv => by cases v with
      | object _ => exact absurd hv (Nat.not_lt_zero _)
      | _ => rfl,
    fun _ hcell => absurd hcell (Nat.not_lt_zero _)⟩
    (fun n => by simp [Renaming.behind]) fun n => by simp [Renaming.behind]

/-- What is built of a datum is the same block behind every heap, and nothing else changes. -/
theorem build_behind :
    (h.build d).1 = (Renaming.behind h).value (({} : Heap).build d).1 ∧
      (block d).Copies (.behind h) (h.build d).2 ∧ (h.build d).2.atoms = h.atoms ∧
      (h.build d).2.closures = h.closures ∧ (h.build d).2.natives = h.natives := by
  have hkept : IsKept (.behind h) fun e g => e.Copies (.behind h) g ∧ g.atoms = h.atoms ∧
      g.closures = h.closures ∧ g.natives = h.natives :=
    ⟨fun hrel => hrel.1, fun hrel hc hm => ⟨hrel.1.alloc hc hm, hrel.2⟩,
      fun hrel hitems => ⟨hrel.1.pushCell hitems, hrel.2⟩⟩
  exact hkept.build d ⟨h.copies_behind, rfl, rfl, rfl⟩ (isSound_block d).isGrounded

theorem size_build :
    (h.build d).2.objects.size = h.objects.size + (block d).objects.size ∧
      (h.build d).2.cells.size = h.cells.size + (block d).cells.size := by
  obtain ⟨_, hcopies, _⟩ := h.build_behind d
  exact ⟨(hcopies.nextObject 0).symm, (hcopies.nextCell 0).symm⟩

end Building

section Sizes

variable {h u : Heap} (hgrows : h.Grows u)
include hgrows

theorem Grows.objects_le : h.objects.size ≤ u.objects.size := by
  by_contra hlt
  have hlast : u.objects.size < h.objects.size := by omega
  have hthere := hgrows.objects _ _ (Array.getElem?_eq_getElem hlast)
  simp at hthere

theorem Grows.cells_le : h.cells.size ≤ u.cells.size := by
  by_contra hlt
  have hlast : u.cells.size < h.cells.size := by omega
  have hthere := hgrows.cells _ _ (Array.getElem?_eq_getElem hlast)
  simp at hthere

end Sizes

/-- What was handed out between two heaps is spared with all around it. -/
theorem Grows.spares {ρ : Renaming} {start start' stop stop' : Heap} (hstart : start.Grows start')
    (hstop : stop'.Grows stop) (hspares : ρ.Spares start stop) : ρ.Spares start' stop' := by
  refine ⟨fun a => ?_, fun c => ?_⟩
  · have hle := hstart.objects_le
    have hle' := hstop.objects_le
    rcases hspares.object a with hbefore | hafter
    · exact .inl (by omega)
    · exact .inr (by omega)
  · rcases hspares.cell c with hbefore | hafter
    · exact .inl (Nat.lt_of_lt_of_le hbefore hstart.cells_le)
    · exact .inr (Nat.le_trans hstop.cells_le hafter)

section Arrays

variable {h : Heap} (hsound : h.IsSound)
include hsound

theorem IsSound.has_atom {v : Value} (hv : v ∈ h.atoms) : h.Has v := by
  obtain ⟨i, hi, rfl⟩ := Array.mem_iff_getElem.mp hv
  simpa [Heap.deref, hi] using hsound.deref i

theorem IsSound.has_body {c : Closure} (hc : c ∈ h.closures) : h.Has c.body := by
  obtain ⟨i, hi, rfl⟩ := Array.mem_iff_getElem.mp hc
  simpa [Heap.closure, hi] using hsound.body i

end Arrays

/-- A heap and a block behind it are embedded where each of them is. -/
theorem Embeds.build {ρ τ : Renaming} {g h u : Heap} {d : Datum} (hsound : h.IsSound)
    (he : h.Embeds ρ u) (hblock : (block d).Embeds (.behind g) u) (hsame : Renaming.SameOn h ρ τ)
    (hobject : ∀ i < (block d).objects.size, τ.object (h.objects.size + i) = g.objects.size + i)
    (hcell : ∀ i < (block d).cells.size, τ.cell (h.cells.size + i) = g.cells.size + i) :
    (h.build d).2.Embeds τ u := by
  have hold : h.Embeds .identity (h.build d).2 := (h.grows_build d).embeds
  have hnew : (block d).Embeds (.behind h) (h.build d).2 := .of_copies (h.build_behind d).2.1
  have hvalue : ∀ v, h.Has v → τ.value (Renaming.identity.value v) = ρ.value v := fun v hv => by
    rw [Renaming.value_identity]
    exact hsame.value hv
  have hvalue' : ∀ v, (block d).Has v →
      τ.value ((Renaming.behind h).value v) = (Renaming.behind g).value v := fun v hv => by
    cases v with
    | object i => exact congrArg Value.object (hobject i hv)
    | _ => rfl
  have hcases : ∀ v, (h.build d).2.Has v →
      h.Has v ∨ ∃ x, (block d).Has x ∧ v = (Renaming.behind h).value x := by
    intro v hv
    by_cases hhas : h.Has v
    · exact .inl hhas
    · cases v with
      | object address =>
        obtain ⟨i, rfl⟩ := Nat.exists_eq_add_of_le (Nat.le_of_not_lt hhas)
        have hlt : h.objects.size + i < (h.build d).2.objects.size := hv
        rw [(h.size_build d).1] at hlt
        exact .inr ⟨.object i, Nat.lt_of_add_lt_add_left hlt, rfl⟩
      | _ => exact absurd trivial hhas
  refine ⟨fun v hv => ?_, fun v hv => ?_, fun cell hlt => ?_⟩
  · rcases hcases v hv with hhas | ⟨x, hx, rfl⟩
    · simpa [Renaming.value_identity] using
        content_between hsound hold he hvalue hsame.cell hhas
    · exact content_between (isSound_block d) hnew hblock hvalue' hcell hx
  · rcases hcases v hv with hhas | ⟨x, hx, rfl⟩
    · simpa [Renaming.value_identity] using metadata_between hsound hold he hvalue hhas
    · exact metadata_between (isSound_block d) hnew hblock hvalue' hx
  · by_cases hold' : cell < h.cells.size
    · exact items_between hsound hold he hvalue hsame.cell hold'
    · obtain ⟨i, rfl⟩ := Nat.exists_eq_add_of_le (Nat.le_of_not_lt hold')
      rw [(h.size_build d).2] at hlt
      exact items_between (isSound_block d) hnew hblock hvalue' hcell
        (Nat.lt_of_add_lt_add_left hlt)

namespace MirrorsOver

variable {ρ τ : Renaming} {base g stop h u : Heap} {d : Datum}

theorem objects_le_base (hm : MirrorsOver ρ base h u) : base.objects.size ≤ u.objects.size :=
  Grows.objects_le (h := { base with cells := #[] }) ⟨hm.old, fun _ _ hcell => by simp at hcell⟩

/-- What is spared is as it was. -/
theorem embeds_block (hm : MirrorsOver ρ base h u) (hspares : ρ.Spares g stop)
    (hbuilt : (g.build d).2.Grows stop) (hstop : stop.Grows base) :
    (block d).Embeds (.behind g) u := by
  obtain ⟨_, hcopies, _⟩ := g.build_behind d
  obtain ⟨hobjects, hcells⟩ := g.size_build d
  have hobjectsLe := hbuilt.objects_le
  have hcellsLe := hbuilt.cells_le
  have hgrows : (g.build d).2.Grows { u with cells := (g.build d).2.cells } :=
    ⟨fun a o ho => hm.old a o ((hbuilt.trans hstop).objects a o ho), fun _ _ hcell => hcell⟩
  have hobject : ∀ v, (block d).Has v →
      u.object ((Renaming.behind g).value v) =
        (g.build d).2.object ((Renaming.behind g).value v) := by
    intro v hv
    refine hgrows.object (u := { u with cells := (g.build d).2.cells }) ?_
    cases v with
    | object i =>
      have hlt : i < (block d).objects.size := hv
      show g.objects.size + i < (g.build d).2.objects.size
      omega
    | _ => trivial
  refine ⟨fun v hv => ?_, fun v hv => ?_, fun cell hcell => ?_⟩
  · rw [Heap.content, Heap.content, hobject v hv]
    exact hcopies.content v
  · exact (congrArg Object.metadata (hobject v hv)).trans (hcopies.metadata v)
  · have hlt : g.cells.size + cell < (g.build d).2.cells.size := by omega
    have hspared : ∀ c, ρ.cell c ≠ g.cells.size + cell := by
      rintro c hc
      rcases hspares.cell c with hbefore | hafter
      · exact absurd (hc ▸ hbefore) (Nat.not_lt.mpr (Nat.le_add_right ..))
      · exact absurd (Nat.lt_of_lt_of_le hlt hcellsLe) (Nat.not_lt.mpr (hc ▸ hafter))
    have hkept := hm.kept (g.cells.size + cell)
      (Nat.lt_of_lt_of_le hlt (hcellsLe.trans hstop.cells_le)) hspared
    rw [← hcopies.items]
    exact hkept.trans ((hbuilt.trans hstop).items hlt)

/-- Only what is done with addresses that were handed out matters. -/
theorem congr (hsound : h.IsSound) (hm : MirrorsOver ρ base h u) (hsame : Renaming.SameOn h ρ τ)
    (hframe : τ.frame = ρ.frame) :
    u.atoms = h.atoms.map τ.value ∧ u.closures = h.closures.map τ.closure := by
  refine ⟨hm.atoms.trans (Array.map_congr_left fun v hv => ?_),
    hm.closures.trans (Array.map_congr_left fun c hc => ?_)⟩
  · exact (hsame.value (hsound.has_atom hv)).symm
  · simp only [Renaming.closure, hframe, hsame.value (hsound.has_body hc)]

/-- The block of a datum is sent to one that was built in the other heap already. -/
theorem exists_extension (hsound : h.IsSound) (hm : MirrorsOver ρ base h u)
    (hspares : ρ.Spares g stop) (hbuilt : (g.build d).2.Grows stop) (hstop : stop.Grows base) :
    ∃ τ : Renaming, Renaming.SameOn h ρ τ ∧ τ.frame = ρ.frame ∧
      τ.value (h.build d).1 = (g.build d).1 ∧ MirrorsOver τ base (h.build d).2 u ∧
      τ.Spares (g.build d).2 stop := by
  obtain ⟨hobjects, hcells⟩ := g.size_build d
  have hobjectsLe := hbuilt.objects_le
  have hcellsLe := hbuilt.cells_le
  have hbaseObjects := hstop.objects_le.trans hm.objects_le_base
  have hbaseCells := hstop.cells_le.trans hm.oldCells
  let τ : Renaming :=
    { object :=
        redirect ρ.object h.objects.size (block d).objects.size g.objects.size u.objects.size
      cell := redirect ρ.cell h.cells.size (block d).cells.size g.cells.size u.cells.size
      frame := ρ.frame
      object_injective := redirect_injective hspares.object (hobjects ▸ hobjectsLe) hbaseObjects
        ρ.object_injective fun _ => lt_of_aligned ρ.object_injective hm.nextObject
      cell_injective := redirect_injective hspares.cell (hcells ▸ hcellsLe) hbaseCells
        ρ.cell_injective fun _ => lt_of_aligned ρ.cell_injective hm.nextCell
      frame_injective := ρ.frame_injective
      frame_zero := ρ.frame_zero }
  have hsame : Renaming.SameOn h ρ τ := ⟨fun _ => redirect_old, fun _ => redirect_old⟩
  have hembeds : (h.build d).2.Embeds τ u :=
    (Embeds.of_copies hm.toCopies).build hsound (hm.embeds_block hspares hbuilt hstop) hsame
      (fun _ => redirect_block) fun _ => redirect_block
  obtain ⟨hvalue, _, hatoms, hclosures, hnatives⟩ := h.build_behind d
  obtain ⟨hatoms', hclosures'⟩ := hm.congr hsound hsame rfl
  refine ⟨τ, hsame, rfl, ?_, ?_, ?_, ?_⟩
  · have hroot := (makes_block d).2
    rw [hvalue, (g.build_behind d).1]
    generalize (({} : Heap).build d).1 = v at hroot ⊢
    cases v with
    | object i => exact congrArg Value.object (redirect_block hroot)
    | _ => rfl
  · refine ⟨⟨hembeds.copies (fun n => ?_) fun n => ?_, ?_, ?_, ?_⟩, hm.old, hm.oldCells, ?_⟩
    · rw [(h.size_build d).1]
      exact redirect_next
    · rw [(h.size_build d).2]
      exact redirect_next
    · rw [hatoms, hatoms']
    · rw [hclosures, hclosures']
    · rw [hnatives, hm.natives]
    · intro cell hcell hfree
      refine hm.kept cell hcell fun c hc => ?_
      by_cases hold : c < h.cells.size
      · exact hfree c ((hsame.cell c hold).trans hc)
      · obtain ⟨n, rfl⟩ := Nat.exists_eq_add_of_le (Nat.le_of_not_lt hold)
        rw [hm.nextCell] at hc
        exact absurd (Nat.lt_of_lt_of_le hcell hm.oldCells)
          (Nat.not_lt.mpr (hc ▸ Nat.le_add_right ..))
  · rw [hobjects]
    exact avoids_redirect hspares.object hbaseObjects
  · rw [hcells]
    exact avoids_redirect hspares.cell hbaseCells

end MirrorsOver

end Heap

end Lisp
