import Lisp.Proofs.Heap.Rendering
import Lisp.Proofs.Session.Reachable

/-!
What the text of a value shows. Lists, vectors and atoms may contain themselves, so the tree of all
that is inside a value can be infinite. The outline of a value is that tree, cut wherever a cell is
met again below itself and nowhere else. Each value has one outline, and its text is the text of the
outline. The places that rendering has open are those of the values on the way down, so that what is
beside a value never matters.
-/
namespace Lisp

namespace Heap

/-- The cell behind a list, a vector or an atom. -/
def place? (h : Heap) (v : Value) : Option Place :=
  match h.content v with
  | .list cell | .vector cell => some (.sequence cell)
  | .atom atom => some (.atom atom)
  | _ => none

/-- What stands inside the text of a value: elements, keys and values in turn, what an atom holds,
or the payload of an error. -/
def inside (h : Heap) (v : Value) : List Value :=
  match h.content v with
  | .atom atom => [h.deref atom]
  | _ => h.held v

/-- The second value is directly inside the first. -/
def Shows (h : Heap) (a b : Value) : Prop := b ∈ h.inside a

/-- The cell of the value is that of a value on the path. -/
def Recurs (h : Heap) (path : List Value) (v : Value) : Prop :=
  h.place? v ≠ none ∧ ∃ a ∈ path, h.place? a = h.place? v

instance (h : Heap) (path : List Value) (v : Value) : Decidable (h.Recurs path v) :=
  inferInstanceAs (Decidable (_ ∧ _))

/-- The text of a value around the text of what is inside it. -/
def textAround (h : Heap) (style : Style) (v : Value) (inner : Text) : Text :=
  match h.content v with
  | .nil => Text.of "nil"
  | .bool b => Text.of (if b then "true" else "false")
  | .int n => Text.ofInt n.toInt
  | .float x => Number.literal x
  | .string s => stringText style s.toList
  | .symbol name => name
  | .keyword name => Text.of ":" ++ name
  | .list _ => Text.of "(" ++ inner ++ Text.of ")"
  | .vector _ => Text.of "[" ++ inner ++ Text.of "]"
  | .map _ => Text.of "\x7b" ++ inner ++ Text.of "\x7d"
  | .atom _ => Text.of "(atom " ++ inner ++ Text.of ")"
  | .native id => Text.of "#<native " ++ (h.native id).name ++ Text.of ">"
  | .closure id => h.functionText id
  | .error _ => Text.of "#<error " ++ inner ++ Text.of ">"

end Heap

/-- A value as far as it is written out. -/
inductive Outline
  | cut (v : Value)
  | whole (v : Value) (parts : List Outline)
  deriving Inhabited

namespace Outline

/-- Induction over an outline: what holds of all parts carries over to the whole. -/
@[induction_eliminator]
theorem induct {motive : Outline → Prop} (cut : ∀ v, motive (.cut v))
    (whole : ∀ v parts, (∀ o ∈ parts, motive o) → motive (.whole v parts)) (o : Outline) :
    motive o := by
  refine @Outline.rec motive (fun parts => ∀ o ∈ parts, motive o) cut whole ?_ ?_ o
  · intro o ho
    cases ho
  · intro o parts ho hparts p hp
    rcases List.mem_cons.mp hp with rfl | hp
    · exact ho
    · exact hparts p hp

def root : Outline → Value
  | .cut v => v
  | .whole v _ => v

mutual

/-- Three dots stand for what is cut. -/
def text (h : Heap) (style : Style) : Outline → Text
  | .cut v => h.textAround style v (Text.of "...")
  | .whole v parts => h.textAround style v (Text.join (Text.of " ") (texts h style parts))

def texts (h : Heap) (style : Style) : List Outline → List Text
  | [] => []
  | o :: rest => text h style o :: texts h style rest

end

mutual

/-- A value is cut just where its cell is that of a value on the path down to it; elsewhere all that
is inside it follows. -/
def CutExactly (h : Heap) : (path : List Value) → Outline → Prop
  | path, .cut v => h.Recurs path v
  | path, .whole v parts =>
    ¬ h.Recurs path v ∧ parts.map root = h.inside v ∧ AllCutExactly h (v :: path) parts

def AllCutExactly (h : Heap) : (path : List Value) → List Outline → Prop
  | _, [] => True
  | path, o :: rest => CutExactly h path o ∧ AllCutExactly h path rest

end

mutual

/-- Nothing is cut: the outline is what plain recursion goes through. -/
def IsPlain (h : Heap) : Outline → Prop
  | .cut _ => False
  | .whole v parts => parts.map root = h.inside v ∧ AllPlain h parts

def AllPlain (h : Heap) : List Outline → Prop
  | [] => True
  | o :: rest => IsPlain h o ∧ AllPlain h rest

end

variable {h : Heap} {style : Style} {path : List Value} {parts : List Outline}

theorem texts_eq : texts h style parts = parts.map (text h style) := by
  induction parts with
  | nil => rfl
  | cons o rest ih => rw [texts, ih, List.map_cons]

theorem allCutExactly_iff : AllCutExactly h path parts ↔ ∀ o ∈ parts, CutExactly h path o := by
  induction parts with
  | nil => simp [AllCutExactly]
  | cons o rest ih => simp [AllCutExactly, ih]

theorem allPlain_iff : AllPlain h parts ↔ ∀ o ∈ parts, IsPlain h o := by
  induction parts with
  | nil => simp [AllPlain]
  | cons o rest ih => simp [AllPlain, ih]

/-- Outlines that agree part by part are the same. -/
theorem eq_of_roots {parts' : List Outline} {P : Outline → Prop}
    (heq : ∀ o ∈ parts, ∀ o', P o' → o'.root = o.root → o' = o) (hall : ∀ o ∈ parts', P o)
    (hroots : parts'.map root = parts.map root) : parts' = parts := by
  induction parts generalizing parts' with
  | nil => exact List.map_eq_nil_iff.mp hroots
  | cons o rest ih =>
    cases parts' with
    | nil => cases hroots
    | cons o' rest' =>
      rw [List.map_cons, List.map_cons, List.cons.injEq] at hroots
      rw [heq o List.mem_cons_self o' (hall o' List.mem_cons_self) hroots.1,
        ih (fun p hp => heq p (List.mem_cons_of_mem o hp))
          (fun p hp => hall p (List.mem_cons_of_mem o' hp)) hroots.2]

/-- The path and the value determine the outline. -/
theorem CutExactly.unique {o o' : Outline} (ho : o.CutExactly h path) (ho' : o'.CutExactly h path)
    (hroot : o'.root = o.root) : o' = o := by
  induction o generalizing path o' with
  | cut v =>
    cases o' with
    | cut v' =>
      obtain rfl : v' = v := hroot
      rfl
    | whole v' parts' =>
      obtain rfl : v' = v := hroot
      exact absurd ho ho'.1
  | whole v parts ih =>
    cases o' with
    | cut v' =>
      obtain rfl : v' = v := hroot
      exact absurd ho' ho.1
    | whole v' parts' =>
      obtain rfl : v' = v := hroot
      obtain ⟨_, hroots, hparts⟩ := ho
      obtain ⟨_, hroots', hparts'⟩ := ho'
      rw [allCutExactly_iff] at hparts hparts'
      rw [eq_of_roots (P := CutExactly h (v' :: path))
        (fun p hp p' hp' => ih p hp (hparts p hp) hp') hparts' (hroots'.trans hroots.symm)]

end Outline

namespace Heap

section Rendering

variable {h : Heap} {opened : Trail} {path : List Value} {v x : Value} {style : Style}

/-- The trail of places that are open once the place of a value is. -/
def entered (opened : Trail) : Option Place → Trail
  | some p => opened.add p.mark
  | none => opened

/-- The open places are those of the values on the path. -/
def Traces (h : Heap) (opened : Trail) (path : List Value) : Prop :=
  ∀ p : Place, opened.contains p.mark = true ↔ ∃ a ∈ path, h.place? a = some p

theorem traces_nil : h.Traces {} [] := by
  intro p
  simp

theorem Traces.cons (htraces : h.Traces opened path) (v : Value) :
    h.Traces (entered opened (h.place? v)) (v :: path) := by
  intro p
  cases hv : h.place? v with
  | none => simp [entered, hv, htraces p]
  | some q =>
    have hmark : q.mark = p.mark ↔ q = p := ⟨Place.mark_injective, fun heq => by rw [heq]⟩
    simp [entered, hv, htraces p, hmark]

/-- A place is open just where its cell recurs. -/
theorem Traces.recurs_iff (htraces : h.Traces opened path) :
    h.Recurs path v ↔ (h.place? v).any (fun p => opened.contains p.mark) = true := by
  unfold Recurs
  cases hv : h.place? v with
  | none => simp
  | some p => simp [htraces p]

theorem text_of_signs : Text.of "(" = [40] ∧ Text.of ")" = [41] ∧ Text.of "[" = [91] ∧
    Text.of "]" = [93] ∧ Text.of "\x7b" = [123] ∧ Text.of "\x7d" = [125] ∧ Text.of ">" = [62] ∧
    Text.of ":" = [58] ∧ Text.of " " = [32] ∧
    Text.of "(atom ...)" = Text.of "(atom " ++ Text.of "..." ++ [41] := by
  decide +kernel

/-- Where the place of a value is open, the value is cut short. -/
theorem renderWithin_open (fuel : Nat)
    (hopen : (h.place? v).any (fun p => opened.contains p.mark) = true) :
    h.renderWithin style (fuel + 1) opened v = h.textAround style v (Text.of "...") := by
  cases hv : h.content v with
  | list cell | vector cell =>
    have hcontains : opened.contains (Place.sequence cell).mark = true := by
      simpa [place?, hv] using hopen
    simp [renderWithin, sequenceText, textAround, hv, hcontains, text_of_signs]
  | atom atom =>
    have hcontains : opened.contains (Place.atom atom).mark = true := by
      simpa [place?, hv] using hopen
    simp [renderWithin, textAround, hv, hcontains, text_of_signs]
  | _ => simp [place?, hv] at hopen

/-- Elsewhere what is inside is written, with the place of the value open. -/
theorem renderWithin_closed (fuel : Nat)
    (hclosed : (h.place? v).any (fun p => opened.contains p.mark) = false) :
    h.renderWithin style (fuel + 1) opened v =
      h.textAround style v (Text.join (Text.of " ") ((h.inside v).map
        (h.renderWithin style fuel (entered opened (h.place? v))))) := by
  cases hv : h.content v with
  | list cell | vector cell =>
    have hcontains : opened.contains (Place.sequence cell).mark = false := by
      simpa [place?, hv] using hclosed
    simp [renderWithin, sequenceText, textAround, place?, inside, held, entered, hv, hcontains,
      text_of_signs]
  | atom atom =>
    have hcontains : opened.contains (Place.atom atom).mark = false := by
      simpa [place?, hv] using hclosed
    simp [renderWithin, textAround, place?, inside, entered, hv, hcontains, Text.join,
      text_of_signs]
  | map entries =>
    simp [renderWithin, textAround, place?, inside, held, Content.enclosed, alternate, entered, hv,
      text_of_signs]
  | error payload =>
    simp [renderWithin, textAround, place?, inside, held, Content.enclosed, entered, hv, Text.join,
      text_of_signs]
  | bool b => cases b <;> simp [renderWithin, textAround, hv]
  | _ => simp [renderWithin, textAround, hv, text_of_signs]

/-- What is inside a value is rendered when the value is. -/
theorem renders_of_shows
    (hclosed : (h.place? v).any (fun p => opened.contains p.mark) = false) (hx : h.Shows v x) :
    h.Renders (opened, v) (entered opened (h.place? v), x) := by
  unfold Shows inside at hx
  cases hv : h.content v with
  | list cell | vector cell =>
    have hcontains : opened.contains (Place.sequence cell).mark = false := by
      simpa [place?, hv] using hclosed
    have hitem : x ∈ h.items cell := by simpa [held, hv] using hx
    simpa [place?, hv, entered] using Renders.element (by simp [hv]) hcontains hitem
  | atom atom =>
    have hcontains : opened.contains (Place.atom atom).mark = false := by
      simpa [place?, hv] using hclosed
    obtain rfl : x = h.deref atom := by simpa [hv] using hx
    simpa [place?, hv, entered] using Renders.atom hv hcontains
  | _ =>
    have hencloses : h.Encloses v x := by simpa [Encloses, held, hv] using hx
    simpa [place?, hv, entered] using @Renders.enclosed h opened v x hencloses

theorem wellFounded_renders (hground : h.IsGrounded) : WellFounded fun q p => h.Renders p q :=
  Subrelation.wf (fun hrenders => renderingRank_lt hground hrenders) (measure h.renderingRank).wf

/-- Every value has an outline below a path whose places are open, and its text is that of the
outline. -/
theorem exists_outline (hground : h.IsGrounded) (q : Trail × Value) :
    ∀ path, h.Traces q.1 path → ∃ o : Outline, o.root = q.2 ∧ o.CutExactly h path ∧
      ∀ style fuel, h.renderingRank q < fuel →
        h.renderWithin style fuel q.1 q.2 = o.text h style := by
  induction q using (wellFounded_renders hground).induction with
  | _ q ih =>
    obtain ⟨opened, v⟩ := q
    intro path htraces
    by_cases hrecurs : h.Recurs path v
    · refine ⟨.cut v, rfl, hrecurs, fun style fuel hfuel => ?_⟩
      obtain ⟨fuel, rfl⟩ := Nat.exists_eq_succ_of_ne_zero (Nat.ne_zero_of_lt hfuel)
      exact renderWithin_open fuel (htraces.recurs_iff.mp hrecurs)
    · have hclosed : (h.place? v).any (fun p => opened.contains p.mark) = false :=
        Bool.eq_false_iff.mpr (mt htraces.recurs_iff.mpr hrecurs)
      have hparts : ∀ x ∈ h.inside v, ∃ o : Outline, o.root = x ∧ o.CutExactly h (v :: path) ∧
          ∀ style fuel, h.renderingRank (entered opened (h.place? v), x) < fuel →
            h.renderWithin style fuel (entered opened (h.place? v)) x = o.text h style :=
          fun x hx =>
        ih _ (renders_of_shows hclosed hx) (v :: path) (htraces.cons v)
      choose! part hroot hcut htext using hparts
      refine ⟨.whole v ((h.inside v).map part), rfl, ⟨hrecurs, ?_, ?_⟩, fun style fuel hfuel => ?_⟩
      · rw [List.map_map]
        exact (List.map_congr_left hroot).trans (List.map_id _)
      · rw [Outline.allCutExactly_iff]
        intro o ho
        obtain ⟨x, hx, rfl⟩ := List.mem_map.mp ho
        exact hcut x hx
      · obtain ⟨fuel, rfl⟩ := Nat.exists_eq_succ_of_ne_zero (Nat.ne_zero_of_lt hfuel)
        rw [Nat.succ_eq_add_one, renderWithin_closed fuel hclosed, Outline.text,
          Outline.texts_eq, List.map_map]
        congr 2
        refine List.map_congr_left fun x hx => htext x hx style fuel ?_
        have hlt := renderingRank_lt hground (renders_of_shows hclosed hx)
        omega

/-- The text of a value is the text of its outline. -/
theorem render_eq_outline (hground : h.IsGrounded) {o : Outline} (ho : o.CutExactly h [])
    (style : Style) : h.render style o.root = o.text h style := by
  obtain ⟨o', hroot, ho', htext⟩ := exists_outline hground ({}, o.root) [] traces_nil
  obtain rfl := ho.unique ho' hroot
  rw [render_eq]
  exact htext style h.renderingDepth (renderingRank_lt_renderingDepth _)

end Rendering

section Cycles

variable {h : Heap} {path : List Value} {v : Value}

/-- What is in the cell of a place. -/
def behind (h : Heap) : Place → List Value
  | .sequence cell => h.items cell
  | .atom atom => [h.deref atom]

theorem inside_of_place? {p : Place} (hp : h.place? v = some p) : h.inside v = h.behind p := by
  unfold place? at hp
  split at hp <;> cases hp <;> simp [inside, held, behind, *]

/-- Nothing that is reached from the value is inside itself. -/
def IsAcyclic (h : Heap) (v : Value) : Prop :=
  ∀ a, Relation.ReflTransGen h.Shows v a → ¬ Relation.TransGen h.Shows a a

/-- A value whose cell recurs is inside itself. -/
theorem transGen_of_recurs (hpath : ∀ a ∈ path, Relation.TransGen h.Shows a v)
    (hrecurs : h.Recurs path v) : Relation.TransGen h.Shows v v := by
  obtain ⟨hne, a, ha, heq⟩ := hrecurs
  obtain ⟨p, hp⟩ := Option.ne_none_iff_exists'.mp hne
  obtain ⟨x, hax, hxv⟩ := Relation.TransGen.head'_iff.mp (hpath a ha)
  have hvx : h.Shows v x := by
    rwa [Shows, inside_of_place? hp, ← inside_of_place? (heq.trans hp)]
  exact .head' hvx hxv

/-- Below a value without cycles nothing is cut. -/
theorem IsAcyclic.isPlain {r : Value} (hacyclic : h.IsAcyclic r) {o : Outline}
    (hreach : Relation.ReflTransGen h.Shows r o.root)
    (hpath : ∀ a ∈ path, Relation.TransGen h.Shows a o.root) (ho : o.CutExactly h path) :
    o.IsPlain h := by
  induction o generalizing path with
  | cut v => exact hacyclic v hreach (transGen_of_recurs hpath ho)
  | whole v parts ih =>
    obtain ⟨_, hroots, hparts⟩ := ho
    refine ⟨hroots, Outline.allPlain_iff.mpr fun p hp => ?_⟩
    have hshows : h.Shows v p.root := by
      rw [Shows, ← hroots]
      exact List.mem_map_of_mem hp
    refine ih p hp (hreach.tail hshows) (fun a ha => ?_)
      (Outline.allCutExactly_iff.mp hparts p hp)
    rcases List.mem_cons.mp ha with rfl | ha
    · exact .single hshows
    · exact (hpath a ha).tail hshows

end Cycles

end Heap

namespace Session

open Heap

/-- The text of a value ends, and is that of its one outline, which is cut where the cell of a list,
vector or atom is met again on the path down to it and nowhere else; without cycles it is plain. -/
theorem texts_cut_cycles_exactly :
    (∀ w, Reachable w → w.heap.IsGrounded) ∧
    ∀ h : Heap, h.IsGrounded →
      (WellFounded fun q p => h.Renders p q) ∧
      (∀ style fuel v, h.renderingDepth ≤ fuel →
        (Printer.writeWithin h style fuel v {}).map (·.script.text) = .ok (h.render style v)) ∧
      (∀ v, ∃! o : Outline, o.root = v ∧ o.CutExactly h []) ∧
      (∀ o : Outline, o.CutExactly h [] → ∀ style, h.render style o.root = o.text h style) ∧
      (∀ v, h.IsAcyclic v →
        ∃ o : Outline, o.root = v ∧ o.IsPlain h ∧ ∀ style, h.render style v = o.text h style) ∧
      ∀ style separator vs, (h.renderAll style separator vs).toList =
        Text.join separator (vs.map (h.render style)) := by
  refine ⟨fun w hw => hw.ready.sound.heap.isGrounded, fun h hground => ?_⟩
  have hexists : ∀ v, ∃ o : Outline, o.root = v ∧ o.CutExactly h [] := by
    intro v
    obtain ⟨o, hroot, ho, _⟩ := exists_outline hground ({}, v) [] traces_nil
    exact ⟨o, hroot, ho⟩
  refine ⟨wellFounded_renders hground, ?_, ?_, ?_, ?_, ?_⟩
  · intro style fuel v hfuel
    obtain ⟨p, hp, hwrote⟩ := Printer.exists_writeWithin h style fuel v {}
    have htext : p.script.text = h.render style v := by
      rw [← renderWithin_of_le hground hfuel v]
      simpa using hwrote.text
    rw [hp, ← htext]
    rfl
  · intro v
    obtain ⟨o, hroot, ho⟩ := hexists v
    exact ⟨o, ⟨hroot, ho⟩, fun o' ho' => ho.unique ho'.2 (ho'.1.trans hroot.symm)⟩
  · intro o ho style
    exact render_eq_outline hground ho style
  · intro v hacyclic
    obtain ⟨o, rfl, ho⟩ := hexists v
    have hplain : o.IsPlain h := hacyclic.isPlain .refl (by simp) ho
    exact ⟨o, rfl, hplain, fun style => render_eq_outline hground ho style⟩
  · intro style separator vs
    exact h.toList_renderAll style separator vs

/-- A list that holds a map twice and an error; the map holds the list, and the payload of the error
is an atom that holds the error. -/
def looped : Heap where
  objects := #[⟨.list 0, none⟩, ⟨.map (.ofList [(.bool true, .object 0)]), none⟩, ⟨.atom 0, none⟩,
    ⟨.error (.object 2), none⟩]
  cells := #[.ofList [.object 1, .object 1, .object 3]]
  atoms := #[.object 3]

theorem isGrounded_looped : looped.IsGrounded := by
  have hencloses : ∀ a b, looped.Encloses a b →
      (a = .object 1 ∨ a = .object 3) ∧ b ≠ .object 1 ∧ b ≠ .object 3 := by
    intro a b hab
    obtain ⟨address, hlt, rfl⟩ := exists_object_of_holds hab.holds
    have hall : ∀ address < 4, ∀ v ∈ (looped.content (.object address)).enclosed,
        (address = 1 ∨ address = 3) ∧ v ≠ .object 1 ∧ v ≠ .object 3 := by decide +kernel
    simpa using hall address hlt b hab
  intro a hloop
  obtain ⟨b, hab, _⟩ := Relation.TransGen.head'_iff.mp hloop
  obtain ⟨c, _, hca⟩ := Relation.TransGen.tail'_iff.mp hloop
  obtain ⟨_, hmap, herror⟩ := hencloses c a hca
  rcases (hencloses a b hab).1 with rfl | rfl
  · exact hmap rfl
  · exact herror rfl

/-- The outline of the list: the map is written out both times, and in it the list is cut; the error
is met again below itself, but the atom is what is cut. -/
def loopedOutline : Outline :=
  let list : Outline := .cut (.object 0)
  let map : Outline := .whole (.object 1) [.whole (.bool true) [], list]
  let error : Outline := .whole (.object 3) [.cut (.object 2)]
  .whole (.object 0) [map, map, .whole (.object 3) [.whole (.object 2) [error]]]

theorem texts_cut_cycles_exactly_looped :
    looped.IsGrounded ∧ loopedOutline.CutExactly looped [] ∧
    looped.render .readable (.object 0) =
      Text.of "(\x7btrue (...)\x7d \x7btrue (...)\x7d #<error (atom #<error (atom ...)>)>)" := by
  have hcut : loopedOutline.CutExactly looped [] := by
    simp only [loopedOutline, Outline.CutExactly, Outline.AllCutExactly]
    decide +kernel
  refine ⟨isGrounded_looped, hcut, ?_⟩
  have htext := (texts_cut_cycles_exactly.2 looped isGrounded_looped).2.2.2.1 _ hcut .readable
  refine htext.trans ?_
  decide +kernel

end Session

end Lisp
