import Lisp.Proofs.World.Quiet
import Lisp.Proofs.World.Soundness

/-!
Names are resolved to the nearest frame that binds them. A frame is looked through first, then the
frame around it, and so on outwards. Frames share the frames around them, so what is bound in one of
them is seen from all those that come to it before another frame that binds the name, and from no
others: binding a name changes what these pairs of a frame and a name stand for, and nothing else.
-/
namespace Lisp

namespace Scopes

variable {s : Scopes} {e f g : FrameId} {name other : Text} {v : Value}

/-- Going outwards from `g`, the frame `e` is come to before any other frame that binds the name.
-/
inductive Reaches (s : Scopes) (name : Text) : FrameId → FrameId → Prop
  | here {e : FrameId} : Reaches s name e e
  | outwards {g o e : FrameId} :
    s.get? g name = none → s.outer? g = some o → Reaches s name o e → Reaches s name g e

section Walking

/-- The path outwards from a frame goes on with that of the frame around it. -/
theorem IsForest.path (hs : s.IsForest) (g : FrameId) :
    s.path g = g :: ((s.outer? g).map s.path).getD [] := by
  rw [Scopes.path]
  cases houter : s.outer? g with
  | none => rw [List.head?_eq_none_iff.mp houter]; rfl
  | some o => rw [(hs g o houter).2]; rfl

theorem IsForest.find? (hs : s.IsForest) (g : FrameId) (name : Text) :
    s.find? g name = (s.get? g name).or ((s.outer? g).bind (s.find? · name)) := by
  rw [Scopes.find?, hs.path, List.findSome?_cons]
  cases s.get? g name with
  | some v => rfl
  | none => cases s.outer? g <;> rfl

theorem IsForest.resolve? (hs : s.IsForest) (g : FrameId) (name : Text) :
    s.resolve? g name =
      if (s.get? g name).isSome then some g else (s.outer? g).bind (s.resolve? · name) := by
  rw [Scopes.resolve?, hs.path, List.find?_cons]
  cases s.get? g name with
  | some v => rfl
  | none => cases s.outer? g <;> rfl

/-- What is found is what the frame binds that the name is resolved to. -/
theorem find?_eq_bind (s : Scopes) (g : FrameId) (name : Text) :
    s.find? g name = (s.resolve? g name).bind (s.get? · name) := by
  unfold Scopes.find? Scopes.resolve?
  induction s.path g with
  | nil => rfl
  | cons f rest ih =>
    rw [List.findSome?_cons, List.find?_cons]
    cases hget : s.get? f name with
    | none => exact ih
    | some v => exact hget.symm

/-- From frame to frame outwards, up to the outermost one. -/
theorem IsForest.induct (hs : s.IsForest) {p : FrameId → Prop}
    (hstep : ∀ g, (∀ o, s.outer? g = some o → p o) → p g) (g : FrameId) : p g := by
  induction g using Nat.strongRecOn with
  | ind g ih => exact hstep g fun o ho => ih o (hs g o ho).1

/-- A name is resolved to the first frame that binds it. -/
theorem IsForest.resolve?_eq_some_iff (hs : s.IsForest) :
    s.resolve? g name = some e ↔ s.Reaches name g e ∧ (s.get? e name).isSome := by
  constructor
  · induction g using hs.induct with
    | hstep g ih =>
      rw [hs.resolve?]
      split
      · rintro ⟨⟩
        exact ⟨.here, ‹_›⟩
      · rename_i hnone
        intro hresolve
        obtain ⟨o, ho, hresolve⟩ := Option.bind_eq_some_iff.mp hresolve
        obtain ⟨hreaches, hbound⟩ := ih o ho hresolve
        exact ⟨.outwards (Option.not_isSome_iff_eq_none.mp hnone) ho hreaches, hbound⟩
  · rintro ⟨hreaches, hbound⟩
    induction hreaches with
    | here => rw [hs.resolve?, if_pos hbound]
    | outwards hnone ho _ ih =>
      rw [hs.resolve?, hnone, ho]
      exact ih hbound

theorem IsForest.find?_eq_some_iff (hs : s.IsForest) :
    s.find? g name = some v ↔ ∃ e, s.Reaches name g e ∧ s.get? e name = some v := by
  rw [find?_eq_bind, Option.bind_eq_some_iff]
  refine exists_congr fun e => ?_
  rw [hs.resolve?_eq_some_iff]
  constructor
  · rintro ⟨⟨hreaches, -⟩, hget⟩
    exact ⟨hreaches, hget⟩
  · rintro ⟨hreaches, hget⟩
    exact ⟨⟨hreaches, by rw [hget]; rfl⟩, hget⟩

end Walking

section Binding

theorem lt_size_of_get? (hbound : (s.get? f name).isSome) : f < s.frames.size := by
  by_contra hge
  simp [get?, frame, Array.getD, hge] at hbound

theorem get?_define_self (he : e < s.frames.size) (name : Text) (v : Value) :
    (s.define e name v).get? e name = some v := by
  rw [get?_define, if_pos ⟨rfl, he, rfl⟩]

theorem outer?_define (s : Scopes) (e g : FrameId) (name : Text) (v : Value) :
    (s.define e name v).outer? g = s.outer? g := by
  rw [outer?, outers_define]
  rfl

/-- The name is resolved to the frame it has been bound in, from where that frame is come to. -/
theorem resolve?_define_of_reaches (hs : s.IsForest) (he : e < s.frames.size)
    (hreaches : s.Reaches name g e) (v : Value) :
    (s.define e name v).resolve? g name = some e := by
  have hforest := hs.define e name v
  induction hreaches with
  | here =>
    rw [hforest.resolve?, get?_define_self he]
    rfl
  | @outwards g o e hnone ho _ ih =>
    rw [hforest.resolve?, get?_define]
    split
    · rename_i hge
      rw [hge.1]
      rfl
    · rw [hnone, outer?_define, ho]
      exact ih he hforest

/-- From where that frame is not come to, and for all other names, nothing changes. -/
theorem resolve?_define_of_not_reaches (hs : s.IsForest)
    (hother : ¬ (other = name ∧ s.Reaches name g e)) (v : Value) :
    (s.define e name v).resolve? g other = s.resolve? g other := by
  have hforest := hs.define e name v
  induction g using hs.induct with
  | hstep g ih =>
    have hget : (s.define e name v).get? g other = s.get? g other := by
      rw [get?_define, if_neg]
      rintro ⟨rfl, -, rfl⟩
      exact hother ⟨rfl, .here⟩
    rw [hforest.resolve?, hs.resolve?, hget, outer?_define]
    split
    · rfl
    · rename_i hnone
      cases ho : s.outer? g with
      | none => rfl
      | some o =>
        refine ih o ho fun ⟨hname, hreaches⟩ => hother ⟨hname, ?_⟩
        subst hname
        exact .outwards (Option.not_isSome_iff_eq_none.mp hnone) ho hreaches

theorem find?_define_of_reaches (hs : s.IsForest) (he : e < s.frames.size)
    (hreaches : s.Reaches name g e) (v : Value) : (s.define e name v).find? g name = some v := by
  rw [find?_eq_bind, resolve?_define_of_reaches hs he hreaches, Option.bind_some,
    get?_define_self he]

theorem find?_define_of_not_reaches (hs : s.IsForest)
    (hother : ¬ (other = name ∧ s.Reaches name g e)) (v : Value) :
    (s.define e name v).find? g other = s.find? g other := by
  rw [find?_eq_bind, find?_eq_bind, resolve?_define_of_not_reaches hs hother]
  cases hresolve : s.resolve? g other with
  | none => rfl
  | some h =>
    rw [Option.bind_some, Option.bind_some, get?_define, if_neg]
    rintro ⟨rfl, -, rfl⟩
    exact hother ⟨rfl, (hs.resolve?_eq_some_iff.mp hresolve).1⟩

/-- A name that is bound anew is resolved as it was, from everywhere. -/
theorem resolve?_define_of_bound (hs : s.IsForest) (hbound : (s.get? e name).isSome) (v : Value)
    (g : FrameId) (other : Text) :
    (s.define e name v).resolve? g other = s.resolve? g other := by
  by_cases hsame : other = name ∧ s.Reaches name g e
  · obtain ⟨rfl, hreaches⟩ := hsame
    rw [resolve?_define_of_reaches hs (lt_size_of_get? hbound) hreaches,
      hs.resolve?_eq_some_iff.mpr ⟨hreaches, hbound⟩]
  · exact resolve?_define_of_not_reaches hs hsame v

/-- The name has been bound in the frame and nowhere else. All frames lie where they lay, and what
has changed is what the name stands for from where the frame is come to. -/
structure BoundIn (s : Scopes) (e : FrameId) (name : Text) (v : Value) (s' : Scopes) : Prop where
  get? : ∀ f other, s'.get? f other = if f = e ∧ other = name then some v else s.get? f other
  outer? : ∀ f, s'.outer? f = s.outer? f
  seen : ∀ g, s.Reaches name g e → s'.find? g name = some v ∧ s'.resolve? g name = some e
  unseen : ∀ g other, ¬ (other = name ∧ s.Reaches name g e) →
    s'.find? g other = s.find? g other ∧ s'.resolve? g other = s.resolve? g other

theorem boundIn_define (hs : s.IsForest) (he : e < s.frames.size) (name : Text) (v : Value) :
    s.BoundIn e name v (s.define e name v) where
  get? f other := by
    rw [get?_define]
    refine if_congr ?_ rfl rfl
    exact ⟨fun h => ⟨h.1, h.2.2.symm⟩, fun h => ⟨h.1, he, h.2.symm⟩⟩
  outer? f := outer?_define s e f name v
  seen _ hreaches :=
    ⟨find?_define_of_reaches hs he hreaches v, resolve?_define_of_reaches hs he hreaches v⟩
  unseen _ _ hother :=
    ⟨find?_define_of_not_reaches hs hother v, resolve?_define_of_not_reaches hs hother v⟩

end Binding

end Scopes

/-- A name is to be bound, from some frame: in the frame itself, or anew where it is bound. -/
inductive Write
  | define (f : FrameId) (name : Text) (v : Value)
  | set (f : FrameId) (name : Text) (v : Value)

def Write.perform : Write → Run Unit
  | .define f name v => Run.define f name v
  | .set f name v => Run.assign f name v

namespace World

open Scopes

variable {w : World}

/-- The world after some writes, one after the other, whether or not they fail. -/
def afterAll (w : World) (writes : List Write) : World :=
  writes.foldl (fun w write => w.after write.perform) w

section Writing

variable {f g : FrameId} {name : Text}

/-- Binding a name anew is binding it in the frame it is resolved to. -/
theorem assign_of_resolve? (hresolve : w.scopes.resolve? f name = some g) (v : Value) :
    Run.assign f name v w = .ok () { w with scopes := w.scopes.define g name v } := by
  have hread : Run.inScopes (·.resolve? f name) w = .ok (some g) w :=
    congrArg (EStateM.Result.ok · w) hresolve
  rewrite [Run.assign, Evaluator.bind_ok hread]
  rfl

theorem assign_of_unbound (hresolve : w.scopes.resolve? f name = none) (v : Value) :
    Run.assign f name v w = .error (.fault (.unbound name)) w := by
  have hread : Run.inScopes (·.resolve? f name) w = .ok none w :=
    congrArg (EStateM.Result.ok · w) hresolve
  rewrite [Run.assign, Evaluator.bind_ok hread]
  rfl

/-- Each write leaves the frames where they lie. -/
theorem after_write (w : World) (write : Write) :
    (w.after write.perform).scopes = w.scopes ∨
      ∃ f name v, (w.after write.perform).scopes = w.scopes.define f name v := by
  cases write with
  | define f name v => exact .inr ⟨f, name, v, rfl⟩
  | set f name v =>
    cases hresolve : w.scopes.resolve? f name with
    | none => exact .inl (congrArg scopes (after_error (assign_of_unbound hresolve v)))
    | some g =>
      exact .inr ⟨g, name, v, congrArg scopes (after_ok (assign_of_resolve? hresolve v))⟩

theorem afterAll_scopes (hforest : w.scopes.IsForest) (writes : List Write) :
    (w.afterAll writes).scopes.IsForest ∧
      (w.afterAll writes).scopes.frames.size = w.scopes.frames.size ∧
      ∀ f, (w.afterAll writes).scopes.outer? f = w.scopes.outer? f := by
  induction writes generalizing w with
  | nil => exact ⟨hforest, rfl, fun _ => rfl⟩
  | cons write rest ih =>
    rcases w.after_write write with hsame | ⟨f, name, v, hdefined⟩
    · have hrest := ih (w := w.after write.perform) (hsame ▸ hforest)
      rw [hsame] at hrest
      exact hrest
    · have hrest := ih (w := w.after write.perform) (hdefined ▸ hforest.define f name v)
      rw [hdefined, size_define] at hrest
      exact ⟨hrest.1, hrest.2.1, fun g => (hrest.2.2 g).trans (outer?_define w.scopes f g name v)⟩

end Writing

/-- A name stands for what the first frame outwards that binds it binds it to, and it is bound anew
there and nowhere else; where no frame binds it, binding it anew fails and changes nothing. -/
theorem writes_change_nearest_binding {w : World} (hforest : w.scopes.IsForest)
    (writes : List Write) :
    let w' := w.afterAll writes
    let s := w'.scopes
    (∀ f, s.outer? f = w.scopes.outer? f) ∧
    (∀ g name v, s.find? g name = some v ↔ ∃ e, s.Reaches name g e ∧ s.get? e name = some v) ∧
    (∀ f name v,
      (Run.assign f name v w' = .error (.fault (.unbound name)) w' ↔ s.find? f name = none) ∧
      (s.find? f name ≠ none → ∃ e s', s.Reaches name f e ∧ (s.get? e name).isSome ∧
        Run.assign f name v w' = .ok () { w' with scopes := s' } ∧ s.BoundIn e name v s' ∧
        ∀ g other, s'.resolve? g other = s.resolve? g other)) ∧
    ∀ e name v, e < w.scopes.frames.size → ∃ s',
      Run.define e name v w' = .ok () { w' with scopes := s' } ∧ s.BoundIn e name v s' := by
  intro w' s
  obtain ⟨hs, hsize, houter⟩ := afterAll_scopes hforest writes
  refine ⟨houter, fun g name v => hs.find?_eq_some_iff, fun f name v => ?_, fun e name v he => ?_⟩
  · have hfind := find?_eq_bind s f name
    cases hresolve : s.resolve? f name with
    | none =>
      rw [hresolve] at hfind
      exact ⟨iff_of_true (assign_of_unbound hresolve v) hfind, fun hfound => absurd hfind hfound⟩
    | some e =>
      obtain ⟨hreaches, hbound⟩ := hs.resolve?_eq_some_iff.mp hresolve
      have hassign := assign_of_resolve? hresolve v
      rw [hresolve, Option.bind_some] at hfind
      refine ⟨iff_of_false (fun hfail => ?_) fun hnone => ?_, fun _ => ?_⟩
      · cases hassign.symm.trans hfail
      · rw [hfind.symm.trans hnone] at hbound
        cases hbound
      · exact ⟨e, _, hreaches, hbound, hassign, boundIn_define hs (lt_size_of_get? hbound) name v,
          resolve?_define_of_bound hs hbound v⟩
  · exact ⟨_, rfl, boundIn_define hs (hsize ▸ he) name v⟩

/-- An outermost frame that binds `x`, two frames inside it, and one more inside the first of them.
-/
def grove : World :=
  let outermost := (Scopes.push {} none (.ofPairs [(Text.of "x", .nil)])).2
  let first := (outermost.push (some 0) {}).2
  let inside := (first.push (some 1) {}).2
  { scopes := (inside.push (some 0) {}).2 }

theorem isForest_grove : grove.scopes.IsForest := by
  dsimp only [grove]
  refine IsForest.push (IsForest.push (IsForest.push (IsForest.push isForest_empty ?_ _) ?_ _)
    ?_ _) ?_ _ <;> simp

/-- The innermost frame binds `x` as well and keeps what it bound when `x` is bound anew from beside
it, which the frame between it and the outermost one sees. -/
theorem writes_change_nearest_binding_grove :
    let x := Text.of "x"
    let w := grove.afterAll [.define 2 x (.bool true), .set 1 (Text.of "y") .nil]
    grove.scopes.IsForest ∧ ∃ s', Run.assign 3 x (.bool false) w = .ok () { w with scopes := s' } ∧
      s'.find? 1 x = some (.bool false) ∧ s'.find? 2 x = some (.bool true) ∧
      Run.assign 2 (Text.of "y") .nil w = .error (.fault (.unbound (Text.of "y"))) w := by
  intro x w
  obtain ⟨-, -, hassign, -⟩ := writes_change_nearest_binding isForest_grove
    [.define 2 x (.bool true), .set 1 (Text.of "y") .nil]
  have hs := (afterAll_scopes isForest_grove
    [.define 2 x (.bool true), .set 1 (Text.of "y") .nil]).1
  have hspec : w.scopes.find? 3 x ≠ none ∧ w.scopes.find? 2 (Text.of "y") = none ∧
      w.scopes.resolve? 3 x = some 0 ∧ w.scopes.resolve? 1 x = some 0 ∧
      w.scopes.resolve? 2 x = some 2 ∧ w.scopes.find? 2 x = some (.bool true) := by
    decide +kernel
  obtain ⟨hfound, hnone, h3, h1, h2, htrue⟩ := hspec
  obtain ⟨e, s', hreaches, hbound, hresult, hchange, -⟩ :=
    (hassign 3 x (.bool false)).2 hfound
  obtain rfl : 0 = e :=
    Option.some.inj (h3.symm.trans (hs.resolve?_eq_some_iff.mpr ⟨hreaches, hbound⟩))
  refine ⟨isForest_grove, s', hresult, ?_, ?_, (hassign 2 (Text.of "y") .nil).1.mpr hnone⟩
  · exact (hchange.seen 1 (hs.resolve?_eq_some_iff.mp h1).1).1
  · rw [(hchange.unseen 2 x ?_).1]
    · exact htrue
    · rintro ⟨-, hreaches⟩
      cases h2.symm.trans (hs.resolve?_eq_some_iff.mpr ⟨hreaches, hbound⟩)

end World

end Lisp
