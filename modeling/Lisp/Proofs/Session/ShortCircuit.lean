import Lisp.Proofs.Session.Capture
import Lisp.Proofs.Session.Stages

/-!
`or` and `and` stop at the first form that settles them. The forms are evaluated one after the
other, each in a new frame inside the one of the form before, but the last in the frame of the form
before it. The first value that settles the matter is the value of the whole, the last form gives
its own value, and a form that fails ends it.
-/
namespace Lisp.Connective

open Meaning Ending Evaluator Macro Session

/-- The call is expanded, for which a symbol is generated, and a new frame is made inside the one of
the call. -/
structure Enters (k : Connective) (s : Stage) (x : World) (inner : FrameId) : Prop where
  expands : ∃ v u, s.Expands k.name (.ok v u) ∧ Run.newFrame (some s.frame) {} u = .ok inner x
  adds : { s.world with generated := s.world.generated + 1 }.AddsOnly x
  isNew : s.world.scopes.frames.size ≤ inner
  frame : x.scopes.frames[inner]? = some ⟨{}, s.world.scopes.path s.frame⟩

/-- The first of several forms is evaluated in a new frame, and its value leaves it to the others.
It is bound to the generated symbol there. -/
def Pass (k : Connective) (s s' : Stage) : Prop :=
  ∃ first second others x inner v y, s.forms = first :: second :: others ∧ k.Enters s x inner ∧
    Evaluates x first inner (.ok v y) ∧ y.heap.isTruthy v = k.neutral ∧
    s' = ⟨y.binding inner (k.nextSymbol s.world) v, inner, second :: others⟩

/-- No form is left, and the value is nil or true; or one is left, which is evaluated where the call
stands; or the first of several settles the matter or fails, in a new frame. -/
def Finishes (k : Connective) (s : Stage) (r : Ending Value) : Prop :=
  match s.forms with
  | [] => ∃ v u, s.Expands k.name (.ok v u) ∧ s.world.AddsOnly u ∧ u.heap.Unfolds v k.empty ∧
      r = .ok v u
  | [last] => ∃ u, s.Expands k.name (.ok last u) ∧ s.world.AddsOnly u ∧ Evaluates u last s.frame r
  | first :: _ :: _ => ∃ x inner, k.Enters s x inner ∧
      ((∃ v y, Evaluates x first inner (.ok v y) ∧ y.heap.isTruthy v ≠ k.neutral ∧
          r = .ok v (y.binding inner (k.nextSymbol s.world) v)) ∨
        ∃ e y, Evaluates x first inner (.error e y) ∧ r = .error e y)

theorem Pass.fewer {k : Connective} (s s' : Stage) (hpass : k.Pass s s') :
    s'.forms.length < s.forms.length := by
  obtain ⟨_, _, _, _, _, _, _, hforms, _, _, _, rfl⟩ := hpass
  rw [hforms]
  exact Nat.lt_succ_self _

/-- What a call on several forms stands for, when the first of them is about to be evaluated. The
choice and the call on the others are out of its reach. -/
structure Opened (k : Connective) (s : Stage) (first : Value) (others : List Value) (v : Value)
    (u x : World) (inner : FrameId) (bindings : Value) (choice again : Nat) : Prop where
  expands : s.Expands k.name (.ok v u)
  newFrame : Run.newFrame (some s.frame) {} u = .ok inner x
  enters : k.Enters s x inner
  isLet : u.heap.IsForm v Special.letStar.name [bindings, .object choice]
  pair : u.heap.parts? bindings = some (.round, [.symbol (k.nextSymbol s.world), first])
  isChoice : x.heap.IsForm (.object choice) Special.conditional.name
    (.symbol (k.nextSymbol s.world) ::
      k.branches (.symbol (k.nextSymbol s.world)) (.object again))
  isAgain : x.heap.IsForm (.object again) k.name others
  hidden : ∃ base veil, Midway base inner veil x ∧ first.IsBelow base.objects.size ∧
    veil.object choice ∧ veil.object again

section Steps

variable {k : Connective} {s : Stage} {w z u x y : World} {frame inner : FrameId}
  {form v first second bindings : Value} {others : List Value} {choice again : Nat}
  {r : Ending Value}

/-- What is made for a call goes behind a veil. -/
theorem MakesChoice.exists_midway {symbol : Text} {choice again : Value}
    (hmade : k.MakesChoice z u v (.symbol symbol) first others bindings choice again)
    (hz : z.Ready .all) (hframe : z.Opens .all frame) (hothers : GivesAll z others) :
    ∃ a b veil, choice = .object a ∧ again = .object b ∧ Midway z.heap frame veil u ∧
      veil.object a ∧ veil.object b := by
  obtain ⟨head, choiceHead, againHead, x, y, hagain, hchoice, hv, hhead, hchoiceHead, hagainHead⟩ :=
    hmade.made
  obtain ⟨b, veil, rfl, hb, hx, hzx⟩ := (midway_start hz hframe).makeList hagain
    (List.forall_mem_cons.mpr ⟨Heap.has_of_unfolds_symbol hagainHead, hothers⟩)
  have hagainLt : b < x.heap.objects.size := hx.hides.heap.object_lt b hb
  have hitems : GivesAll x (choiceHead :: .symbol symbol ::
      k.branches (.symbol symbol) (.object b)) := by
    have hhead := hzx.before.notSmaller.has (Heap.has_of_unfolds_symbol hchoiceHead)
    refine List.forall_mem_cons.mpr ⟨hhead, List.forall_mem_cons.mpr ⟨trivial, ?_⟩⟩
    cases k <;> simp [branches, hagainLt, Heap.Has, Value.IsBelow]
  obtain ⟨a, veil, rfl, ha, hy, hxy⟩ := hx.makeList hchoice hitems
  have hzy := hzx.trans hxy
  have hparts : GivesAll y [head, bindings, .object a] := by
    have hbindings : z.heap.Has bindings := Heap.has_of_parts? hmade.pair
    intro item hitem
    simp only [List.mem_cons, List.not_mem_nil, or_false] at hitem
    rcases hitem with rfl | rfl | rfl
    · exact hzy.before.notSmaller.has (Heap.has_of_unfolds_symbol hhead)
    · exact hzy.before.notSmaller.has hbindings
    · exact hy.hides.heap.object_lt a ha
  obtain ⟨_, veil, rfl, _, hu, hyu⟩ := hy.makeList hv hparts
  exact ⟨a, b, veil, rfl, rfl, hu, hyu.object a ha, hyu.object b (hxy.object b hb)⟩

/-- Several forms are not counted as one. -/
theorem count_ne_one (hs : Stands k.name k.Pass k.Intact s form)
    (hforms : s.forms = first :: second :: others) : Int64.ofNat (others.length + 2) ≠ 1 := by
  have hlt := hs.count
  rw [hforms, List.length_cons, List.length_cons] at hlt
  intro hone
  have hvalue := congrArg Int64.toInt hone
  rw [Int64.toInt_ofNat_of_lt hlt, Int64.toInt_one] at hvalue
  omega

theorem enters_of_newFrame (hpath : s.world.scopes.HasPath s.frame)
    (hexpanded : s.Expands k.name (.ok v u))
    (hadds : { s.world with generated := s.world.generated + 1 }.AddsOnly u)
    (hnew : Run.newFrame (some s.frame) {} u = .ok inner x) : k.Enters s x inner := by
  obtain ⟨-, -, hframe⟩ := World.Adds.newFrame hnew
  refine ⟨⟨v, u, hexpanded, hnew⟩, hadds.trans (World.AddsOnly.newFrame hnew), ?_, ?_⟩
  · have hinner : inner = u.scopes.frames.size := by
      cases hnew
      rfl
    exact hinner ▸ hadds.frames_le
  · rw [hframe]
    exact congrArg (fun path => some (Frame.mk {} path)) (hadds.path hpath)

/-- A call on several forms is expanded, and a frame is made for the first of them. -/
theorem exists_opened (hs : Stands k.name k.Pass k.Intact s form)
    (hforms : s.forms = first :: second :: others) :
    ∃ v u x inner bindings choice again,
      k.Opened s first (second :: others) v u x inner bindings choice again := by
  obtain ⟨f, c, hfound, hcallee, hc⟩ := (hs.intact s .refl).known
  have hops := (hs.intact s .refl).operations
  have hpath := hs.sound.ready.sound.hasPath hs.sound.frame.1
  obtain ⟨v, z, u, log, bindings, choice, again, hexpands, hz, hmade⟩ :=
    hc.expandsOnce_general hops hs.hasPath_root first second (count_ne_one hs hforms)
  -- What is made for the call is made in a sound world.
  have hgiven := hforms ▸ hs.sound.forms
  have hcounted : World.Step .all s.world
      { s.world with generated := s.world.generated + 1 } := .other rfl rfl
  have hsteps : World.Steps .all s.world z := .head hcounted (hz.steps hgiven)
  have hthere : GivesAll z (first :: second :: others) := fun item hitem =>
    hsteps.notSmaller.1.has (hgiven item hitem)
  obtain ⟨a, b, veil, rfl, rfl, hmidway, ha, hb⟩ := hmade.exists_midway
    (hs.sound.ready.steps hsteps) (hsteps.opens hs.sound.frame)
    fun item hitem => hthere item (List.mem_cons_of_mem _ hitem)
  obtain ⟨hzu, hlet, hpair, hchoice, hagain⟩ := hmade.isForm
  obtain ⟨inner, x, hnew⟩ : ∃ inner x,
      Run.newFrame (some s.frame) {} { u with log := log } = .ok inner x := ⟨_, _, rfl⟩
  have hexpanded : s.Expands k.name (.ok v { u with log := log }) :=
    ⟨f, c, hfound, hcallee, hc.isMacro, hforms ▸ hexpands⟩
  have hadds : World.AddsOnly { s.world with generated := s.world.generated + 1 }
      { u with log := log } := { hz.toAddsOnly.trans hzu with }
  have hnoted : Midway z.heap s.frame veil { u with log := log } := hmidway.congr rfl rfl
  obtain ⟨-, hheap, -⟩ := World.Adds.newFrame hnew
  exact ⟨v, _, x, inner, bindings, a, b, hexpanded, hnew,
    enters_of_newFrame hpath hexpanded hadds hnew, hlet, hpair, hheap ▸ hchoice, hheap ▸ hagain,
    z.heap, veil, hnoted.newFrame hnew, hthere first List.mem_cons_self, ha, hb⟩

theorem Enters.unique {x' : World} {inner' : FrameId} (hx : k.Enters s x inner)
    (hx' : k.Enters s x' inner') : x' = x ∧ inner' = inner := by
  obtain ⟨v, u, hv, hnew⟩ := hx.expands
  obtain ⟨v', u', hv', hnew'⟩ := hx'.expands
  cases hv.unique hv'
  cases hnew.symm.trans hnew'
  exact ⟨rfl, rfl⟩

section Opening

variable (hs : Stands k.name k.Pass k.Intact s form)
  (ho : k.Opened s first others v u x inner bindings choice again)
include hs ho

theorem Opened.evaluates_let : Evaluates s.world form s.frame r ↔ Evaluates u v s.frame r :=
  ho.expands.evaluates_iff hs.isForm k.ofName?_name

/-- The call ends only if the first form does. -/
theorem Opened.exists_evaluates (h : Evaluates s.world form s.frame r) :
    ∃ r', Evaluates x first inner r' :=
  exists_evaluates_init ho.isLet.isSpecial (Heap.elements?_of_parts? ho.pair) rfl ho.newFrame
    ((ho.evaluates_let hs).mp h)

/-- Where the first form fails, so does the call. -/
theorem Opened.evaluates_error {e : Failure} (h : Evaluates x first inner (.error e y)) :
    Evaluates s.world form s.frame (.error e y) :=
  (ho.evaluates_let hs).mpr (.letStarFails ho.isLet.isSpecial (Heap.elements?_of_parts? ho.pair)
    (by simp) ho.newFrame (.fails rfl h))

/-- Where the first form gives a value, this is the value of the call, unless it leaves it to the
others: then the call ends as a call on them does. -/
theorem Opened.evaluates_ok {value : Value} (h : Evaluates x first inner (.ok value y)) :
    let s' : Stage := ⟨y.binding inner (k.nextSymbol s.world) value, inner, others⟩
    s'.IsSound ∧ s'.world.heap.IsForm (.object again) k.name others ∧
      ∀ r, Evaluates s.world form s.frame r ↔
        if y.heap.isTruthy value = k.neutral then Evaluates s'.world (.object again) inner r
        else r = .ok value s'.world := by
  intro s'
  obtain ⟨base, veil, hmidway, hbelow, hchoice, hagain⟩ := ho.hidden
  obtain ⟨hy, hdeepens, hvalue⟩ := (hmidway.evaluates hbelow h).2 value y rfl
  have hagainForm := hmidway.isForm hdeepens hagain ho.isAgain
  have hdefine : World.Step .all y s'.world := .define _ trivial hvalue
  have hfound : s'.world.scopes.find? inner (k.nextSymbol s.world) = some value :=
    Scopes.find?_of_get? ((Scopes.get?_define ..).trans (if_pos ⟨rfl, hy.frame.1, rfl⟩))
  refine ⟨⟨hy.ready.steps (.single hdefine), World.Steps.opens (.single hdefine) hy.frame,
    hy.ready.sound.heap.has_of_isForm hagainForm⟩, hagainForm, fun r => ?_⟩
  rw [ho.evaluates_let hs, evaluates_letStar_iff ho.isLet.isSpecial
    (Heap.elements?_of_parts? ho.pair) rfl ho.newFrame h]
  exact evaluates_choice (w := s'.world) (hmidway.isForm hdeepens hchoice ho.isChoice) hfound

end Opening

/-- A call on no forms ends at once. -/
theorem evaluates_none (hs : Stands k.name k.Pass k.Intact s form) (hforms : s.forms = []) :
    ∃ v u, s.Expands k.name (.ok v u) ∧ s.world.AddsOnly u ∧ u.heap.Unfolds v k.empty ∧
      ∀ r, Evaluates s.world form s.frame r ↔ r = .ok v u := by
  obtain ⟨f, c, hfound, hcallee, hc⟩ := (hs.intact s .refl).known
  have hroot := hs.hasPath_root
  obtain ⟨v, u, hexpands, hadds, hv⟩ := hc.expandsOnce_none (hs.intact s .refl).operations hroot
  have hexpanded : s.Expands k.name (.ok v u) :=
    ⟨f, c, hfound, hcallee, hc.isMacro, hforms ▸ hexpands⟩
  have hconstant : Evaluates u v s.frame (.ok v u) := by
    refine .constant ?_
    cases k <;> simp [IsConstant, Heap.content_of_content? hv]
  refine ⟨v, u, hexpanded, hadds.toAddsOnly, hv, fun r => ?_⟩
  rw [hexpanded.evaluates_iff hs.isForm k.ofName?_name]
  exact ⟨fun h => h.unique hconstant, fun h => h ▸ hconstant⟩

/-- A call on one form ends as the form does. -/
theorem evaluates_last {last : Value} (hs : Stands k.name k.Pass k.Intact s form)
    (hforms : s.forms = [last]) :
    ∃ u, s.Expands k.name (.ok last u) ∧ s.world.AddsOnly u ∧
      ∀ r, Evaluates s.world form s.frame r ↔ Evaluates u last s.frame r := by
  obtain ⟨f, c, hfound, hcallee, hc⟩ := (hs.intact s .refl).known
  have hroot := hs.hasPath_root
  obtain ⟨u, hexpands, hadds⟩ :=
    hc.expandsOnce_single (hs.intact s .refl).operations hroot last
  have hexpanded : s.Expands k.name (.ok last u) :=
    ⟨f, c, hfound, hcallee, hc.isMacro, hforms ▸ hexpands⟩
  exact ⟨u, hexpanded, hadds.toAddsOnly, fun r => hexpanded.evaluates_iff hs.isForm k.ofName?_name⟩

/-- A call that ends finishes at its stage, or passes to one where the rest of it ends. -/
theorem ends (hs : Stands k.name k.Pass k.Intact s form) (h : Evaluates s.world form s.frame r) :
    k.Finishes s r ∨ ∃ s' form', k.Pass s s' ∧ Stands k.name k.Pass k.Intact s' form' ∧
      Evaluates s'.world form' s'.frame r := by
  unfold Finishes
  rcases hforms : s.forms with _ | ⟨first, _ | ⟨second, others⟩⟩
  · obtain ⟨v, u, hexpanded, hadds, hv, hends⟩ := evaluates_none hs hforms
    exact .inl ⟨v, u, hexpanded, hadds, hv, (hends r).mp h⟩
  · obtain ⟨u, hexpanded, hadds, hends⟩ := evaluates_last hs hforms
    exact .inl ⟨u, hexpanded, hadds, (hends r).mp h⟩
  · obtain ⟨_, _, x, inner, _, _, again, ho⟩ := exists_opened hs hforms
    obtain ⟨r', hr'⟩ := ho.exists_evaluates hs h
    cases r' with
    | error e y =>
      exact .inl ⟨x, inner, ho.enters, .inr ⟨e, y, hr', h.unique (ho.evaluates_error hs hr')⟩⟩
    | ok v y =>
      obtain ⟨hsound, hagain, hends⟩ := ho.evaluates_ok hs hr'
      have hrest := (hends r).mp h
      split at hrest
      next hneutral =>
        have hpass : k.Pass s _ :=
          ⟨first, second, others, x, inner, v, y, hforms, ho.enters, hr', hneutral, rfl⟩
        exact .inr ⟨_, _, hpass, hs.pass Pass.fewer hpass hsound hagain, hrest⟩
      next hsettled => exact .inl ⟨x, inner, ho.enters, .inl ⟨v, y, hr', hsettled, hrest⟩⟩

theorem evaluates_of_finishes (hs : Stands k.name k.Pass k.Intact s form) (h : k.Finishes s r) :
    Evaluates s.world form s.frame r := by
  unfold Finishes at h
  rcases hforms : s.forms with _ | ⟨first, _ | ⟨second, others⟩⟩ <;> rw [hforms] at h
  · obtain ⟨v, u, hexpanded, -, -, hends⟩ := evaluates_none hs hforms
    obtain ⟨v', u', hexpanded', -, -, rfl⟩ := h
    cases hexpanded.unique hexpanded'
    exact (hends _).mpr rfl
  · obtain ⟨u, hexpanded, -, hends⟩ := evaluates_last hs hforms
    obtain ⟨u', hexpanded', -, h⟩ := h
    cases hexpanded.unique hexpanded'
    exact (hends _).mpr h
  · obtain ⟨_, _, x, inner, _, _, again, ho⟩ := exists_opened hs hforms
    obtain ⟨x', inner', hx', h⟩ := h
    obtain ⟨rfl, rfl⟩ := ho.enters.unique hx'
    rcases h with ⟨v, y, hfirst, hsettled, rfl⟩ | ⟨e, y, hfirst, rfl⟩
    · obtain ⟨-, -, hends⟩ := ho.evaluates_ok hs hfirst
      exact (hends _).mpr (by rw [if_neg hsettled])
    · exact ho.evaluates_error hs hfirst

theorem exists_of_pass {s' : Stage} (hs : Stands k.name k.Pass k.Intact s form)
    (hpass : k.Pass s s') :
    ∃ form', Stands k.name k.Pass k.Intact s' form' ∧
      ∀ r, Evaluates s'.world form' s'.frame r → Evaluates s.world form s.frame r := by
  have hstep := hpass
  obtain ⟨first, second, others, x', inner', v, y, hforms, hx', hfirst, hneutral, hs'⟩ := hstep
  obtain ⟨_, _, x, inner, _, _, again, ho⟩ := exists_opened hs hforms
  obtain ⟨rfl, rfl⟩ := ho.enters.unique hx'
  obtain ⟨hsound, hagain, hends⟩ := ho.evaluates_ok hs hfirst
  subst hs'
  refine ⟨_, hs.pass Pass.fewer hpass hsound hagain, fun r hr => (hends r).mpr ?_⟩
  rw [if_pos hneutral]
  exact hr

end Steps

/-- `or` and `and` evaluate their forms in order until one settles the matter: a call passes stages
whose form leaves it to the others, and ends as it finishes at the first other stage. -/
theorem connective_short_circuits {w : World} (hw : Reachable w) {frame : FrameId}
    (hframe : frame < w.scopes.frames.size) (k : Connective) {form : Value} {forms : List Value}
    (hform : w.heap.IsForm form k.name forms) (hcount : forms.length < 2 ^ 63)
    (hintact : ∀ s, Relation.ReflTransGen k.Pass ⟨w, frame, forms⟩ s → k.Intact s.world s.frame)
    (r : Ending Value) (hr : r.Settled) :
    (∃ limit depth, eval limit depth form frame w = r) ↔
      ∃ s, Relation.ReflTransGen k.Pass ⟨w, frame, forms⟩ s ∧ k.Finishes s r := by
  rw [← evaluates_iff_exists_eval hr]
  exact (stands_start hw hframe hform hcount hintact).evaluates_iff_passes Pass.fewer ends
    evaluates_of_finishes exists_of_pass r

/-- A form that stands for itself leaves the macro intact. -/
theorem Pass.intact {k : Connective} {s s' : Stage} {first : Value} {others : List Value}
    (hpass : k.Pass s s') (hk : k.Intact s.world s.frame) (hpath : s.world.scopes.HasPath s.frame)
    (hforms : s.forms = first :: others)
    (hfirst : ∀ x : World, s.world.heap.Grows x.heap → IsConstant x.heap first) :
    k.Intact s'.world s'.frame ∧ s.world.heap.Grows s'.world.heap ∧ s'.forms = others ∧
      s'.world.scopes.HasPath s'.frame := by
  obtain ⟨_, second, _, x, inner, v, y, hsame, hx, hends, -, rfl⟩ := hpass
  cases hforms.symm.trans hsame
  cases hends.unique (.constant (hfirst x hx.adds.heap))
  have hadds : s.world.Adds x :=
    ⟨hx.adds.heap, hx.adds.closures, hx.adds.natives, hx.adds.frames⟩
  have hbound : s.world.Adds (x.binding inner (k.nextSymbol s.world) first) :=
    hadds.binding hx.isNew
  have hbinds : World.Binds (x.binding inner (k.nextSymbol s.world) first) inner s.frame
      (k.nextSymbol s.world) first := by
    refine ⟨?_, hbound.hasPath hpath⟩
    rw [hbound.path hpath]
    simp [World.binding, Scopes.define, Array.getElem?_modify, hx.frame]
  exact ⟨(hk.adds hpath hbound).inside hbinds (k.nextSymbol_ne_name _), hbound.heap, rfl,
    hbinds.hasPath⟩

/-- A session with the form `(or false 7 boom)`. -/
def choosing : World :=
  (start [] true {}).after
    (runSource (Text.of "(def! seven 7) (def! form (list 'or false seven 'boom))"))

def chosen (seven : Value) : List Value := [.bool false, seven, .symbol (Text.of "boom")]

set_option maxRecDepth 10000 in
theorem choosing_spec :
    let v := choosing.global
    let c := choosing.globalClosure "or"
    choosing.scopes.find? World.root (Text.of "or") = some (v "or") ∧
    choosing.heap.callee (v "or") = .closure c ∧
    (c.scope = World.root ∧ c.params = [] ∧ c.isMacro = true ∧ c.tail = some formsName ∧
      choosing.heap.Unfolds c.body disjunction.body) ∧
    (∀ op ∈ operations, (choosing.scopes.get? World.root op.name).map choosing.heap.callee =
      some (.native (.operation op))) ∧
    choosing.heap.parts? (v "form") =
      some (.round, .symbol disjunction.name :: chosen (v "seven")) ∧
    choosing.heap.Unfolds (v "seven") (.int 7) ∧ 0 < choosing.scopes.frames.size := by
  decide +kernel

theorem intact_choosing : disjunction.Intact choosing World.root := by
  obtain ⟨hfound, hcallee, hc, hops, _⟩ := choosing_spec
  exact intact_of_found hfound hcallee hc hops

theorem reachable_choosing : Reachable choosing := reachable_run ..

/-- Seven settles the matter, so no stage is passed to behind that of seven. -/
theorem not_pass_seven {s s' : Stage} {seven : Value} {others : List Value}
    (hforms : s.forms = seven :: others) (hseven : s.world.heap.Unfolds seven (.int 7)) :
    ¬ disjunction.Pass s s' := by
  rintro ⟨_, _, _, x, inner, v, y, hsame, hx, hends, hneutral, -⟩
  cases hforms.symm.trans hsame
  have hsame := hx.adds.heap.unfolds hseven
  cases hends.unique (evaluates_int hsame)
  simp [Heap.isTruthy, Heap.content_of_content? hsame, neutral] at hneutral

theorem finishes_seven {s : Stage} {x : World} {inner : FrameId} {seven second : Value}
    {others : List Value} (hforms : s.forms = seven :: second :: others)
    (hseven : s.world.heap.Unfolds seven (.int 7)) (hx : disjunction.Enters s x inner) :
    disjunction.Finishes s
      (.ok seven (x.binding inner (disjunction.nextSymbol s.world) seven)) := by
  have hsame := hx.adds.heap.unfolds hseven
  have htruthy : x.heap.isTruthy seven ≠ disjunction.neutral := by
    simp [Heap.isTruthy, Heap.content_of_content? hsame, neutral]
  unfold Finishes
  rw [hforms]
  exact ⟨x, inner, hx, .inl ⟨_, _, evaluates_int hsame, htruthy, rfl⟩⟩

theorem intact_of_passes {w : World} {s : Stage} (hintact : disjunction.Intact w World.root)
    (hpath : w.scopes.HasPath World.root) {seven : Value}
    (hseven : w.heap.Unfolds seven (.int 7))
    (hs : Relation.ReflTransGen disjunction.Pass ⟨w, World.root, chosen seven⟩ s) :
    disjunction.Intact s.world s.frame := by
  rcases hs.cases_head with rfl | ⟨s₁, hfirst, hrest⟩
  · exact hintact
  obtain ⟨hintact₁, hgrows, hforms, -⟩ :=
    hfirst.intact hintact hpath rfl fun _ _ => trivial
  rcases hrest.cases_head with rfl | ⟨s₂, hsecond, -⟩
  · exact hintact₁
  · exact absurd hsecond (not_pass_seven hforms (hgrows.unfolds hseven))

/-- The first of the forms is false and the second gives seven; what stands behind it is not bound
and not evaluated. -/
theorem connective_short_circuits_choosing :
    Reachable choosing ∧
    choosing.heap.IsForm (choosing.global "form") disjunction.name
      (chosen (choosing.global "seven")) ∧
    choosing.heap.Unfolds (choosing.global "seven") (.int 7) ∧
    (∀ s, Relation.ReflTransGen disjunction.Pass
        ⟨choosing, World.root, chosen (choosing.global "seven")⟩ s →
      disjunction.Intact s.world s.frame) ∧
    ∃ limit depth u, eval limit depth (choosing.global "form") World.root choosing =
      .ok (choosing.global "seven") u := by
  obtain ⟨-, -, -, -, hparts, hseven, hframe⟩ := choosing_spec
  have hw := reachable_choosing
  have hintact := intact_choosing
  generalize choosing.global "form" = form, choosing.global "seven" = seven at *
  generalize choosing = w at *
  have hpath := hw.ready.sound.hasPath hframe
  have hform : w.heap.IsForm form disjunction.name (chosen seven) := ⟨_, hparts, rfl⟩
  have hcount : (chosen seven).length < 2 ^ 63 := by simp [chosen]
  have hpasses : ∀ s, Relation.ReflTransGen disjunction.Pass ⟨w, World.root, chosen seven⟩ s →
      disjunction.Intact s.world s.frame := fun s hs => intact_of_passes hintact hpath hseven hs
  have hends := connective_short_circuits hw hframe disjunction hform hcount hpasses
  refine ⟨hw, hform, hseven, hpasses, ?_⟩
  have hs := stands_start hw hframe hform hcount hpasses
  obtain ⟨_, _, x, inner, _, _, _, ho⟩ := exists_opened hs rfl
  have hfalse : Evaluates x (.bool false) inner (.ok (.bool false) x) := .constant trivial
  have hpass : disjunction.Pass ⟨w, World.root, chosen seven⟩ _ :=
    ⟨_, _, _, x, inner, _, x, rfl, ho.enters, hfalse, isTruthy_bool .., rfl⟩
  obtain ⟨_, hs', -⟩ := exists_of_pass hs hpass
  obtain ⟨_, _, x', inner', _, _, _, ho'⟩ := exists_opened hs' rfl
  obtain ⟨-, hgrows, -, -⟩ := hpass.intact hintact hpath rfl fun _ _ => trivial
  have hfinishes := finishes_seven rfl (hgrows.unfolds hseven) ho'.enters
  obtain ⟨limit, depth, heval⟩ := (hends _ settled_ok).mpr ⟨_, .single hpass, hfinishes⟩
  exact ⟨limit, depth, _, heval⟩

end Lisp.Connective
