import Lisp.Proofs.Session.Connectives
import Lisp.Proofs.Session.Reachable

/-!
Names that `or` and `and` bind. A call on two forms binds the value of the first to a generated
symbol, around the second. The symbol is one that a program can write as well, so the second form
sees a binding of the caller unless the caller bound that very symbol.
-/
namespace Lisp.Connective

open Meaning Evaluator Macro Session

/-- Seen from the frame, the macro and the natives that it calls are those of the prelude. -/
structure Intact (k : Connective) (w : World) (frame : FrameId) : Prop where
  known : ∃ f c, w.scopes.find? frame k.name = some f ∧ w.heap.callee f = .closure c ∧
    k.IsMacro w.heap c
  operations : HasOperations w

/-- The value of a first form that leaves it to the second. -/
def neutral : Connective → Bool
  | .disjunction => false
  | .conjunction => true

/-- The form is `(let* (name (quote v)) (or false name))`, or `(let* (name (quote v)) (and true
name))`. -/
def AsksFor (k : Connective) (h : Heap) (form : Value) (name : Text) (v : Value) : Prop :=
  ∃ target symbol quoted call second, h.IsForm form Special.letStar.name [target, call] ∧
    h.elements? target = some [symbol, quoted] ∧ h.Unfolds symbol (.symbol name) ∧
    h.IsForm quoted Special.quote.name [v] ∧ h.IsForm call k.name [.bool k.neutral, second] ∧
    h.Unfolds second (.symbol name)

variable {k : Connective} {w u x : World} {frame inner : FrameId} {form v : Value} {name : Text}
  {r : Ending Value}

theorem IsMacro.adds {c : Closure} (hc : k.IsMacro w.heap c) (hadds : w.Adds u) :
    k.IsMacro u.heap c := by
  obtain ⟨tail, body, htail, hbody, htext⟩ := hc.text
  exact ⟨hc.scope, hc.params, hc.isMacro, tail, body, htail, hadds.heap.unfolds hbody, htext⟩

theorem Intact.adds (hk : k.Intact w frame) (hpath : w.scopes.HasPath frame) (hadds : w.Adds u) :
    k.Intact u frame := by
  obtain ⟨f, c, hfound, hcallee, hc⟩ := hk.known
  exact ⟨⟨f, c, (hadds.find? hpath).trans hfound, hadds.callee_eq hcallee (by simp),
    hc.adds hadds⟩, HasNatives.adds hk.operations hadds⟩

/-- The macro is seen from inside a frame that binds another name. -/
theorem Intact.inside (hk : k.Intact w frame) (hbinds : w.Binds inner frame name v)
    (hname : name ≠ k.name) : k.Intact w inner := by
  obtain ⟨f, c, hfound, hc⟩ := hk.known
  exact ⟨⟨f, c, by rw [hbinds.find?, if_neg hname, hfound], hc⟩, hk.operations⟩

theorem ofName?_name (k : Connective) : Special.ofName? k.name = none := by cases k <;> decide

/-- A generated symbol is longer than the name of the macro. -/
theorem nextSymbol_ne_name (k : Connective) (w : World) : k.nextSymbol w ≠ k.name := by
  intro h
  have hlength := congrArg List.length h
  rw [nextSymbol, List.length_append] at hlength
  have hstem : k.name.length < k.stem.length := by cases k <;> decide
  omega

/-- A call on one form ends as the form does. -/
theorem Intact.evaluates_single (hk : k.Intact w frame) (hroot : w.scopes.HasPath World.root)
    {first : Value} (hform : w.heap.IsForm form k.name [first]) :
    ∃ u, w.AddsOnly u ∧ ∀ r, Evaluates w form frame r ↔ Evaluates u first frame r := by
  obtain ⟨f, c, hfound, hcallee, hc⟩ := hk.known
  obtain ⟨head, hcall, hhead⟩ := hform.isCall k.ofName?_name
  obtain ⟨u, hexpands, hadds⟩ := hc.expandsOnce_single hk.operations hroot first
  exact ⟨u, hadds.toAddsOnly, fun r =>
    evaluates_callMacro_iff hcall (evaluates_symbol hhead hfound) hcallee hc.isMacro hexpands⟩

theorem isTruthy_bool (h : Heap) (b : Bool) : h.isTruthy (.bool b) = b := by cases b <;> rfl

/-- Where the symbol is bound to a value that leaves it to the other forms, these are chosen;
otherwise the value is. -/
theorem evaluates_choice {symbol : Text} {again : Value}
    (hchoice : w.heap.IsForm form Special.conditional.name
      (.symbol symbol :: k.branches (.symbol symbol) again))
    (hfound : w.scopes.find? frame symbol = some v) :
    Evaluates w form frame r ↔
      if w.heap.isTruthy v = k.neutral then Evaluates w again frame r else r = .ok v w := by
  have hsymbol : Evaluates w (.symbol symbol) frame (.ok v w) := evaluates_symbol rfl hfound
  have hvalue : Evaluates w (.symbol symbol) frame r ↔ r = .ok v w :=
    ⟨fun h => h.unique hsymbol, fun h => h ▸ hsymbol⟩
  cases k with
  | disjunction =>
    refine (evaluates_conditional_iff hchoice.isSpecial hsymbol).trans ?_
    cases htruthy : w.heap.isTruthy v <;> simp [neutral, hvalue]
  | conjunction =>
    refine (evaluates_conditional_iff hchoice.isSpecial hsymbol).trans ?_
    cases htruthy : w.heap.isTruthy v <;> simp [neutral, hvalue]

/-- In a reachable world the frames around a frame were made. -/
theorem hasPath_of_reachable (hw : Reachable w) (hframe : frame < w.scopes.frames.size) :
    w.scopes.HasPath frame :=
  hw.ready.sound.hasPath hframe

/-- A call on two forms, of which the first leaves it to the second, ends as the second does where
the generated symbol is bound to the value of the first. -/
theorem Intact.evaluates_pair (hk : k.Intact w frame) (hpath : w.scopes.HasPath frame)
    (hroot : w.scopes.HasPath World.root) {second : Value}
    (hform : w.heap.IsForm form k.name [.bool k.neutral, second]) :
    ∃ inner u, w.Adds u ∧ u.Binds inner frame (k.nextSymbol w) (.bool k.neutral) ∧
      ∀ r, Evaluates w form frame r ↔ Evaluates u second inner r := by
  obtain ⟨f, c, hfound, hcallee, hc⟩ := hk.known
  obtain ⟨head, hcall, hhead⟩ := hform.isCall k.ofName?_name
  have hcount : Int64.ofNat (([] : List Value).length + 2) ≠ 1 := by decide
  obtain ⟨_, z, u, log, bindings, choice, again, hexpands, henlarges, hmade⟩ :=
    hc.expandsOnce_general hk.operations hroot (.bool k.neutral) second hcount
  obtain ⟨hzu, hlet, hbindings, hchoice, hagain⟩ := hmade.isForm
  have honly := henlarges.toAddsOnly.trans hzu
  have hwx : w.Adds { u with log := log } :=
    ⟨honly.heap, honly.closures, honly.natives, honly.frames⟩
  have hheap : { u with log := log }.heap = u.heap := rfl
  generalize { u with log := log } = x at hexpands hwx hheap
  rw [← hheap] at hlet hbindings hchoice hagain
  have hcalls := fun r => evaluates_callMacro_iff (r := r) hcall (evaluates_symbol hhead hfound)
    hcallee hc.isMacro hexpands
  -- The symbol is bound to the value of the first form.
  obtain ⟨inner, y, hnew⟩ : ∃ inner y, Run.newFrame (some frame) {} x = .ok inner y :=
    ⟨_, _, rfl⟩
  have hconstant : Evaluates y (.bool k.neutral) inner (.ok (.bool k.neutral) y) :=
    .constant trivial
  have hlets := fun r => evaluates_letStar_iff (r := r) hlet.isSpecial
    (Heap.elements?_of_parts? hbindings) rfl hnew hconstant
  obtain ⟨hxz, hbinds⟩ : x.AddsOnly _ ∧
      World.Binds _ inner frame (k.nextSymbol w) (.bool k.neutral) :=
    World.Binds.define (hwx.hasPath hpath) hnew (.refl y)
  -- It chooses the call on the second form, which stands for that form.
  have hchoices := fun r => evaluates_choice (r := r) (hchoice.grows hxz.heap)
    (by rw [hbinds.find?, if_pos rfl])
  simp only [isTruthy_bool, if_true] at hchoices
  have hinside : k.Intact _ inner :=
    (hk.adds hpath (hwx.trans hxz.toAdds)).inside hbinds (k.nextSymbol_ne_name w)
  obtain ⟨u, hadds, hsingle⟩ := hinside.evaluates_single
    ((hwx.trans hxz.toAdds).hasPath hroot) (hagain.grows hxz.heap)
  refine ⟨inner, u, (hwx.trans hxz.toAdds).trans hadds.toAdds, hbinds.adds hadds.toAdds,
    fun r => ?_⟩
  rw [hcalls, hlets, hchoices, hsingle]

/-- A binding of the caller is seen by the second form of `or` and `and`, unless it is one of the
very symbol that the call generates: then the call gives the value of its first form. -/
theorem connective_sees_binding_unless_generated {w : World} (hw : Reachable w) {frame : FrameId}
    (hframe : frame < w.scopes.frames.size) (k : Connective) (hk : k.Intact w frame)
    {form v : Value} {name : Text} (hname : name ≠ k.name) (hform : k.AsksFor w.heap form name v) :
    ∃ limit depth u, eval limit depth form frame w =
      .ok (if name = k.nextSymbol w then .bool k.neutral else v) u := by
  obtain ⟨target, symbol, quoted, call, second, hlet, htarget, hsymbol, hquoted, hcall, hsecond⟩ :=
    hform
  have hpath := hasPath_of_reachable hw hframe
  have hroot := hasPath_of_reachable hw hw.ready.root.1
  obtain ⟨outer, y, hnew⟩ : ∃ outer y, Run.newFrame (some frame) {} w = .ok outer y := ⟨_, _, rfl⟩
  have hheap : y.heap = w.heap := (World.Adds.newFrame hnew).2.1
  have hvalue : Evaluates y quoted outer (.ok v y) := .quote (hheap ▸ hquoted.isSpecial)
  obtain ⟨hadds, hbinds⟩ : w.AddsOnly _ ∧ World.Binds _ outer frame name v :=
    World.Binds.define hpath hnew (.refl y)
  obtain ⟨inner, u, hmore, hgenerated, hcalls⟩ :=
    ((hk.adds hpath hadds.toAdds).inside hbinds hname).evaluates_pair hbinds.hasPath
      (hadds.hasPath hroot) (hcall.grows hadds.heap)
  have hnumber : k.nextSymbol (y.binding outer name v) = k.nextSymbol w :=
    congrArg (fun n => k.stem ++ Text.ofNat (n + 1)) hadds.generated
  rw [hnumber] at hgenerated
  -- The name is looked up in the frame of the generated symbol, and then in that of the caller.
  have hfound : u.scopes.find? inner name =
      some (if name = k.nextSymbol w then .bool k.neutral else v) := by
    rw [hgenerated.find?, hmore.find? hbinds.hasPath, hbinds.find?, if_pos rfl]
    by_cases hsame : name = k.nextSymbol w
    · rw [if_pos hsame.symm, if_pos hsame]
    · rw [if_neg (Ne.symm hsame), if_neg hsame]
  have hends : Evaluates w form frame
      (.ok (if name = k.nextSymbol w then .bool k.neutral else v) u) :=
    (evaluates_letStar_iff hlet.isSpecial htarget (Heap.content_of_content? hsymbol) hnew
      hvalue).mpr ((hcalls _).mpr
        (evaluates_symbol ((hadds.toAdds.trans hmore).heap.unfolds hsecond) hfound))
  obtain ⟨n, hn⟩ := hends.exists_eval
  exact ⟨n, n, u, hn⟩

theorem intact_of_found {f : Value} {c : Closure} (hfound : w.scopes.find? frame k.name = some f)
    (hcallee : w.heap.callee f = .closure c)
    (hc : c.scope = World.root ∧ c.params = [] ∧ c.isMacro = true ∧ c.tail = some formsName ∧
      w.heap.Unfolds c.body k.body)
    (hops : ∀ op ∈ operations, (w.scopes.get? World.root op.name).map w.heap.callee =
      some (.native (.operation op))) :
    k.Intact w frame := by
  obtain ⟨hscope, hparams, hmacro, htail, hbody⟩ := hc
  refine ⟨⟨_, _, hfound, hcallee, hscope, hparams, hmacro, formsName, _, htail, hbody,
    read_source _⟩, ?_⟩
  intro op hop
  exact Option.map_eq_some_iff.mp (hops op hop)

/-- A session with the forms `(let* (or__1 (quote 7)) (or false or__1))`, which binds the symbol
that `or` generates first, and `(let* (x (quote 7)) (or false x))`. -/
def asking : World :=
  (start [] true {}).after (runSource (Text.of "
    (def! seven 7) (def! quoted (list 'quote seven))
    (def! same (list 'or__1 quoted)) (def! sameCall (list 'or false 'or__1))
    (def! sameForm (list 'let* same sameCall))
    (def! other (list 'x quoted)) (def! otherCall (list 'or false 'x))
    (def! otherForm (list 'let* other otherCall))"))

def askingForms : List (String × String × String × String) :=
  [("or__1", "same", "sameCall", "sameForm"), ("x", "other", "otherCall", "otherForm")]

set_option maxRecDepth 10000 in
theorem asking_spec :
    let v := asking.global
    let c := asking.globalClosure "or"
    asking.scopes.find? World.root (Text.of "or") = some (v "or") ∧
    asking.heap.callee (v "or") = .closure c ∧
    (c.scope = World.root ∧ c.params = [] ∧ c.isMacro = true ∧ c.tail = some formsName ∧
      asking.heap.Unfolds c.body disjunction.body) ∧
    (∀ op ∈ operations, (asking.scopes.get? World.root op.name).map asking.heap.callee =
      some (.native (.operation op))) ∧
    (∀ names ∈ askingForms,
      asking.heap.parts? (v names.2.2.2) =
        some (.round, [.symbol Special.letStar.name, v names.2.1, v names.2.2.1]) ∧
      asking.heap.elements? (v names.2.1) = some [.symbol (Text.of names.1), v "quoted"] ∧
      asking.heap.parts? (v names.2.2.1) =
        some (.round, [.symbol disjunction.name, .bool false, .symbol (Text.of names.1)])) ∧
    asking.heap.parts? (v "quoted") = some (.round, [.symbol Special.quote.name, v "seven"]) ∧
    asking.heap.Unfolds (v "seven") (.int 7) ∧
    asking.generated = 0 ∧ 0 < asking.scopes.frames.size := by
  decide +kernel

theorem reachable_asking : Reachable asking := reachable_run ..

theorem intact_asking : disjunction.Intact asking World.root := by
  obtain ⟨hfound, hcallee, hc, hops, _⟩ := asking_spec
  exact intact_of_found hfound hcallee hc hops

theorem asksFor_asking {name binding call form : String}
    (hnames : (name, binding, call, form) ∈ askingForms) :
    disjunction.AsksFor asking.heap (asking.global form) (Text.of name)
      (asking.global "seven") := by
  obtain ⟨_, _, _, _, hforms, hquoted, _⟩ := asking_spec
  obtain ⟨hlet, htarget, hcall⟩ := hforms _ hnames
  exact ⟨_, _, _, _, _, ⟨_, hlet, rfl⟩, htarget, rfl, ⟨_, hquoted, rfl⟩, ⟨_, hcall, rfl⟩, rfl⟩

/-- The first symbol that `or` generates is `or__1`: where a program binds it to seven, the call
gives false, and where it binds `x`, it gives seven. -/
theorem connective_sees_binding_unless_generated_asking :
    Reachable asking ∧ disjunction.Intact asking World.root ∧
    asking.heap.Unfolds (asking.global "seven") (.int 7) ∧
    (∃ limit depth u,
      eval limit depth (asking.global "sameForm") World.root asking = .ok (.bool false) u) ∧
    ∃ limit depth u,
      eval limit depth (asking.global "otherForm") World.root asking =
        .ok (asking.global "seven") u := by
  obtain ⟨_, _, _, _, _, _, hseven, hnone, hframe⟩ := asking_spec
  have hnext : disjunction.nextSymbol asking = Text.of "or__1" := by
    rw [nextSymbol, hnone]
    decide
  have hcaptured := connective_sees_binding_unless_generated reachable_asking hframe disjunction
    intact_asking (by decide) (asksFor_asking List.mem_cons_self)
  have hseen := connective_sees_binding_unless_generated reachable_asking hframe disjunction
    intact_asking (by decide) (asksFor_asking (List.mem_cons_of_mem _ List.mem_cons_self))
  rw [hnext, if_pos rfl] at hcaptured
  rw [hnext, if_neg (by decide)] at hseen
  exact ⟨reachable_asking, intact_asking, hseven, hcaptured, hseen⟩

end Lisp.Connective
