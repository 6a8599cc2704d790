import Lisp.Proofs.Evaluator.Calls
import Lisp.Proofs.World.Adding

/-!
Parameters and arguments. A function takes as many arguments as it has leading parameters, and with
a tail any number above that. The one exception is a tail whose name is empty: such a function is
made, but it takes no more arguments than one without a tail. A call that binds runs the body in a
new frame inside the one that the function was made in, where the last parameter of a name wins over
the earlier ones and the tail over all of them.
-/
namespace Lisp

/-- A name that is not put again keeps its value. -/
theorem Bindings.get?_putAll {name : Text} (pairs : List (Text × Value)) (b : Bindings)
    (hpairs : ∀ pair ∈ pairs, pair.1 ≠ name) :
    (pairs.foldl (fun b (name, v) => put b name v) b).get? name = b.get? name := by
  induction pairs generalizing b with
  | nil => rfl
  | cons pair pairs ih =>
    rw [List.foldl_cons, ih _ fun p hp => hpairs p (List.mem_cons_of_mem _ hp), get?_put,
      if_neg (hpairs pair List.mem_cons_self)]

/-- The last pair for a name wins. -/
theorem Bindings.get?_ofPairs_append {name : Text} {v : Value} {earlier later : List (Text × Value)}
    (hlater : ∀ pair ∈ later, pair.1 ≠ name) :
    (ofPairs (earlier ++ (name, v) :: later)).get? name = some v := by
  rw [ofPairs, List.foldl_append, List.foldl_cons, get?_putAll later _ hlater, get?_put, if_pos rfl]

theorem Bindings.get?_ofPairs_zip {names : List Text} {args : List Value} {i : Nat} {name : Text}
    (hargs : names.length ≤ args.length) (hname : names[i]? = some name)
    (hlast : name ∉ names.drop (i + 1)) :
    (ofPairs (names.zip args)).get? name = args[i]? := by
  obtain ⟨hi, rfl⟩ := List.getElem?_eq_some_iff.mp hname
  have hia : i < args.length := Nat.lt_of_lt_of_le hi hargs
  have hzip : names.zip args =
      (names.zip args).take i ++ (names[i], args[i]) :: (names.zip args).drop (i + 1) := by
    rw [← List.getElem_zip (h := by simp; omega), List.getElem_cons_drop, List.take_append_drop]
  rw [hzip, get?_ofPairs_append, List.getElem?_eq_getElem hia]
  intro pair hpair hsame
  rw [List.zip, List.drop_zipWith, ← List.zip] at hpair
  exact hlast (hsame ▸ (List.of_mem_zip hpair).1)

theorem Bindings.get?_ofPairs_zip_of_notMem {names : List Text} {args : List Value} {name : Text}
    (hname : name ∉ names) : (ofPairs (names.zip args)).get? name = none := by
  rw [ofPairs, get?_putAll, get?_empty]
  intro pair hpair hsame
  exact hname (hsame ▸ (List.of_mem_zip hpair).1)

namespace Evaluator

open Meaning Ending Session

variable {w u x : World} {h : Heap} {form target f : Value} {frame outer inner : FrameId}
  {params forms args : List Value} {leading : List Text} {tail : Option Text} {r : Ending Value}

def ampersand : Text := Text.of "&"

/-- The parameters are symbols: the leading ones, none of them an ampersand, and if there is a tail,
an ampersand and the symbol of the tail. -/
def IsParameters (h : Heap) (params : List Value) (leading : List Text) (tail : Option Text) :
    Prop :=
  ampersand ∉ leading ∧ List.Forall₂ (fun param name => h.content param = .symbol name) params
    (leading ++ tail.elim [] fun name => [ampersand, name])

/-- The tail that takes arguments: one whose name is not empty. -/
def namedTail (tail : Option Text) : Option Text := tail.filter (· ≠ [])

/-- As many arguments as leading parameters, or more if a tail takes them. -/
def Accepts (leading : List Text) (tail : Option Text) (args : List Value) : Prop :=
  if tail.isSome then leading.length ≤ args.length else args.length = leading.length

instance : Decidable (Accepts leading tail args) :=
  inferInstanceAs (Decidable (if tail.isSome then leading.length ≤ args.length
    else args.length = leading.length))

def countFault (leading : List Text) (tail : Option Text) (args : List Value) : Fault :=
  if tail.isSome then .parametersAtLeast leading.length args.length
  else .parameters leading.length args.length

/-- The frame was made for a call, inside another one: the last of the leading parameters with a
name is bound to its argument, and the tail to a new list of the arguments behind. -/
structure IsCallFrame (w u : World) (outer inner : FrameId) (leading : List Text)
    (tail : Option Text) (args : List Value) : Prop where
  adds : w.AddsOnly u
  isNew : inner = w.scopes.frames.size
  path : u.scopes.path inner = inner :: w.scopes.path outer
  last : ∀ i name, leading[i]? = some name → name ∉ leading.drop (i + 1) → tail ≠ some name →
    u.scopes.get? inner name = args[i]?
  surplus : ∀ name, tail = some name → ∃ list cell, u.scopes.get? inner name = some list ∧
    ¬ w.heap.Has list ∧ u.heap.content list = .list cell ∧ w.heap.cells.size ≤ cell ∧
    u.heap.items cell = args.drop leading.length
  others : ∀ name ∉ leading, tail ≠ some name → u.scopes.get? inner name = none

section Reading

theorem IsParameters.parameters_eq (hparams : IsParameters h params leading tail) :
    parameters h params = .ok (leading, namedTail tail) := by
  obtain ⟨hleading, hnames⟩ := hparams
  induction leading generalizing params with
  | nil =>
    cases tail with
    | none =>
      cases hnames
      rfl
    | some name =>
      rcases hnames with _ | ⟨hampersand, _ | ⟨hname, _ | _⟩⟩
      cases name <;> simp [parameters_cons, hampersand, hname, ampersand, namedTail, Option.filter]
  | cons name leading ih =>
    rcases hnames with _ | ⟨hname, hnames⟩
    have hne : name ≠ Text.of "&" := fun hsame => hleading (hsame ▸ List.mem_cons_self)
    have hrest := ih (fun hmem => hleading (List.mem_cons_of_mem _ hmem)) hnames
    simp [parameters_cons, hname, hne, hrest, bind, Except.bind, pure, Except.pure]

/-- Parameters that a function can be made with have this form. -/
theorem exists_isParameters {got : List Text × Option Text}
    (hparams : parameters h params = .ok got) :
    ∃ leading tail, IsParameters h params leading tail := by
  induction params generalizing got with
  | nil => exact ⟨[], none, by simp, .nil⟩
  | cons param rest ih =>
    rw [parameters_cons] at hparams
    split at hparams
    next name hname =>
      split at hparams
      next hampersand =>
        split at hparams
        next last =>
          have htail : ∀ tail, h.content last = .symbol tail →
              ∃ leading tail, IsParameters h [param, last] leading tail := fun tail hlast =>
            ⟨[], some tail, by simp,
              .cons (hname.trans (congrArg _ hampersand)) (.cons hlast .nil)⟩
          split at hparams
          next hlast => exact htail _ hlast
          next hlast => exact htail _ hlast
          next => cases hparams
        next => cases hparams
      next hother =>
        cases hrest : parameters h rest with
        | error why => simp [hrest, bind, Except.bind] at hparams
        | ok more =>
          obtain ⟨leading, tail, hleading, hnames⟩ := ih hrest
          refine ⟨name :: leading, tail, ?_, .cons hname hnames⟩
          rw [List.mem_cons, not_or]
          exact ⟨fun hsame => hother hsame.symm, hleading⟩
    next => cases hparams

end Reading

section Calling

/-- A list that is made is new, and so is its cell. -/
theorem makeList_isNew {items : List Value} {list : Value}
    (hmake : Run.makeList items w = .ok list u) :
    u.scopes = w.scopes ∧ ¬ w.heap.Has list ∧ ∃ cell, u.heap.content list = .list cell ∧
      w.heap.cells.size ≤ cell ∧ u.heap.items cell = items := by
  have hcontent := w.heap.content?_makeSequence .list (.ofList items) none
  have hitems := Heap.items_eq (w.heap.cells_makeSequence .list (.ofList items) none)
  rw [Sequence.toList_ofList] at hitems
  cases hmake
  exact ⟨rfl, Nat.lt_irrefl _, w.heap.cells.size, Heap.content_of_content? hcontent,
    Nat.le_refl _, hitems⟩

theorem bind_of_accepts (w : World) (outer : FrameId) (haccepts : Accepts leading tail args) :
    ∃ inner u, Run.bind (some outer) leading tail args w = .ok inner u ∧
      IsCallFrame w u outer inner leading tail args := by
  unfold Accepts at haccepts
  cases tail with
  | none =>
    have hcount : args.length = leading.length := haccepts
    obtain ⟨inner, u, hnew⟩ : ∃ inner u,
        Run.newFrame (some outer) (.ofPairs (leading.zip args)) w = .ok inner u := ⟨_, _, rfl⟩
    obtain ⟨-, -, hframe⟩ := World.Adds.newFrame hnew
    refine ⟨inner, u, by simp [Run.bind_none, hcount, hnew],
      { adds := World.AddsOnly.newFrame hnew
        isNew := by cases hnew; rfl
        path := Scopes.path_of_frame hframe
        last := fun i name hname hlast _ => ?_
        surplus := by simp
        others := fun name hname _ => ?_ }⟩
    · rw [Scopes.get?_of_frame hframe, Bindings.get?_ofPairs_zip hcount.ge hname hlast]
    · rw [Scopes.get?_of_frame hframe, Bindings.get?_ofPairs_zip_of_notMem hname]
  | some tail =>
    have hcount : leading.length ≤ args.length := haccepts
    obtain ⟨list, y, hlist⟩ : ∃ list y, Run.makeList (args.drop leading.length) w = .ok list y :=
      ⟨_, _, rfl⟩
    obtain ⟨inner, u, hnew⟩ : ∃ inner u, Run.newFrame (some outer)
        ((Bindings.ofPairs (leading.zip args)).put tail list) y = .ok inner u := ⟨_, _, rfl⟩
    obtain ⟨-, hheap, hframe⟩ := World.Adds.newFrame hnew
    obtain ⟨hscopes, hlistNew, cell, hcontent, hcell, hitems⟩ := makeList_isNew hlist
    rw [hscopes] at hframe
    refine ⟨inner, u, by simp [Run.bind_some, Nat.not_lt.mpr hcount, hlist, hnew],
      { adds := (World.AddsOnly.makeSequence hlist).1.trans (World.AddsOnly.newFrame hnew)
        isNew := by cases hnew; exact congrArg (·.frames.size) hscopes
        path := Scopes.path_of_frame hframe
        last := fun i name hname hlast hother => ?_
        surplus := fun name hname => ⟨list, cell, ?_, hlistNew, by rw [hheap, hcontent], hcell,
          by rw [hheap, hitems]⟩
        others := fun name hname hother => ?_ }⟩
    · rw [Scopes.get?_of_frame hframe, Bindings.get?_put, if_neg (hother <| congrArg some ·),
        Bindings.get?_ofPairs_zip hcount hname hlast]
    · rw [Scopes.get?_of_frame hframe, Bindings.get?_put, if_pos (Option.some.inj hname)]
    · rw [Scopes.get?_of_frame hframe, Bindings.get?_put, if_neg (hother <| congrArg some ·),
        Bindings.get?_ofPairs_zip_of_notMem hname]

theorem bind_of_not_accepts (w : World) (outer : FrameId)
    (hrefuses : ¬ Accepts leading tail args) :
    Run.bind (some outer) leading tail args w =
      .error (.fault (countFault leading tail args)) w := by
  unfold Accepts at hrefuses
  cases tail with
  | none =>
    have hcount : args.length ≠ leading.length := hrefuses
    simp [Run.bind_none, countFault, hcount]
  | some name =>
    have hcount : args.length < leading.length := Nat.not_le.mp hrefuses
    simp [Run.bind_some, countFault, hcount]

/-- A call of a function on arguments that it accepts ends as its body does in the frame of the
call. -/
theorem applies_iff_of_accepts {body : Value}
    (hf : w.heap.callee f = .closure ⟨outer, leading, tail, body, false⟩)
    (haccepts : Accepts leading tail args) :
    ∃ inner u, IsCallFrame w u outer inner leading tail args ∧
      ∀ r, Applies w f args r ↔ Evaluates u body inner r := by
  obtain ⟨inner, u, hbind, hcall⟩ := bind_of_accepts w outer haccepts
  refine ⟨inner, u, hcall, fun r => ⟨fun h => ?_, .closure hf hbind⟩⟩
  cases h with
  | closure hc hbind' hbody =>
    cases hf.symm.trans hc
    cases hbind.symm.trans hbind'
    exact hbody
  | fails hc hbind' =>
    cases hf.symm.trans hc
    cases hbind.symm.trans hbind'
  | native hn _ => cases hf.symm.trans hn
  | nothing hnone => cases hf.symm.trans hnone

theorem applies_iff_of_not_accepts {body : Value}
    (hf : w.heap.callee f = .closure ⟨outer, leading, tail, body, false⟩)
    (hrefuses : ¬ Accepts leading tail args) :
    Applies w f args r ↔ r = .error (.fault (countFault leading tail args)) w := by
  have hbind := bind_of_not_accepts w outer hrefuses
  constructor
  · intro h
    cases h with
    | closure hc hbind' _ =>
      cases hf.symm.trans hc
      cases hbind.symm.trans hbind'
    | fails hc hbind' =>
      cases hf.symm.trans hc
      cases hbind.symm.trans hbind'
      rfl
    | native hn _ => cases hf.symm.trans hn
    | nothing hnone => cases hf.symm.trans hnone
  · rintro rfl
    exact .fails hf hbind

theorem kind_countFault : (countFault leading tail args).kind = .arity := by
  unfold countFault
  split <;> rfl

end Calling

section Making

variable (hform : IsSpecial w.heap form .function (target :: forms))
  (htarget : w.heap.elements? target = some params)
include hform htarget

theorem evaluates_function_of_isParameters (frame : FrameId)
    (hparams : IsParameters w.heap params leading tail) :
    ∃ body y f u, bodyOf forms w = .ok body y ∧ Evaluates w form frame (.ok f u) ∧
      u.heap.callee f = .closure ⟨frame, leading, namedTail tail, body, false⟩ := by
  obtain ⟨body, y, hbody⟩ := bodyOf_ok forms w
  have hmade : Evaluates w form frame _ := .function hform htarget hparams.parameters_eq
  rw [hbody] at hmade
  refine ⟨body, y, _, _, hbody, hmade, ?_⟩
  simp [Heap.callee, Heap.content, Heap.object, Heap.closure]

theorem exists_isParameters_of_evaluates (hmade : Evaluates w form frame (.ok f u)) :
    ∃ leading tail, IsParameters w.heap params leading tail := by
  cases hparams : parameters w.heap params with
  | ok got => exact exists_isParameters hparams
  | error e =>
    have hfailure : shapeFailure? w.heap .function (target :: forms) = some e := by
      simp [shapeFailure?, htarget, hparams]
    cases hmade.unique (.malformed hform hfailure)

end Making

/-- A function is made exactly if its parameters are names, of which an ampersand stands only before
the last. A call of it ends as its body in the frame of the call, or with a fault about the number
of arguments; a tail with an empty name counts for nothing. -/
theorem functions_take_their_parameters {w : World} {form target : Value}
    {params forms : List Value}
    (hform : IsSpecial w.heap form .function (target :: forms))
    (htarget : w.heap.elements? target = some params) (frame : FrameId) :
    ((∃ limit depth f u, eval limit depth form frame w = .ok f u) ↔
      ∃ leading tail, IsParameters w.heap params leading tail) ∧
    ∀ leading tail limit depth f u, IsParameters w.heap params leading tail →
      eval limit depth form frame w = .ok f u →
      ∃ body y, bodyOf forms w = .ok body y ∧ ∀ x args, x.heap.callee f = u.heap.callee f →
        (Accepts leading (namedTail tail) args →
          ∃ inner z, IsCallFrame x z frame inner leading (namedTail tail) args ∧
            ∀ r : Ending Value, r.Settled →
              ((∃ limit depth steps, apply (eval limit depth) steps f args x = r) ↔
                ∃ limit depth, eval limit depth body inner z = r)) ∧
        (¬ Accepts leading (namedTail tail) args →
          ∃ fault, fault.kind = .arity ∧ ∀ r : Ending Value, r.Settled →
            ((∃ limit depth steps, apply (eval limit depth) steps f args x = r) ↔
              r = .error (.fault fault) x)) := by
  refine ⟨⟨?_, ?_⟩, ?_⟩
  · rintro ⟨limit, depth, f, u, hmade⟩
    exact exists_isParameters_of_evaluates hform htarget
      ((evaluates_iff_exists_eval settled_ok).mpr ⟨limit, depth, hmade⟩)
  · rintro ⟨leading, tail, hparams⟩
    obtain ⟨_, _, f, u, _, hmade, _⟩ :=
      evaluates_function_of_isParameters hform htarget frame hparams
    obtain ⟨limit, depth, heval⟩ := (evaluates_iff_exists_eval settled_ok).mp hmade
    exact ⟨limit, depth, f, u, heval⟩
  intro leading tail limit depth f u hparams heval
  obtain ⟨body, y, f', u', hbody, hmade, hcallee⟩ :=
    evaluates_function_of_isParameters hform htarget frame hparams
  cases hmade.unique ((evaluates_iff_exists_eval settled_ok).mpr ⟨limit, depth, heval⟩)
  refine ⟨body, y, hbody, fun x args hx => ⟨fun haccepts => ?_, fun hrefuses => ?_⟩⟩
  · obtain ⟨inner, z, hcall, hends⟩ := applies_iff_of_accepts (hx.trans hcallee) haccepts
    refine ⟨inner, z, hcall, fun r hr => ?_⟩
    rw [← applies_iff_exists_apply hr, ← evaluates_iff_exists_eval hr]
    exact hends r
  · refine ⟨countFault leading (namedTail tail) args, kind_countFault, fun r hr => ?_⟩
    rw [← applies_iff_exists_apply hr]
    exact applies_iff_of_not_accepts (hx.trans hcallee) hrefuses

/-- A session with the forms of two functions: `(fn* (a b & a) b)`, and one without a leading
parameter whose tail has an empty name. -/
def making : World :=
  (start [] false {}).after (runSource (Text.of "
    (def! names '(a b & a)) (def! sharing (list 'fn* names 'b))
    (def! tail (list '& (symbol \"\"))) (def! seven 7) (def! nameless (list 'fn* tail seven))"))

set_option maxRecDepth 10000 in
theorem making_spec :
    let v := making.global
    making.heap.parts? (v "sharing") =
      some (.round, [.symbol Special.function.name, v "names", .symbol (Text.of "b")]) ∧
    making.heap.elements? (v "names") = some [.symbol (Text.of "a"), .symbol (Text.of "b"),
      .symbol ampersand, .symbol (Text.of "a")] ∧
    making.heap.parts? (v "nameless") =
      some (.round, [.symbol Special.function.name, v "tail", v "seven"]) ∧
    making.heap.elements? (v "tail") = some [.symbol ampersand, .symbol []] := by
  decide +kernel

/-- Of three arguments, `b` is the second, and `a` is a list of the third though it is a leading
parameter as well; a tail with an empty name takes no argument. -/
theorem functions_take_their_parameters_making :
    (∃ limit depth f u inner z list cell,
      eval limit depth (making.global "sharing") World.root making = .ok f u ∧
      z.scopes.get? inner (Text.of "a") = some list ∧ z.heap.content list = .list cell ∧
      z.heap.items cell = [.bool false] ∧
      z.scopes.get? inner (Text.of "b") = some (.bool true) ∧
      ∃ limit depth steps, apply (eval limit depth) steps f [.nil, .bool true, .bool false] u =
        .ok (.bool true) z) ∧
    ∃ limit depth f u fault,
      eval limit depth (making.global "nameless") World.root making = .ok f u ∧
      fault.kind = .arity ∧ ∃ limit depth steps,
        apply (eval limit depth) steps f [.nil] u = .error (.fault fault) u := by
  obtain ⟨hfirst, hfirstParams, hsecond, hsecondParams⟩ := making_spec
  generalize making = w at *
  obtain ⟨first, hfirst, hfirstItems⟩ := Heap.elements_of_parts? hfirst
  obtain ⟨second, hsecond, hsecondItems⟩ := Heap.elements_of_parts? hsecond
  constructor
  · obtain ⟨hmade, hcalls⟩ := functions_take_their_parameters
      ⟨first, _, hfirst, hfirstItems, rfl⟩ hfirstParams World.root
    have hparams : IsParameters w.heap [.symbol (Text.of "a"), .symbol (Text.of "b"),
        .symbol ampersand, .symbol (Text.of "a")] [Text.of "a", Text.of "b"]
        (some (Text.of "a")) :=
      ⟨by decide, .cons rfl (.cons rfl (.cons rfl (.cons rfl .nil)))⟩
    obtain ⟨limit, depth, f, u, heval⟩ := hmade.mpr ⟨_, _, hparams⟩
    obtain ⟨body, y, hbody, hcall⟩ := hcalls _ _ limit depth f u hparams heval
    cases hbody
    have haccepts : Accepts [Text.of "a", Text.of "b"] (namedTail (some (Text.of "a")))
      [.nil, .bool true, .bool false] := by decide
    obtain ⟨inner, z, hframe, hends⟩ := (hcall u _ rfl).1 haccepts
    obtain ⟨list, cell, hlist, -, hcontent, -, hitems⟩ := hframe.surplus (Text.of "a") rfl
    have hsecond := hframe.last 1 (Text.of "b") rfl (by decide) (by decide)
    have hresult : Evaluates z (.symbol (Text.of "b")) inner (.ok (.bool true) z) :=
      evaluates_symbol rfl (Scopes.find?_of_get? hsecond)
    exact ⟨limit, depth, f, u, inner, z, list, cell, heval, hlist, hcontent, hitems, hsecond,
      (hends _ settled_ok).mpr ((evaluates_iff_exists_eval settled_ok).mp hresult)⟩
  · obtain ⟨hmade, hcalls⟩ := functions_take_their_parameters
      ⟨second, _, hsecond, hsecondItems, rfl⟩ hsecondParams World.root
    have hparams : IsParameters w.heap [.symbol ampersand, .symbol []] [] (some []) :=
      ⟨by decide, .cons rfl (.cons rfl .nil)⟩
    obtain ⟨limit, depth, f, u, heval⟩ := hmade.mpr ⟨_, _, hparams⟩
    obtain ⟨body, y, -, hcall⟩ := hcalls _ _ limit depth f u hparams heval
    obtain ⟨fault, hkind, hends⟩ := (hcall u [.nil] rfl).2 (by decide)
    exact ⟨limit, depth, f, u, fault, heval, hkind, (hends _ (settled_error (by simp))).mpr rfl⟩

end Evaluator

end Lisp
