import Lisp.Proofs.Evaluator.Written
import Mathlib.Data.ENat.Lattice
import Mathlib.Order.CompletePartialOrder
import Mathlib.Tactic.Ring

/-!
How deep evaluations nest. The nesting of a form is the least number of levels of evaluations inside
its own within which its evaluation fits, infinite if there is none. It is the maximum of one more
than the nesting of each form evaluated on the way and of the nesting of the form in tail position,
to which nothing is added. So a loop written with tail calls nests no deeper than one round of it.
-/
namespace Lisp.Evaluator

open Meaning

variable {w u : World} {form head f : Value} {forms : List Value} {frame inner : FrameId}

/-- How many levels of evaluations the evaluation of a form has inside it. -/
noncomputable def nesting (w : World) (form : Value) (frame : FrameId) : ℕ∞ :=
  ⨅ (n : ℕ) (_ : FitsIn (n + 1) w form frame), (n : ℕ∞)

/-- The levels for forms evaluated from left to right inside another evaluation. -/
noncomputable def nestingAll (frame : FrameId) : World → List Value → ℕ∞
  | _, [] => 0
  | w, form :: rest =>
    max (1 + nesting w form frame)
      (⨆ (v) (u) (_ : Evaluates w form frame (.ok v u)), nestingAll frame u rest)

/-- The levels for bindings made from left to right inside another evaluation. -/
noncomputable def nestingBinds (frame : FrameId) : World → List Value → ℕ∞
  | w, target :: form :: rest =>
    ⨆ (name) (_ : w.heap.content target = .symbol name), max (1 + nesting w form frame)
      (⨆ (v) (u) (x) (_ : Evaluates w form frame (.ok v u))
        (_ : Run.define frame name v u = .ok () x), nestingBinds frame x rest)
  | _, _ => 0

section Bounds

variable {n : ℕ}

theorem nesting_le_iff : nesting w form frame ≤ n ↔ FitsIn (n + 1) w form frame := by
  constructor
  · intro hle
    have hlt : nesting w form frame < ((n + 1 : ℕ) : ℕ∞) :=
      hle.trans_lt (Nat.cast_lt.mpr (Nat.lt_succ_self n))
    simp only [nesting, iInf_lt_iff, Nat.cast_lt] at hlt
    obtain ⟨m, hfits, hm⟩ := hlt
    have hmore := hfits.add (n - m)
    rwa [show m + 1 + (n - m) = n + 1 by omega] at hmore
  · exact fun hfits => iInf₂_le n hfits

theorem one_add_nesting_le_iff : 1 + nesting w form frame ≤ n ↔ FitsIn n w form frame := by
  cases n with
  | zero =>
    refine iff_of_false (fun hle => ?_) not_fitsIn_zero
    exact absurd (le_self_add.trans hle) (by simp)
  | succ n =>
    rw [← nesting_le_iff, Nat.cast_succ, add_comm (n : ℕ∞)]
    exact ENat.add_le_add_iff_left (by simp)

theorem nestingAll_le_iff : nestingAll frame w forms ≤ n ↔ FitsAll n w forms frame := by
  induction forms generalizing w with
  | nil => exact iff_of_true zero_le (fits_own (pure []) w)
  | cons form rest ih =>
    rw [nestingAll, fitsAll_cons]
    simp only [max_le_iff, iSup_le_iff, one_add_nesting_le_iff, ih]

theorem nestingBinds_le_iff {pairs : List Value} (heven : pairs.length % 2 = 0) :
    nestingBinds frame w pairs ≤ n ↔ FitsBinds n w pairs frame := by
  induction pairs using List.twoStepInduction generalizing w with
  | nil => exact iff_of_true zero_le (fits_own (pure ()) w)
  | singleton _ => cases heven
  | cons_cons target form rest ih _ =>
    have hrest : rest.length % 2 = 0 := by
      simp only [List.length_cons] at heven
      omega
    rw [nestingBinds, fitsBinds_cons]
    simp only [max_le_iff, iSup_le_iff, one_add_nesting_le_iff, ih hrest]

/-- Two depths are the same when they are within the same bounds. -/
theorem eq_of_forall_le_iff {a b : ℕ∞} (h : ∀ n : ℕ, a ≤ n ↔ b ≤ n) : a = b := by
  have hle : ∀ {a b : ℕ∞}, (∀ n : ℕ, b ≤ n → a ≤ n) → a ≤ b := by
    intro a b h
    cases b with
    | top => exact le_top
    | coe n => exact h n le_rfl
  exact le_antisymm (hle fun n => (h n).mpr) (hle fun n => (h n).mp)

end Bounds

section Equations

theorem nesting_sequenceEmpty (hform : IsSpecial w.heap form .sequence []) :
    nesting w form frame = 0 := by
  have hfits : FitsIn 1 w form frame :=
    fitsIn_succ_of_own (m := pure (.done .nil)) (fun _ _ => turn_special hform) (by simp)
  exact le_antisymm (nesting_le_iff.mpr hfits) zero_le

theorem nesting_sequence {earlier : List Value} {last : Value}
    (hform : IsSpecial w.heap form .sequence (earlier ++ [last])) :
    nesting w form frame = max (nestingAll frame w earlier)
      (⨆ (vs) (u) (_ : EvaluatesAll w earlier frame (.ok vs u)), nesting u last frame) := by
  refine eq_of_forall_le_iff fun n => ?_
  rw [nesting_le_iff, fitsIn_sequence hform]
  simp only [max_le_iff, iSup_le_iff, nestingAll_le_iff, nesting_le_iff]

theorem nesting_conditional {condition yes : Value} {no : Option Value}
    (hform : IsSpecial w.heap form .conditional (condition :: yes :: no.toList)) :
    nesting w form frame = max (1 + nesting w condition frame)
      (⨆ (v) (u) (_ : Evaluates w condition frame (.ok v u)),
        ⨆ branch ∈ if u.heap.isTruthy v then some yes else no, nesting u branch frame) := by
  refine eq_of_forall_le_iff fun n => ?_
  rw [nesting_le_iff, fitsIn_conditional hform]
  simp only [max_le_iff, iSup_le_iff, one_add_nesting_le_iff, nesting_le_iff]

theorem nesting_letStar {target : Value} {pairs : List Value}
    (hform : IsSpecial w.heap form .letStar (target :: forms))
    (hpairs : w.heap.elements? target = some pairs) (heven : pairs.length % 2 = 0)
    (hframe : Run.newFrame (some frame) {} w = .ok inner u) :
    nesting w form frame = max (nestingBinds inner u pairs)
      (⨆ (x) (y) (body) (_ : Binds u pairs inner (.ok () x)) (_ : bodyOf forms x = .ok body y),
        nesting y body inner) := by
  refine eq_of_forall_le_iff fun n => ?_
  rw [nesting_le_iff, fitsIn_letStar hform hpairs heven hframe]
  simp only [max_le_iff, iSup_le_iff, nestingBinds_le_iff heven, nesting_le_iff]

theorem nesting_tryStar {body clause handler : Value} {name : Text}
    (hform : IsSpecial w.heap form .tryStar [body, clause])
    (hclause : catchClause w.heap clause = .ok (name, handler)) :
    nesting w form frame = max (1 + nesting w body frame)
      (⨆ (v) (u) (inner) (x) (_ : Evaluates w body frame (.error (.thrown v) u))
        (_ : Run.newFrame (some frame) (.ofPairs [(name, v)]) u = .ok inner x),
        nesting x handler inner) := by
  refine eq_of_forall_le_iff fun n => ?_
  rw [nesting_le_iff, fitsIn_tryStar hform hclause]
  simp only [max_le_iff, iSup_le_iff, one_add_nesting_le_iff, nesting_le_iff]

theorem nesting_callClosure {c : Closure} (hform : IsCall w.heap form head forms)
    (hhead : Evaluates w head frame (.ok f u)) (hf : u.heap.callee f = .closure c)
    (hc : c.isMacro = false) :
    nesting w form frame = max (max (1 + nesting w head frame) (nestingAll frame u forms))
      (⨆ (args) (x) (inner) (y) (_ : EvaluatesAll u forms frame (.ok args x))
        (_ : Run.bindClosure c args x = .ok inner y), nesting y c.body inner) := by
  refine eq_of_forall_le_iff fun n => ?_
  rw [nesting_le_iff, fitsIn_callClosure hform hhead hf hc]
  simp only [max_le_iff, iSup_le_iff, one_add_nesting_le_iff, nestingAll_le_iff, nesting_le_iff,
    and_assoc]

theorem nesting_callMacro {c : Closure} (hform : IsCall w.heap form head forms)
    (hhead : Evaluates w head frame (.ok f u)) (hf : u.heap.callee f = .closure c)
    (hc : c.isMacro = true) :
    nesting w form frame = max (max (1 + nesting w head frame)
        (⨆ (inner) (y) (_ : Run.bindClosure c forms u = .ok inner y), 1 + nesting y c.body inner))
      (⨆ (expansion) (x) (_ : ExpandsOnce u c forms (.ok expansion x)),
        nesting x expansion frame) := by
  refine eq_of_forall_le_iff fun n => ?_
  rw [nesting_le_iff, fitsIn_callMacro hform hhead hf hc]
  simp only [max_le_iff, iSup_le_iff, one_add_nesting_le_iff, nesting_le_iff, and_assoc]

end Equations

section Within

/-- Ends so, and fits within the depth. -/
structure EvaluatesIn (depth : Nat) (w : World) (form : Value) (frame : FrameId)
    (r : Ending Value) : Prop where
  fits : FitsIn depth w form frame
  ends : Evaluates w form frame r

structure EvaluatesAllIn (depth : Nat) (w : World) (forms : List Value) (frame : FrameId)
    (r : Ending (List Value)) : Prop where
  fits : FitsAll depth w forms frame
  ends : EvaluatesAll w forms frame r

variable {depth : Nat} {x y : World} {v : Value} {args : List Value} {r : Ending Value}

theorem evaluatesIn_symbol {name : Text} (hform : w.heap.Unfolds form (.symbol name))
    (hfound : w.scopes.find? frame name = some v) :
    EvaluatesIn (depth + 1) w form frame (.ok v w) := by
  have hcontent : w.heap.content form = .symbol name := Heap.content_of_content? hform
  exact ⟨fitsIn_symbol hcontent, evaluates_symbol hform hfound⟩

theorem evaluatesIn_int {n : Int64} (hform : w.heap.Unfolds form (.int n)) :
    EvaluatesIn (depth + 1) w form frame (.ok form w) := by
  have hconstant : IsConstant w.heap form := by
    simp [IsConstant, Heap.content_of_content? hform]
  exact ⟨fitsIn_constant hconstant, .constant hconstant⟩

theorem evaluatesAllIn_nil : EvaluatesAllIn depth w [] frame (.ok [] w) :=
  ⟨fits_own (pure []) w, .nil⟩

theorem EvaluatesIn.cons {vs : List Value} (hform : EvaluatesIn depth w form frame (.ok v u))
    (hrest : EvaluatesAllIn depth u forms frame (.ok vs x)) :
    EvaluatesAllIn depth w (form :: forms) frame (.ok (v :: vs) x) := by
  refine ⟨fitsAll_cons.mpr ⟨hform.fits, fun v' u' hends => ?_⟩, .cons hform.ends hrest.ends⟩
  cases hends.unique hform.ends
  exact hrest.fits

theorem EvaluatesIn.operation {op : Operation} (hform : IsCall w.heap form head forms)
    (hhead : EvaluatesIn depth w head frame (.ok f w))
    (hf : w.heap.callee f = .native (.operation op))
    (hargs : EvaluatesAllIn depth w forms frame (.ok args x)) :
    EvaluatesIn (depth + 1) w form frame (op.call args x) :=
  ⟨(fitsIn_callOperation hform hhead.ends hf).mpr ⟨hhead.fits, hargs.fits⟩,
    .callNative hform hhead.ends hf hargs.ends .operation⟩

theorem EvaluatesIn.closure {c : Closure} (hform : IsCall w.heap form head forms)
    (hhead : EvaluatesIn depth w head frame (.ok f w)) (hf : w.heap.callee f = .closure c)
    (hc : c.isMacro = false) (hargs : EvaluatesAllIn depth w forms frame (.ok args x))
    (hbind : Run.bindClosure c args x = .ok inner y)
    (hbody : EvaluatesIn (depth + 1) y c.body inner r) :
    EvaluatesIn (depth + 1) w form frame r := by
  refine ⟨(fitsIn_callClosure hform hhead.ends hf hc).mpr ⟨hhead.fits, hargs.fits, ?_⟩,
    .callClosure hform hhead.ends hf hc hargs.ends hbind hbody.ends⟩
  intro args' x' inner' y' hall hother
  cases hall.unique hargs.ends
  cases hother.symm.trans hbind
  exact hbody.fits

theorem EvaluatesIn.conditional {condition yes no : Value}
    (hform : IsSpecial w.heap form .conditional [condition, yes, no])
    (hcondition : EvaluatesIn depth w condition frame (.ok v u))
    (hbranch : EvaluatesIn (depth + 1) u (if u.heap.isTruthy v then yes else no) frame r) :
    EvaluatesIn (depth + 1) w form frame r := by
  have hparts : IsSpecial w.heap form .conditional (condition :: yes :: (some no).toList) := hform
  constructor
  · refine (fitsIn_conditional hparts).mpr ⟨hcondition.fits, fun v' u' hends branch hother => ?_⟩
    cases hends.unique hcondition.ends
    have hsame : (if u.heap.isTruthy v then yes else no) = branch := by
      by_cases htruthy : u.heap.isTruthy v
      · rw [if_pos htruthy] at hother ⊢
        exact Option.some.inj hother
      · rw [if_neg htruthy] at hother ⊢
        exact Option.some.inj hother
    exact hsame ▸ hbranch.fits
  · cases htruthy : u.heap.isTruthy v with
    | true =>
      rw [htruthy] at hbranch
      exact .conditionalThen hparts hcondition.ends htruthy hbranch.ends
    | false =>
      rw [htruthy] at hbranch
      exact .conditionalElse hform hcondition.ends htruthy hbranch.ends

end Within

section Sum

def sumName : Text := Text.of "sum"

def countName : Text := Text.of "n"

def totalName : Text := Text.of "acc"

/-- `(if (= n 0) acc (sum (- n 1) (+ acc n)))` -/
def sumBody : Datum :=
  .call Special.conditional.name
    [.call Operation.equal.name [.symbol countName, .int 0],
      .symbol totalName,
      .call sumName
        [.call Operation.subtract.name [.symbol countName, .int 1],
          .call Operation.add.name [.symbol totalName, .symbol countName]]]

/-- `(fn* (n acc) (if (= n 0) acc (sum (- n 1) (+ acc n))))`, evaluated in the outermost frame. -/
structure IsSum (h : Heap) (c : Closure) : Prop where
  scope : c.scope = World.root
  params : c.params = [countName, totalName]
  tail : c.tail = none
  isMacro : c.isMacro = false
  body : h.Unfolds c.body sumBody

/-- The function is bound to `sum`, and the operations that it uses have their names. -/
structure KnowsSum (w : World) (c : Closure) : Prop where
  sum : ∃ f content, w.scopes.get? World.root sumName = some f ∧
    w.heap.content? f = some content ∧ w.heap.callee f = .closure c
  isSum : IsSum w.heap c
  operations : ∀ op ∈ [Operation.equal, .subtract, .add], ∃ f content,
    w.scopes.get? World.root op.name = some f ∧ w.heap.content? f = some content ∧
      w.heap.callee f = .native (.operation op)

theorem KnowsSum.adds {c : Closure} (hsum : KnowsSum w c) (hadds : w.Adds u) : KnowsSum u c := by
  constructor
  · obtain ⟨f, content, hf, hcontent, hcallee⟩ := hsum.sum
    exact ⟨f, content, hadds.get? hf, hadds.heap.content? hcontent,
      (hadds.callee hcontent).trans hcallee⟩
  · obtain ⟨hscope, hparams, htail, hmacro, hbody⟩ := hsum.isSum
    exact ⟨hscope, hparams, htail, hmacro, hadds.heap.unfolds hbody⟩
  · intro op hop
    obtain ⟨f, content, hf, hcontent, hcallee⟩ := hsum.operations op hop
    exact ⟨f, content, hadds.get? hf, hadds.heap.content? hcontent,
      (hadds.callee hcontent).trans hcallee⟩

/-- The frame of a call of `sum`. -/
def IsSumFrame (w : World) (frame : FrameId) (n acc : Int64) : Prop :=
  ∃ a b more,
    w.scopes.frames[frame]? =
      some ⟨.ofPairs [(countName, a), (totalName, b)], World.root :: more⟩ ∧
    w.heap.Unfolds a (.int n) ∧ w.heap.Unfolds b (.int acc)

namespace IsSumFrame

variable {n acc : Int64}

theorem adds (hframe : IsSumFrame w frame n acc) (hadds : w.Adds u) : IsSumFrame u frame n acc := by
  obtain ⟨a, b, more, hfr, ha, hb⟩ := hframe
  exact ⟨a, b, more, hadds.frames _ _ hfr, hadds.heap.unfolds ha, hadds.heap.unfolds hb⟩

theorem get?_ofPairs (a b : Value) (name : Text) :
    (Bindings.ofPairs [(countName, a), (totalName, b)]).get? name =
      if totalName = name then some b else if countName = name then some a else none := by
  simp [Bindings.ofPairs, Bindings.get?_put]

theorem count (hframe : IsSumFrame w frame n acc) :
    ∃ a, w.scopes.find? frame countName = some a ∧ w.heap.Unfolds a (.int n) := by
  obtain ⟨a, b, more, hfr, ha, _⟩ := hframe
  refine ⟨a, Scopes.find?_of_get? ?_, ha⟩
  rw [Scopes.get?_of_frame hfr, get?_ofPairs]
  rfl

theorem total (hframe : IsSumFrame w frame n acc) :
    ∃ b, w.scopes.find? frame totalName = some b ∧ w.heap.Unfolds b (.int acc) := by
  obtain ⟨a, b, more, hfr, _, hb⟩ := hframe
  refine ⟨b, Scopes.find?_of_get? ?_, hb⟩
  rw [Scopes.get?_of_frame hfr, get?_ofPairs]
  rfl

/-- The other names have their meaning in the outermost frame. -/
theorem other {name : Text} {v : Value} (hframe : IsSumFrame w frame n acc)
    (hcount : countName ≠ name) (htotal : totalName ≠ name)
    (hv : w.scopes.get? World.root name = some v) : w.scopes.find? frame name = some v := by
  obtain ⟨a, b, more, hfr, _, _⟩ := hframe
  refine Scopes.find?_of_outer hfr ?_ hv
  rw [get?_ofPairs, if_neg htotal, if_neg hcount]

end IsSumFrame

/-- The form evaluates to an integer, within the depth. -/
def GivesInt (depth : Nat) (w : World) (form : Value) (frame : FrameId) (n : Int64) : Prop :=
  ∃ v u, EvaluatesIn depth w form frame (.ok v u) ∧ u.heap.content v = .int n

variable {c : Closure} {n acc total : Int64} {depth : Nat} {x : World} {a b : Value}

/-- A call of a name on two forms. -/
theorem isCall_pair {name : Text} {d e : Datum} (hform : w.heap.Unfolds form (.call name [d, e]))
    (hname : Special.ofName? name = none) :
    ∃ head first second, IsCall w.heap form head [first, second] ∧
      w.heap.Unfolds head (.symbol name) ∧ w.heap.Unfolds first d ∧ w.heap.Unfolds second e := by
  obtain ⟨head, forms, hcall, hhead, hforms⟩ := isCall_of_unfolds hform hname
  obtain ⟨first, rest, hfirst, hrest, rfl⟩ := List.forall₂_cons_right_iff.mp hforms
  obtain ⟨second, _, hsecond, hnil, rfl⟩ := List.forall₂_cons_right_iff.mp hrest
  obtain rfl := List.forall₂_nil_right_iff.mp hnil
  exact ⟨head, first, second, hcall, hhead, hfirst, hsecond⟩

/-- The operations of `sum`, in the frame of a call of it. -/
theorem KnowsSum.operation (hsum : KnowsSum w c) (hframe : IsSumFrame w frame n acc)
    {op : Operation} (hop : op ∈ [Operation.equal, .subtract, .add]) {d e : Datum}
    (hform : w.heap.Unfolds form (.call op.name [d, e])) :
    ∃ first second, w.heap.Unfolds first d ∧ w.heap.Unfolds second e ∧
      ∀ {a b}, EvaluatesIn (depth + 1) w first frame (.ok a w) →
        EvaluatesIn (depth + 1) w second frame (.ok b w) →
        EvaluatesIn (depth + 2) w form frame (op.call [a, b] w) := by
  have hnames : ∀ op ∈ [Operation.equal, .subtract, .add], Special.ofName? op.name = none ∧
      countName ≠ op.name ∧ totalName ≠ op.name := by decide
  obtain ⟨hname, hcount, htotal⟩ := hnames op hop
  obtain ⟨f, _, hf, _, hcallee⟩ := hsum.operations op hop
  obtain ⟨head, first, second, hcall, hhead, hfirst, hsecond⟩ := isCall_pair hform hname
  refine ⟨first, second, hfirst, hsecond, fun ha hb => ?_⟩
  exact .operation hcall (evaluatesIn_symbol hhead (hframe.other hcount htotal hf)) hcallee
    (ha.cons (hb.cons evaluatesAllIn_nil))

/-- A call of `sum` does what its body does. -/
theorem KnowsSum.call (hsum : KnowsSum w c)
    (hsee : ∀ v, w.scopes.get? World.root sumName = some v → w.scopes.find? frame sumName = some v)
    {d e : Datum} (hform : w.heap.Unfolds form (.call sumName [d, e])) :
    ∃ first second, w.heap.Unfolds first d ∧ w.heap.Unfolds second e ∧
      ∀ {a b u x n acc total}, EvaluatesIn (depth + 1) w first frame (.ok a u) →
        EvaluatesIn (depth + 1) u second frame (.ok b x) → w.Adds x →
        x.heap.Unfolds a (.int n) → x.heap.Unfolds b (.int acc) →
        (∀ y inner, KnowsSum y c → IsSumFrame y inner n acc →
          GivesInt (depth + 2) y c.body inner total) →
        GivesInt (depth + 2) w form frame total := by
  obtain ⟨f, _, hf, _, hcallee⟩ := hsum.sum
  obtain ⟨head, first, second, hcall, hhead, hfirst, hsecond⟩ := isCall_pair hform (by decide)
  refine ⟨first, second, hfirst, hsecond, fun {a b u x _ _ _} hevala hevalb hadds ha hb hbody => ?_⟩
  obtain ⟨hscope, hparams, htail, hmacro, _⟩ := hsum.isSum
  have hbind : Run.bindClosure c [a, b] x =
      Run.newFrame (some World.root) (.ofPairs [(countName, a), (totalName, b)]) x := by
    simp [Run.bindClosure, Run.bind_none, hscope, hparams, htail]
  have hnew : Run.newFrame (some World.root) (.ofPairs [(countName, a), (totalName, b)]) x =
      .ok _ _ := rfl
  obtain ⟨hmore, hheap, hfr⟩ := World.Adds.newFrame hnew
  rw [← hheap] at ha hb
  obtain ⟨v, y, hevaluates, hv⟩ :=
    hbody _ _ (hsum.adds (hadds.trans hmore)) ⟨a, b, _, hfr, ha, hb⟩
  exact ⟨v, y, .closure hcall (evaluatesIn_symbol hhead (hsee f hf)) hcallee hmacro
    (hevala.cons (hevalb.cons evaluatesAllIn_nil)) hbind hevaluates, hv⟩

variable {m : Int64}

theorem subtract_ints (ha : w.heap.Unfolds a (.int n)) (hb : w.heap.Unfolds b (.int m)) :
    Operation.subtract.call [a, b] w = Run.make (.int (n - m)) w := by
  have hca := Heap.content_of_content? ha
  have hcb := Heap.content_of_content? hb
  simp [Operation.call, Operation.answer, Arithmetic.difference_eq, Arithmetic.numerals,
    Numeral.ofValue?, hca, hcb, Arithmetic.combine, Numeral.integers?, Arithmetic.settle,
    Answer.perform, Reply.perform]
  rfl

theorem add_ints (ha : w.heap.Unfolds a (.int n)) (hb : w.heap.Unfolds b (.int m)) :
    Operation.add.call [a, b] w = Run.make (.int (n + m)) w := by
  have hca := Heap.content_of_content? ha
  have hcb := Heap.content_of_content? hb
  simp [Operation.call, Operation.answer, Arithmetic.total_eq, Arithmetic.numerals,
    Numeral.ofValue?, hca, hcb, Arithmetic.combine, Arithmetic.settle, Answer.perform,
    Reply.perform]
  rfl

/-- `(= n 0)` -/
theorem KnowsSum.evaluatesIn_isDone (hsum : KnowsSum w c) (hframe : IsSumFrame w frame n acc)
    (hform : w.heap.Unfolds form (.call Operation.equal.name [.symbol countName, .int 0])) :
    EvaluatesIn 2 w form frame (.ok (.bool (n == 0)) w) := by
  obtain ⟨first, second, hfirst, hsecond, hcall⟩ := hsum.operation hframe (by simp) hform
  obtain ⟨a, hfound, ha⟩ := hframe.count
  rw [← equal_ints ha hsecond]
  exact hcall (evaluatesIn_symbol hfirst hfound) (evaluatesIn_int hsecond)

/-- `(- n 1)` -/
theorem KnowsSum.evaluatesIn_pred (hsum : KnowsSum w c) (hframe : IsSumFrame w frame n acc)
    (hform : w.heap.Unfolds form (.call Operation.subtract.name [.symbol countName, .int 1])) :
    EvaluatesIn 2 w form frame (Run.make (.int (n - 1)) w) := by
  obtain ⟨first, second, hfirst, hsecond, hcall⟩ := hsum.operation hframe (by simp) hform
  obtain ⟨a, hfound, ha⟩ := hframe.count
  rw [← subtract_ints ha hsecond]
  exact hcall (evaluatesIn_symbol hfirst hfound) (evaluatesIn_int hsecond)

/-- `(+ acc n)` -/
theorem KnowsSum.evaluatesIn_grow (hsum : KnowsSum w c) (hframe : IsSumFrame w frame n acc)
    (hform : w.heap.Unfolds form
      (.call Operation.add.name [.symbol totalName, .symbol countName])) :
    EvaluatesIn 2 w form frame (Run.make (.int (acc + n)) w) := by
  obtain ⟨first, second, hfirst, hsecond, hcall⟩ := hsum.operation hframe (by simp) hform
  obtain ⟨a, hfound, ha⟩ := hframe.count
  obtain ⟨b, hfound', hb⟩ := hframe.total
  rw [← add_ints hb ha]
  exact hcall (evaluatesIn_symbol hfirst hfound') (evaluatesIn_symbol hsecond hfound)

/-- One round of the loop. -/
theorem KnowsSum.round (hsum : KnowsSum w c) (hframe : IsSumFrame w frame n acc)
    (hdone : n = 0 → total = acc)
    (hmore : n ≠ 0 → ∀ y inner, KnowsSum y c → IsSumFrame y inner (n - 1) (acc + n) →
      GivesInt 3 y c.body inner total) :
    GivesInt 3 w c.body frame total := by
  obtain ⟨forms, hbody, hforms⟩ := isSpecial_of_unfolds hsum.isSum.body
  obtain ⟨condition, _, hcondition, hbranches, rfl⟩ := List.forall₂_cons_right_iff.mp hforms
  obtain ⟨yes, _, hyes, hlast, rfl⟩ := List.forall₂_cons_right_iff.mp hbranches
  obtain ⟨no, _, hno, hnil, rfl⟩ := List.forall₂_cons_right_iff.mp hlast
  obtain rfl := List.forall₂_nil_right_iff.mp hnil
  have hcondition := hsum.evaluatesIn_isDone hframe hcondition
  by_cases hn : n = 0
  · obtain ⟨b, hfound, hb⟩ := hframe.total
    refine ⟨b, w, hcondition.conditional hbody ?_, hdone hn ▸ Heap.content_of_content? hb⟩
    rw [hn]
    exact evaluatesIn_symbol hyes hfound
  · obtain ⟨pred, grown, hpred, hgrown, hcall⟩ :=
      hsum.call (fun v => hframe.other (by decide) (by decide)) hno
    have hcount := hsum.evaluatesIn_pred hframe hpred
    obtain ⟨hadds, ha, _⟩ := World.Adds.make (w := w) (c := .int (n - 1)) rfl
    have htotal := (hsum.adds hadds).evaluatesIn_grow (hframe.adds hadds)
      (hadds.heap.unfolds hgrown)
    obtain ⟨hadds', hb, _⟩ := World.Adds.make (c := .int (acc + n)) rfl
    obtain ⟨v, u, hevaluates, hv⟩ :=
      hcall hcount htotal (hadds.trans hadds') (hadds'.heap.unfolds ha) hb (hmore hn)
    refine ⟨v, u, hcondition.conditional hbody ?_, hv⟩
    rw [beq_false_of_ne hn]
    exact hevaluates

theorem KnowsSum.givesBody {k : ℕ} (hk : k < 2 ^ 63) (hsum : KnowsSum w c)
    (hframe : IsSumFrame w frame (.ofNat k) acc) :
    GivesInt 3 w c.body frame (acc + .ofNat (k * (k + 1) / 2)) := by
  induction k generalizing w frame acc with
  | zero => exact hsum.round hframe (fun _ => by simp) fun hne => absurd rfl hne
  | succ k ih =>
    have hne : Int64.ofNat (k + 1) ≠ 0 := by
      intro hzero
      have hint := congrArg Int64.toInt hzero
      rw [Int64.toInt_ofNat_of_lt hk, Int64.toInt_zero] at hint
      omega
    refine hsum.round hframe (fun hzero => absurd hzero hne) fun _ y inner hsum' hframe' => ?_
    rw [show Int64.ofNat (k + 1) - 1 = .ofNat k by simp] at hframe'
    have hrest := ih (by omega) hsum' hframe'
    have htriangle : (k + 1) * (k + 1 + 1) / 2 = (k + 1) + k * (k + 1) / 2 := by
      rw [show (k + 1) * (k + 1 + 1) = k * (k + 1) + (k + 1) * 2 by ring,
        Nat.add_mul_div_right _ _ (by omega)]
      omega
    rwa [htriangle, Int64.ofNat_add, ← Int64.add_assoc]

theorem KnowsSum.gives (hn : 0 ≤ n) (hsum : KnowsSum w c)
    (hform : w.heap.Unfolds form (.call sumName [.int n, .int acc])) :
    GivesInt 3 w form World.root (.ofInt (acc.toInt + n.toInt * (n.toInt + 1) / 2)) := by
  obtain ⟨first, second, hfirst, hsecond, hcall⟩ :=
    hsum.call (fun v => Scopes.find?_of_get?) hform
  have hvalue : Int64.ofInt (acc.toInt + n.toInt * (n.toInt + 1) / 2) =
      acc + .ofNat (n.toNatClampNeg * (n.toNatClampNeg + 1) / 2) := by
    rw [Int64.ofInt_add, Int64.ofInt_toInt, ← Int64.cast_toNatClampNeg n hn, ← Int64.ofInt_eq_ofNat]
    norm_cast
  rw [hvalue]
  refine hcall (evaluatesIn_int hfirst) (evaluatesIn_int hsecond) (.refl w) hfirst hsecond ?_
  intro y inner hsum' hframe
  rw [← Int64.ofNat_toNatClampNeg n hn] at hframe
  exact hsum'.givesBody n.toNatClampNeg_lt hframe

end Sum

/-- The nesting of a form is the maximum of one more than that of each form evaluated on the way and
of that of the form in tail position. So a loop by tail calls runs within one depth. -/
theorem tail_calls_do_not_nest (w : World) (form : Value) (frame : FrameId) :
    (∀ n : ℕ, nesting w form frame ≤ n → ∀ limit more,
      eval limit (n + 1 + more) form frame w = eval limit (n + 1) form frame w) ∧
    (∀ n : ℕ, n < nesting w form frame → ∃ limit u, ∀ e, (∀ v, e ≠ .thrown v) →
      evalOver (failing e) limit (n + 1) form frame w = .error e u) ∧
    (IsSpecial w.heap form .sequence [] → nesting w form frame = 0) ∧
    (∀ earlier last, IsSpecial w.heap form .sequence (earlier ++ [last]) →
      nesting w form frame = max (nestingAll frame w earlier)
        (⨆ (vs) (u) (_ : EvaluatesAll w earlier frame (.ok vs u)), nesting u last frame)) ∧
    (∀ condition yes no,
      IsSpecial w.heap form .conditional (condition :: yes :: Option.toList no) →
      nesting w form frame = max (1 + nesting w condition frame)
        (⨆ (v) (u) (_ : Evaluates w condition frame (.ok v u)),
          ⨆ branch ∈ if u.heap.isTruthy v then some yes else no, nesting u branch frame)) ∧
    (∀ target forms pairs inner u, IsSpecial w.heap form .letStar (target :: forms) →
      w.heap.elements? target = some pairs → pairs.length % 2 = 0 →
      Run.newFrame (some frame) {} w = .ok inner u →
      nesting w form frame = max (nestingBinds inner u pairs)
        (⨆ (x) (y) (body) (_ : Binds u pairs inner (.ok () x)) (_ : bodyOf forms x = .ok body y),
          nesting y body inner)) ∧
    (∀ head forms f u c, IsCall w.heap form head forms → Evaluates w head frame (.ok f u) →
      u.heap.callee f = .closure c → c.isMacro = false →
      nesting w form frame = max (max (1 + nesting w head frame) (nestingAll frame u forms))
        (⨆ (args) (x) (inner) (y) (_ : EvaluatesAll u forms frame (.ok args x))
          (_ : Run.bindClosure c args x = .ok inner y), nesting y c.body inner)) ∧
    (∀ head forms f u c, IsCall w.heap form head forms → Evaluates w head frame (.ok f u) →
      u.heap.callee f = .closure c → c.isMacro = true →
      nesting w form frame = max (max (1 + nesting w head frame)
          (⨆ (inner) (y) (_ : Run.bindClosure c forms u = .ok inner y),
            1 + nesting y c.body inner))
        (⨆ (expansion) (x) (_ : ExpandsOnce u c forms (.ok expansion x)),
          nesting x expansion frame)) ∧
    (∀ body clause name handler, IsSpecial w.heap form .tryStar [body, clause] →
      catchClause w.heap clause = .ok (name, handler) →
      nesting w form frame = max (1 + nesting w body frame)
        (⨆ (v) (u) (inner) (x) (_ : Evaluates w body frame (.error (.thrown v) u))
          (_ : Run.newFrame (some frame) (.ofPairs [(name, v)]) u = .ok inner x),
          nesting x handler inner)) ∧
    (∀ c n acc, KnowsSum w c → 0 ≤ n →
      w.heap.Unfolds form (.call sumName [.int n, .int acc]) →
      nesting w form World.root ≤ 2 ∧ ∃ v u, Evaluates w form World.root (.ok v u) ∧
        u.heap.content v = .int (.ofInt (acc.toInt + n.toInt * (n.toInt + 1) / 2))) := by
  refine ⟨fun n hle limit more => ?_, fun n hlt => ?_, nesting_sequenceEmpty,
    fun _ _ => nesting_sequence, fun _ _ _ => nesting_conditional,
    fun _ _ _ _ _ => nesting_letStar, fun _ _ _ _ _ => nesting_callClosure,
    fun _ _ _ _ _ => nesting_callMacro, fun _ _ _ _ => nesting_tryStar,
    fun c n acc hsum hn hform => ?_⟩
  · exact (nesting_le_iff.mp hle).eval_eq limit more
  · have hdeep : ¬ FitsIn (n + 1) w form frame := mt nesting_le_iff.mpr hlt.not_ge
    obtain ⟨limit, hlimit⟩ := not_forall.mp hdeep
    have heval := (isBounded_evalOver (n + 1) form frame).program limit
    exact ⟨limit, (eq_or_asks heval w).resolve_left hlimit⟩
  · obtain ⟨v, u, ⟨hfits, hends⟩, hv⟩ := hsum.gives hn hform
    exact ⟨nesting_le_iff.mpr hfits, v, u, hends, hv⟩

/-- The body of `sum`, in a heap with the operations that it uses. -/
def sumParts : Value × Heap :=
  Heap.build {
    objects := #[⟨.native 0, none⟩, ⟨.native 1, none⟩, ⟨.native 2, none⟩]
    natives := #[.operation .equal, .operation .subtract, .operation .add] } sumBody

def sumClosure : Closure := ⟨World.root, [countName, totalName], none, sumParts.1, false⟩

/-- `(sum 4 10)` -/
def sumCall : Value × Heap :=
  (sumParts.2.makeClosure sumClosure none).2.build (.call sumName [.int 4, .int 10])

def summing : World where
  heap := sumCall.2
  scopes := ⟨#[{ bindings := .ofPairs [(Operation.equal.name, .object 0),
    (Operation.subtract.name, .object 1), (Operation.add.name, .object 2),
    (sumName, (sumParts.2.makeClosure sumClosure none).1)] }]⟩

theorem sumCall_spec :
    (sumParts.2.makeClosure sumClosure none).2.Grows sumCall.2 ∧
      sumCall.2.Unfolds sumCall.1 (.call sumName [.int 4, .int 10]) := by
  have hnumbers : (Datum.call sumName [.int 4, .int 10]).Each Datum.IsNumber := by
    simp [Datum.call, Datum.Each, Datum.EachOf, Datum.IsNumber]
  exact Heap.build_spec hnumbers _

theorem knowsSum_summing : KnowsSum summing sumClosure := by
  have hnumbers : sumBody.Each Datum.IsNumber := by
    simp [sumBody, Datum.call, Datum.Each, Datum.EachOf, Datum.IsNumber]
  have hbody : sumParts.2.Unfolds sumParts.1 sumBody := (Heap.build_spec hnumbers _).2
  have hgrows := (sumParts.2.grows_makeClosure sumClosure none).trans sumCall_spec.1
  refine ⟨⟨(sumParts.2.makeClosure sumClosure none).1, .closure 0, ?_⟩,
    ⟨rfl, rfl, rfl, rfl, hgrows.unfolds hbody⟩, ?_⟩
  · decide +kernel
  · have hall : ∀ entry ∈ [(Operation.equal, 0), (.subtract, 1), (.add, 2)],
        summing.scopes.get? World.root entry.1.name = some (.object entry.2) ∧
          summing.heap.content? (.object entry.2) = some (.native entry.2) ∧
          summing.heap.callee (.object entry.2) = .native (.operation entry.1) := by
      decide +kernel
    intro op hop
    simp only [List.mem_cons, List.not_mem_nil, or_false] at hop
    rcases hop with rfl | rfl | rfl
    · exact ⟨_, _, hall (.equal, 0) (by simp)⟩
    · exact ⟨_, _, hall (.subtract, 1) (by simp)⟩
    · exact ⟨_, _, hall (.add, 2) (by simp)⟩

theorem tail_calls_do_not_nest_summing :
    nesting summing sumCall.1 World.root ≤ 2 ∧
      ∃ v u, Evaluates summing sumCall.1 World.root (.ok v u) ∧ u.heap.content v = .int 20 := by
  obtain ⟨_, _, _, _, _, _, _, _, _, hsum⟩ := tail_calls_do_not_nest summing sumCall.1 World.root
  exact hsum sumClosure 4 10 knowsSum_summing (by decide) sumCall_spec.2

end Lisp.Evaluator
