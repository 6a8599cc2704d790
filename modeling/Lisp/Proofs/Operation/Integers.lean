import Lisp.Operation.Answer
import Mathlib.Algebra.BigOperators.Group.List.Basic
import Mathlib.Algebra.Ring.Int.Defs
import Mathlib.Data.List.Forall2

/-!
Arithmetic on integers of 64 bits. Sums, products and differences wrap around at every step, which
is the same as reducing the whole number once in the end; so the order of the arguments does not
matter. Quotients are rounded toward zero step by step and are the true ones, except that the least
integer divided by minus one is the least integer again. The remainder has the sign of the divisor
and is always the true one. Arguments that are no numbers are refused before anything is computed.
-/
namespace Lisp

namespace Operation

/-- The call makes an integer, and does nothing else. -/
def Makes (op : Operation) (args : List Value) (w : World) (z : Int) : Prop :=
  ∃ n : Int64, n.toInt = z ∧ op.call args w = Run.make (.int n) w

/-- The call raises a text. -/
def Raises (op : Operation) (args : List Value) (w : World) (s : Text) : Prop :=
  ∃ v u, op.call args w = .error (.thrown v) u ∧ u.heap.content v = .string (.ofList s)

end Operation

namespace Arithmetic

variable {h : Heap} {w : World} {name : Text} {args : List Value} {n m a b : Int64}
  {ns ds : List Int64} {float : Float → Float → Float}

/-- The values are integers, one by one. -/
def AreIntegers (h : Heap) (args : List Value) (ns : List Int64) : Prop :=
  List.Forall₂ (fun v n => h.content v = .int n) args ns

/-- The whole number that is left of one in 64 bits. -/
def wrapped (z : Int) : Int := z.bmod Int64.size

/-- The quotient rounded toward zero; there is one that does not fit. -/
def truncated (dividend divisor : Int) : Int :=
  if dividend = Int64.minValue.toInt ∧ divisor = -1 then Int64.minValue.toInt
  else dividend.tdiv divisor

section Folding

/-- Steps that wrap around amount to exact steps and one reduction of the result. -/
theorem foldl_eq_ofInt {step : Int64 → Int64 → Int64} {exact : Int → Int → Int}
    (hstep : ∀ x y, Int64.ofInt (exact x y) = step (.ofInt x) (.ofInt y)) (z : Int)
    (ns : List Int64) :
    ns.foldl step (.ofInt z) = .ofInt ((ns.map Int64.toInt).foldl exact z) := by
  induction ns generalizing z with
  | nil => rfl
  | cons n ns ih =>
    rw [List.foldl_cons, List.map_cons, List.foldl_cons, ← ih, hstep, Int64.ofInt_toInt]

theorem foldl_sub (z : Int) (zs : List Int) : zs.foldl (· - ·) z = z - zs.sum := by
  induction zs generalizing z with
  | nil => simp
  | cons y zs ih =>
    rw [List.foldl_cons, ih, List.sum_cons]
    omega

/-- One step of a division. -/
theorem toInt_div (n d : Int64) : (n / d).toInt = truncated n.toInt d.toInt := by
  unfold truncated
  split
  · rename_i hleast
    have hn : n = Int64.minValue := Int64.toInt_inj.mp hleast.1
    have hd : d = -1 := Int64.toInt_inj.mp hleast.2
    subst hn hd
    decide
  · rename_i hfits
    by_cases hn : n = Int64.minValue
    · refine Int64.toInt_div_of_ne_right n d fun hd => hfits ?_
      rw [hn, hd]
      decide
    · exact Int64.toInt_div_of_ne_left n d hn

theorem foldlM_quotient (hds : 0 ∉ ds) (n : Int64) :
    ∃ q, ds.foldlM quotient n = .ok q ∧
      q.toInt = (ds.map Int64.toInt).foldl truncated n.toInt := by
  induction ds generalizing n with
  | nil => exact ⟨n, rfl, rfl⟩
  | cons d ds ih =>
    obtain ⟨hd, hds⟩ := not_or.mp (mt List.mem_cons.mpr hds)
    obtain ⟨q, hq, htoInt⟩ := ih hds (n / d)
    refine ⟨q, ?_, ?_⟩
    · rw [List.foldlM_cons, quotient_of_ne (Ne.symm hd)]
      exact hq
    · rw [htoInt, toInt_div, List.map_cons, List.foldl_cons]

/-- A divisor that is zero is come to, whatever the divisors before it are. -/
theorem foldlM_quotient_eq_error (hds : 0 ∈ ds) (n : Int64) :
    ds.foldlM quotient n = .error .byZero := by
  induction ds generalizing n with
  | nil => cases hds
  | cons d ds ih =>
    rw [List.foldlM_cons]
    by_cases hd : d = 0
    · rw [quotient, if_pos hd]
      rfl
    · rw [quotient_of_ne hd]
      exact ih ((List.mem_cons.mp hds).resolve_left (Ne.symm hd)) (n / d)

end Folding

section Remainders

theorem fmod_bounds (a : Int) {b : Int} (hb : b ≠ 0) :
    0 ≤ a.fmod b ∧ a.fmod b < b ∨ b < a.fmod b ∧ a.fmod b ≤ 0 := by
  rcases Int.lt_or_gt_of_ne hb with hneg | hpos
  · right
    have hle := Int.emod_nonneg a hb
    have hlt := Int.emod_lt a hb
    rw [Int.fmod_eq_emod]
    by_cases hdvd : b ∣ a
    · rw [if_pos (.inr hdvd), Int.emod_eq_zero_of_dvd hdvd]
      omega
    · have hne : a % b ≠ 0 := mt Int.dvd_of_emod_eq_zero hdvd
      rw [if_neg (by omega)]
      omega
  · exact .inl ⟨Int.fmod_nonneg_of_pos a hpos, Int.fmod_lt_of_pos a hpos⟩

/-- The floored remainder is the only one between zero and the divisor. -/
theorem fmod_eq_of_dvd {a b r : Int} (hdvd : b ∣ a - r)
    (hr : 0 ≤ r ∧ r < b ∨ b < r ∧ r ≤ 0) : a.fmod b = r := by
  have hb : b ≠ 0 := by omega
  have hbounds := fmod_bounds a hb
  have hdiff : b ∣ a.fmod b - r := by
    have hfloor : b ∣ a - a.fmod b := Int.dvd_self_sub_fmod
    have hsub := Int.dvd_sub hdvd hfloor
    rwa [show a - r - (a - a.fmod b) = a.fmod b - r by omega] at hsub
  have hzero := Int.eq_zero_of_dvd_of_natAbs_lt_natAbs hdiff (by omega)
  omega

theorem fmod_spec (a : Int) {b : Int} (hb : b ≠ 0) :
    (a.fmod b = 0 ∨ (a.fmod b).sign = b.sign) ∧ (a.fmod b).natAbs < b.natAbs ∧
      b ∣ a - a.fmod b := by
  have hbounds := fmod_bounds a hb
  refine ⟨?_, by omega, Int.dvd_self_sub_fmod⟩
  by_cases hzero : a.fmod b = 0
  · exact .inl hzero
  · right
    rcases hbounds with hpos | hneg
    · rw [Int.sign_eq_one_of_pos (by omega), Int.sign_eq_one_of_pos (by omega)]
    · rw [Int.sign_eq_neg_one_of_neg (by omega), Int.sign_eq_neg_one_of_neg (by omega)]

/-- Integers of opposite signs have a sum that fits. -/
theorem toInt_add_of_opposite (hsigns : ¬ (n.toInt < 0 ↔ m.toInt < 0)) :
    (n + m).toInt = n.toInt + m.toInt := by
  have hn := n.le_toInt
  have hn' := n.toInt_lt
  have hm := m.le_toInt
  have hm' := m.toInt_lt
  rw [Int64.toInt_add]
  exact Int.bmod_eq_of_le (by omega) (by omega)

/-- The remainder that is rounded toward zero has its sign corrected by adding the divisor. -/
theorem fmod_eq_tmod_corrected {a b : Int} (hb : b ≠ 0) :
    a.fmod b = if a.tmod b ≠ 0 ∧ ¬ (a.tmod b < 0 ↔ b < 0) then a.tmod b + b else a.tmod b := by
  have hsmall : (a.tmod b).natAbs < b.natAbs := by
    rw [Int.natAbs_tmod]
    exact Nat.mod_lt _ (by omega)
  have hdvd : b ∣ a - a.tmod b := Int.dvd_self_sub_tmod
  split
  · refine fmod_eq_of_dvd ?_ (by omega)
    rw [show a - (a.tmod b + b) = a - a.tmod b - b by omega]
    exact Int.dvd_sub hdvd (Int.dvd_refl b)
  · exact fmod_eq_of_dvd hdvd (by omega)

theorem toInt_lt_zero : n < 0 ↔ n.toInt < 0 := Int64.lt_iff_toInt_lt

theorem toInt_ne_zero : n.toInt ≠ 0 ↔ n ≠ 0 := not_congr (Int64.toInt_inj (y := 0))

/-- The remainder is exact, and so is the sum that corrects it. -/
theorem modulus_eq (hb : b ≠ 0) :
    ∃ r, modulus a b = .ok r ∧ r.toInt = a.toInt.fmod b.toInt := by
  have hwrong : a % b ≠ 0 ∧ (decide (a % b < 0) != decide (b < 0)) = true ↔
      (a % b).toInt ≠ 0 ∧ ¬ ((a % b).toInt < 0 ↔ b.toInt < 0) := by
    rw [bne_iff_ne, ne_eq (decide _), decide_eq_decide, toInt_lt_zero, toInt_lt_zero, toInt_ne_zero]
  refine ⟨_, modulus_of_ne hb, ?_⟩
  rw [fmod_eq_tmod_corrected (toInt_ne_zero.mpr hb), ← Int64.toInt_mod]
  by_cases hsign : (a % b).toInt ≠ 0 ∧ ¬ ((a % b).toInt < 0 ↔ b.toInt < 0)
  · rw [if_pos (hwrong.mpr hsign), if_pos hsign]
    exact toInt_add_of_opposite hsign.2
  · rw [if_neg (mt hwrong.mp hsign), if_neg hsign]

end Remainders

section Answers

theorem ofValue?_int {v : Value} (hv : h.content v = .int n) :
    Numeral.ofValue? h v = some (.int n) := by
  rw [Numeral.ofValue?, hv]

theorem numerals_of_areIntegers (hargs : AreIntegers h args ns) :
    numerals name h args = .ok (ns.map .int) := by
  induction hargs with
  | nil => rfl
  | cons hv _ ih =>
    unfold numerals at ih ⊢
    rewrite [List.mapM_cons, ih, ofValue?_int hv]
    rfl

/-- The first value that is no number is refused. -/
theorem numerals_of_find? {v : Value}
    (hv : args.find? (fun x => (Numeral.ofValue? h x).isNone) = some v) :
    numerals name h args = .error (.operand name (Text.of "numbers") (h.kind v)) := by
  induction args with
  | nil => cases hv
  | cons x args ih =>
    unfold numerals at ih ⊢
    rw [List.find?_cons] at hv
    rw [List.mapM_cons]
    cases hx : Numeral.ofValue? h x with
    | none =>
      rw [hx] at hv
      cases hv
      rfl
    | some number =>
      rw [hx] at hv
      rewrite [ih hv]
      rfl

theorem integers?_map (ns : List Int64) : Numeral.integers? (ns.map .int) = some ns := by
  induction ns with
  | nil => rfl
  | cons n ns ih => rw [List.map_cons, Numeral.integers?, ih, Option.map_some]

theorem combine_of_ok {step : Int64 → Int64 → Except Break Int64}
    (hfold : ns.foldlM step n = .ok m) :
    combine step float (.int n) (ns.map .int) = .make (.int m) := by
  unfold combine
  rw [← List.map_cons, integers?_map]
  dsimp only
  rw [hfold, settle]

theorem combine_of_zero (hns : 0 ∈ ns) (n : Int64) :
    combine quotient float (.int n) (ns.map .int) = divisionByZero := by
  unfold combine
  rw [← List.map_cons, integers?_map]
  dsimp only
  rw [foldlM_quotient_eq_error hns, settle]

theorem total_of_areIntegers {empty : Int64} {step : Int64 → Int64 → Int64}
    (hargs : AreIntegers h args (n :: ns)) :
    total name h empty step float args = .ok (.make (.int (ns.foldl step n))) := by
  have hfold : ns.foldlM (fun x y => (.ok (step x y) : Except Break Int64)) n =
      .ok (ns.foldl step n) := List.foldlM_pure
  rw [total_eq, numerals_of_areIntegers hargs]
  exact congrArg Except.ok (combine_of_ok hfold)

/-- What a difference or quotient starts from, and what follows: one number alone follows the unit.
-/
def operands (unit : Int64) : List Int64 → Int64 × List Int64
  | [] => (unit, [])
  | [only] => (unit, [only])
  | first :: more => (first, more)

theorem operands_cons (unit n : Int64) (hns : ns ≠ []) : operands unit (n :: ns) = (n, ns) := by
  cases ns with
  | nil => exact absurd rfl hns
  | cons m ms => rfl

theorem difference_of_areIntegers {unit : Int64} {step : Int64 → Int64 → Except Break Int64}
    (hargs : AreIntegers h args ns) (hns : ns ≠ []) :
    difference name h unit step float args =
      .ok (combine step float (.int (operands unit ns).1) ((operands unit ns).2.map .int)) := by
  rw [difference_eq, numerals_of_areIntegers hargs]
  rcases ns with _ | ⟨first, _ | ⟨second, more⟩⟩
  · exact absurd rfl hns
  · rfl
  · rfl

end Answers

section Calls

variable {op : Operation} {args others : List Value} {z : Int} {s : Text} {x y v : Value}

theorem makes_of_answer (hanswer : op.answer w.host w.heap args = .ok (.make (.int n))) :
    op.Makes args w n.toInt := by
  refine ⟨n, rfl, ?_⟩
  rewrite [Operation.call, hanswer]
  rfl

theorem raises_of_answer (hanswer : op.answer w.host w.heap args = .ok (.raiseText s)) :
    op.Raises args w s := by
  refine ⟨.object w.heap.objects.size, { w with heap := (w.heap.makeString s).2 }, ?_, ?_⟩
  · rewrite [Operation.call, hanswer]
    rfl
  · simp [Heap.makeString, Heap.make, Heap.alloc, Heap.content, Heap.object]

theorem fails_of_answer {f : Fault} (hanswer : op.answer w.host w.heap args = .error f) :
    op.call args w = .error (.fault f) w := by
  rewrite [Operation.call, hanswer]
  rfl

theorem not_raises_of_makes (hmakes : op.Makes args w z) : ¬ op.Raises args w s := by
  obtain ⟨n, -, hcall⟩ := hmakes
  rintro ⟨v, u, hfails, -⟩
  cases hcall.symm.trans hfails

/-- The integer that is made determines how the call ends. -/
theorem call_eq_of_makes (hmakes : op.Makes args w z) (hothers : op.Makes others w z) :
    op.call others w = op.call args w := by
  obtain ⟨n, hn, hcall⟩ := hmakes
  obtain ⟨m, hm, hothers⟩ := hothers
  rw [hcall, hothers, Int64.toInt_inj.mp (hm.trans hn.symm)]

theorem AreIntegers.perm (hargs : AreIntegers h args ns) (hothers : others.Perm args) :
    ∃ ms : List Int64, AreIntegers h others ms ∧ ms.Perm ns :=
  List.perm_comp_forall₂ hothers hargs

/-- Where the integer does not depend on the order of the last arguments, neither does the call. -/
theorem call_eq_of_perm (front : List Value) {result : List Int64 → Int}
    (hmakes : ∀ {args ns}, AreIntegers w.heap args ns → ns ≠ [] →
      op.Makes (front ++ args) w (result ns))
    (hresult : ∀ {ns ms}, ms.Perm ns → result ms = result ns) (hargs : AreIntegers w.heap args ns)
    (hns : ns ≠ []) (hothers : others.Perm args) :
    op.call (front ++ others) w = op.call (front ++ args) w := by
  obtain ⟨ms, hms, hperm⟩ := hargs.perm hothers
  have hne : ms ≠ [] := by
    rintro rfl
    exact hns hperm.nil_eq.symm
  have hsame := hmakes hms hne
  rw [hresult hperm] at hsame
  exact call_eq_of_makes (hmakes hargs hns) hsame

theorem toInt_foldl {step : Int64 → Int64 → Int64} {exact : Int → Int → Int}
    (hstep : ∀ x y, Int64.ofInt (exact x y) = step (.ofInt x) (.ofInt y)) (n : Int64)
    (ns : List Int64) :
    (ns.foldl step n).toInt = wrapped ((ns.map Int64.toInt).foldl exact n.toInt) := by
  have hfold := foldl_eq_ofInt hstep n.toInt ns
  rw [Int64.ofInt_toInt] at hfold
  rw [hfold, Int64.toInt_ofInt, wrapped]

theorem add_makes (hargs : AreIntegers w.heap args ns) (hns : ns ≠ []) :
    Operation.add.Makes args w (wrapped (ns.map Int64.toInt).sum) := by
  obtain ⟨n, ns, rfl⟩ := List.exists_cons_of_ne_nil hns
  have hsum : (ns.foldl (· + ·) n).toInt =
      wrapped ((ns.map Int64.toInt).foldl (· + ·) n.toInt) := toInt_foldl Int64.ofInt_add n ns
  rw [List.map_cons, List.sum_eq_foldl, List.foldl_cons, zero_add, ← hsum]
  exact makes_of_answer (total_of_areIntegers hargs)

theorem multiply_makes (hargs : AreIntegers w.heap args ns) (hns : ns ≠ []) :
    Operation.multiply.Makes args w (wrapped (ns.map Int64.toInt).prod) := by
  obtain ⟨n, ns, rfl⟩ := List.exists_cons_of_ne_nil hns
  have hprod : (ns.foldl (· * ·) n).toInt =
      wrapped ((ns.map Int64.toInt).foldl (· * ·) n.toInt) := toInt_foldl Int64.ofInt_mul n ns
  rw [List.map_cons, List.prod_eq_foldl, List.foldl_cons, one_mul, ← hprod]
  exact makes_of_answer (total_of_areIntegers hargs)

theorem subtract_makes (hargs : AreIntegers w.heap args ns) (hns : ns ≠ []) :
    Operation.subtract.Makes args w
      (wrapped ((operands 0 ns).1.toInt - ((operands 0 ns).2.map Int64.toInt).sum)) := by
  have hdifference : ((operands 0 ns).2.foldl (· - ·) (operands 0 ns).1).toInt =
      wrapped (((operands 0 ns).2.map Int64.toInt).foldl (· - ·) (operands 0 ns).1.toInt) :=
    toInt_foldl Int64.ofInt_sub _ _
  rw [← foldl_sub, ← hdifference]
  refine makes_of_answer ((difference_of_areIntegers hargs hns).trans ?_)
  exact congrArg Except.ok (combine_of_ok List.foldlM_pure)

/-- Division from the left, unless there is a divisor that is zero. -/
def Divides (w : World) (args : List Value) (dividend : Int64) (divisors : List Int64) : Prop :=
  (Operation.divide.Raises args w (Text.of "division by zero") ↔ 0 ∈ divisors) ∧
  (0 ∉ divisors →
    Operation.divide.Makes args w ((divisors.map Int64.toInt).foldl truncated dividend.toInt))

theorem divide_divides (hargs : AreIntegers w.heap args ns) (hns : ns ≠ []) :
    Divides w args (operands 1 ns).1 (operands 1 ns).2 := by
  have hanswer : Operation.divide.answer w.host w.heap args = _ :=
    difference_of_areIntegers hargs hns
  have hmakes : 0 ∉ (operands 1 ns).2 → Operation.divide.Makes args w
      (((operands 1 ns).2.map Int64.toInt).foldl truncated (operands 1 ns).1.toInt) := by
    intro hzero
    obtain ⟨q, hq, htoInt⟩ := foldlM_quotient hzero (operands 1 ns).1
    rw [← htoInt]
    exact makes_of_answer (hanswer.trans (congrArg Except.ok (combine_of_ok hq)))
  refine ⟨⟨fun hraises => ?_, fun hzero => ?_⟩, hmakes⟩
  · by_contra hzero
    exact not_raises_of_makes (hmakes hzero) hraises
  · exact raises_of_answer (hanswer.trans (congrArg Except.ok (combine_of_zero hzero _)))

theorem modulo_makes (hx : w.heap.content x = .int a) (hy : w.heap.content y = .int b)
    (hb : b ≠ 0) : Operation.modulo.Makes [x, y] w (a.toInt.fmod b.toInt) := by
  obtain ⟨r, hr, htoInt⟩ := modulus_eq (a := a) hb
  rw [← htoInt]
  refine makes_of_answer ?_
  change modulo Operation.modulo.name w.heap x y = _
  rw [modulo, hx, hy]
  dsimp only
  rw [hr, settle]

theorem modulo_raises (hx : w.heap.content x = .int a) (hy : w.heap.content y = .int 0) :
    Operation.modulo.Raises [x, y] w (Text.of "division by zero") := by
  refine raises_of_answer ?_
  change modulo Operation.modulo.name w.heap x y = _
  rewrite [modulo, hx, hy]
  rfl

/-- The first value that is no integer is refused. -/
theorem modulo_eq_refuse (hxy : h.kind x ≠ .integer ∨ h.kind y ≠ .integer) :
    ∃ v ∈ [x, y], h.kind v ≠ .integer ∧
      modulo name h x y = Answer.refuse name h "integers" v := by
  unfold modulo Heap.kind at *
  cases hx : h.content x with
  | int m =>
    refine ⟨y, by simp, ?_, ?_⟩ <;> cases hy : h.content y <;> simp_all [Content.kind]
  | _ => exact ⟨x, by simp, by simp [hx, Content.kind], rfl⟩

theorem modulo_refuses (hxy : w.heap.kind x ≠ .integer ∨ w.heap.kind y ≠ .integer) :
    ∃ v ∈ [x, y], w.heap.kind v ≠ .integer ∧ Operation.modulo.call [x, y] w =
      .error (.fault (.operand Operation.modulo.name (Text.of "integers") (w.heap.kind v))) w := by
  obtain ⟨v, hv, hkind, hanswer⟩ := modulo_eq_refuse hxy
  exact ⟨v, hv, hkind, fails_of_answer hanswer⟩

theorem isNone_ofValue? :
    (Numeral.ofValue? h v).isNone ↔ h.kind v ≠ .integer ∧ h.kind v ≠ .float := by
  unfold Numeral.ofValue? Heap.kind
  cases h.content v <;> simp [Content.kind]

/-- The first value that is no number is refused, before anything is computed. -/
theorem refuses_numbers (hop : op ∈ [.add, .subtract, .multiply, .divide])
    (hargs : ∃ v ∈ args, w.heap.kind v ≠ .integer ∧ w.heap.kind v ≠ .float) :
    ∃ v ∈ args, (w.heap.kind v ≠ .integer ∧ w.heap.kind v ≠ .float) ∧ op.call args w =
      .error (.fault (.operand op.name (Text.of "numbers") (w.heap.kind v))) w := by
  obtain ⟨x, hx, hkind⟩ := hargs
  have hsome : (args.find? fun v => (Numeral.ofValue? w.heap v).isNone).isSome :=
    List.find?_isSome.mpr ⟨x, hx, isNone_ofValue?.mpr hkind⟩
  obtain ⟨v, hv⟩ := Option.isSome_iff_exists.mp hsome
  have hnumerals : numerals op.name w.heap args =
      .error (.operand op.name (Text.of "numbers") (w.heap.kind v)) := numerals_of_find? hv
  have hnone := List.find?_some hv
  refine ⟨v, List.mem_of_find?_eq_some hv, isNone_ofValue?.mp hnone, fails_of_answer ?_⟩
  simp only [List.mem_cons, List.not_mem_nil, or_false] at hop
  rcases hop with rfl | rfl | rfl | rfl <;>
    simp only [Operation.answer, total_eq, difference_eq, hnumerals] <;> rfl

end Calls

/-- Arithmetic on integers is that of the whole numbers, reduced once; a quotient is taken from the
left and fails exactly when a divisor is zero, and a remainder has the sign of the divisor. -/
theorem integer_arithmetic_is_exact (w : World) :
    (∀ args ns, AreIntegers w.heap args ns → ns ≠ [] →
      Operation.add.Makes args w (wrapped (ns.map Int64.toInt).sum) ∧
      Operation.multiply.Makes args w (wrapped (ns.map Int64.toInt).prod) ∧
      ∀ others, others.Perm args →
        Operation.add.call others w = Operation.add.call args w ∧
        Operation.multiply.call others w = Operation.multiply.call args w) ∧
    (∀ x n, w.heap.content x = .int n →
      Operation.subtract.Makes [x] w (wrapped (-n.toInt)) ∧ Divides w [x] 1 [n]) ∧
    (∀ x n more ns, w.heap.content x = .int n → AreIntegers w.heap more ns → ns ≠ [] →
      Operation.subtract.Makes (x :: more) w (wrapped (n.toInt - (ns.map Int64.toInt).sum)) ∧
      (∀ others, others.Perm more →
        Operation.subtract.call (x :: others) w = Operation.subtract.call (x :: more) w) ∧
      Divides w (x :: more) n ns) ∧
    (∀ x y a b, w.heap.content x = .int a → w.heap.content y = .int b →
      (Operation.modulo.Raises [x, y] w (Text.of "division by zero") ↔ b = 0) ∧
      (b ≠ 0 → ∃ r, Operation.modulo.Makes [x, y] w r ∧ r = a.toInt.fmod b.toInt ∧
        (r = 0 ∨ r.sign = b.toInt.sign) ∧ r.natAbs < b.toInt.natAbs ∧ b.toInt ∣ a.toInt - r ∧
        (a % b).toInt = a.toInt.tmod b.toInt ∧
        (¬ ((a % b).toInt < 0 ↔ b.toInt < 0) →
          (a % b + b).toInt = (a % b).toInt + b.toInt))) ∧
    (∀ op ∈ [Operation.add, .subtract, .multiply, .divide], ∀ args,
      (∃ v ∈ args, w.heap.kind v ≠ .integer ∧ w.heap.kind v ≠ .float) →
      ∃ v ∈ args, (w.heap.kind v ≠ .integer ∧ w.heap.kind v ≠ .float) ∧ op.call args w =
        .error (.fault (.operand op.name (Text.of "numbers") (w.heap.kind v))) w) ∧
    ∀ x y, w.heap.kind x ≠ .integer ∨ w.heap.kind y ≠ .integer →
      ∃ v ∈ [x, y], w.heap.kind v ≠ .integer ∧ Operation.modulo.call [x, y] w =
        .error (.fault (.operand (Text.of "mod") (Text.of "integers") (w.heap.kind v))) w := by
  refine ⟨fun args ns hargs hns => ?_, fun x n hx => ?_, fun x n more ns hx hmore hns => ?_,
    fun x y a b hx hy => ?_, fun op hop args => refuses_numbers hop, fun x y => modulo_refuses⟩
  · refine ⟨add_makes hargs hns, multiply_makes hargs hns, fun others hothers => ⟨?_, ?_⟩⟩
    · exact call_eq_of_perm [] add_makes
        (fun hperm => congrArg wrapped (hperm.map Int64.toInt).sum_eq) hargs hns hothers
    · exact call_eq_of_perm [] multiply_makes
        (fun hperm => congrArg wrapped (hperm.map Int64.toInt).prod_eq) hargs hns hothers
  · have hargs : AreIntegers w.heap [x] [n] := .cons hx .nil
    have hnegation := subtract_makes hargs (List.cons_ne_nil n [])
    have hzero : (operands 0 [n]).1.toInt - ((operands 0 [n]).2.map Int64.toInt).sum =
        -n.toInt := by simp [operands]
    rw [hzero] at hnegation
    exact ⟨hnegation, divide_divides hargs (List.cons_ne_nil n [])⟩
  · have hmakes : ∀ {args ns}, AreIntegers w.heap args ns → ns ≠ [] → Operation.subtract.Makes
        ([x] ++ args) w (wrapped (n.toInt - (ns.map Int64.toInt).sum)) := by
      intro args ns hargs hns
      have hdifference := subtract_makes (.cons hx hargs) (List.cons_ne_nil n ns)
      rwa [operands_cons 0 n hns] at hdifference
    refine ⟨hmakes hmore hns, fun others hothers => ?_, ?_⟩
    · refine call_eq_of_perm [x] hmakes (fun hperm => ?_) hmore hns hothers
      rw [(hperm.map Int64.toInt).sum_eq]
    · have hdivides := divide_divides (.cons hx hmore) (List.cons_ne_nil n ns)
      rwa [operands_cons 1 n hns] at hdivides
  · refine ⟨⟨fun hraises => ?_, fun hzero => ?_⟩, fun hb => ?_⟩
    · by_contra hb
      exact not_raises_of_makes (modulo_makes hx hy hb) hraises
    · subst hzero
      exact modulo_raises hx hy
    · obtain ⟨hsign, hsmall, hdvd⟩ := fmod_spec a.toInt (toInt_ne_zero.mpr hb)
      exact ⟨_, modulo_makes hx hy hb, rfl, hsign, hsmall, hdvd, Int64.toInt_mod a b,
        toInt_add_of_opposite⟩

/-- The least integer, minus one and zero. -/
def extremes : World :=
  { heap := { objects := #[⟨.int Int64.minValue, none⟩, ⟨.int (-1), none⟩, ⟨.int 0, none⟩] } }

/-- Twice the least integer and minus one add up to minus one, the least integer is its own negation
and its own quotient by minus one, and leaves no remainder then. Nil is refused behind a zero. -/
theorem integer_arithmetic_is_exact_extremes :
    Operation.add.Makes [.object 0, .object 0, .object 1] extremes (-1) ∧
    Operation.subtract.Makes [.object 0] extremes Int64.minValue.toInt ∧
    Operation.divide.Makes [.object 0, .object 1] extremes Int64.minValue.toInt ∧
    Operation.divide.Raises [.object 2] extremes (Text.of "division by zero") ∧
    Operation.modulo.Makes [.object 0, .object 1] extremes 0 ∧
    Operation.divide.call [.object 0, .object 2, .nil] extremes =
      .error (.fault (.operand (Text.of "/") (Text.of "numbers") .nil)) extremes := by
  obtain ⟨hsum, hone, hmore, hmod, hrefused, -⟩ := integer_arithmetic_is_exact extremes
  have hleast : extremes.heap.content (.object 0) = .int Int64.minValue := rfl
  have hminus : extremes.heap.content (.object 1) = .int (-1) := rfl
  have hzero : extremes.heap.content (.object 2) = .int 0 := rfl
  have hminuses : AreIntegers extremes.heap [.object 1] [-1] := .cons hminus .nil
  refine ⟨?_, ?_, ?_, ?_, ?_, ?_⟩
  · exact (hsum _ _ (.cons hleast (.cons hleast hminuses)) (by simp)).1
  · exact (hone _ _ hleast).1
  · exact (hmore _ _ _ _ hleast hminuses (by simp)).2.2.2 (by decide)
  · exact (hone _ _ hzero).2.1.mpr (by simp)
  · obtain ⟨r, hmakes, hr, -⟩ := (hmod _ _ _ _ hleast hminus).2 (by decide)
    have hnone : Int64.minValue.toInt.fmod (-1 : Int64).toInt = 0 := by decide
    rwa [hr, hnone] at hmakes
  · obtain ⟨v, hv, hkind, hcall⟩ :=
      hrefused .divide (by simp) [.object 0, .object 2, .nil] ⟨.nil, by simp, by decide⟩
    have hnumbers : extremes.heap.kind (.object 0) = .integer ∧
        extremes.heap.kind (.object 2) = .integer := ⟨rfl, rfl⟩
    simp only [List.mem_cons, List.not_mem_nil, or_false] at hv
    rcases hv with rfl | rfl | rfl
    · exact absurd hnumbers.1 hkind.1
    · exact absurd hnumbers.2 hkind.1
    · exact hcall

end Arithmetic

end Lisp
