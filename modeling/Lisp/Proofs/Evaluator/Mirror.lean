import Lisp.Evaluator.Eval
import Lisp.Proofs.Operation.Mirror

/-!
Evaluation does not depend on addresses. Within the same bounds, the same form in the same state,
but for addresses, is evaluated to the same value or failure in the same state, but for addresses.
Each function of the evaluator is mirrored if the evaluations and calls it makes are.
-/
namespace Lisp

namespace Renaming

variable (ρ : Renaming)

def turn : Turn → Turn
  | .done v => .done (ρ.value v)
  | .next form frame => .next (ρ.value form) (ρ.frame frame)

def callee : Callee → Callee
  | .native n => .native n
  | .closure c => .closure (ρ.closure c)
  | .nothing got => .nothing got

/-- A name and the value that goes with it. -/
def named (pair : Text × Value) : Text × Value := (pair.1, ρ.value pair.2)

end Renaming

theorem Heap.Mirrors.callee {ρ : Renaming} {h h' : Heap} (hh : h.Mirrors ρ h') (v : Value) :
    h'.callee (ρ.value v) = ρ.callee (h.callee v) := by
  have hv := hh.content v
  unfold Heap.callee
  generalize h.content v = x at hv ⊢
  generalize h'.content (ρ.value v) = y at hv ⊢
  cases hv with
  | native id => exact congrArg Callee.native (hh.native id)
  | closure id => exact congrArg Callee.closure (hh.closure id)
  | _ => rfl

namespace Evaluator

variable {ρ : Renaming} {base : Heap}

/-- Evaluations that do the same on both sides. -/
def IsMirrored (ρ : Renaming) (base : Heap) (eval : Evaluation) : Prop :=
  ∀ form frame, Mirrored ρ base ρ.value (eval form frame) (eval (ρ.value form) (ρ.frame frame))

/-- Calls that do the same on both sides. -/
def CallsMirrored (ρ : Renaming) (base : Heap) (apply : Application) : Prop :=
  ∀ f args, Mirrored ρ base ρ.value (apply f args) (apply (ρ.value f) (args.map ρ.value))

section Reading

variable {h h' : Heap} (hh : h.Mirrors ρ h')
include hh

theorem holeForms?_mirrors (special : Special) (v : Value) :
    holeForms? special h' (ρ.value v) = (holeForms? special h v).map (List.map ρ.value) := by
  have hv := hh.content v
  unfold holeForms?
  generalize h.content v = x at hv ⊢
  generalize h'.content (ρ.value v) = y at hv ⊢
  cases hv with
  | list cell =>
    dsimp only
    rw [hh.items]
    cases h.items cell with
    | nil => rfl
    | cons head rest =>
      simp only [List.map_cons, hh.isSymbol]
      cases h.isSymbol head special.name <;> rfl
  | _ => rfl

theorem alike_splicedItems (v : Value) :
    Alike (fun vs vs' => vs' = vs.map ρ.value) (splicedItems h v)
      (splicedItems h' (ρ.value v)) := by
  have hv := hh.content v
  unfold splicedItems
  generalize h.content v = x at hv ⊢
  generalize h'.content (ρ.value v) = y at hv ⊢
  cases hv with
  | list cell => exact .ok (hh.items cell)
  | vector cell => exact .ok (hh.items cell)
  | nil => exact .ok rfl
  | _ => exact .error _

theorem alike_catchClause (clause : Value) :
    Alike (fun pair pair' => pair' = ρ.named pair) (catchClause h clause)
      (catchClause h' (ρ.value clause)) := by
  have hclause := hh.content clause
  rw [catchClause_eq, catchClause_eq]
  generalize h.content clause = x at hclause ⊢
  generalize h'.content (ρ.value clause) = y at hclause ⊢
  cases hclause with
  | list cell =>
    dsimp only
    rw [hh.items]
    rcases h.items cell with _ | ⟨head, _ | ⟨target, _ | ⟨handler, _ | ⟨extra, more⟩⟩⟩⟩
    · exact .error _
    · exact .error _
    · exact .error _
    · simp only [List.map_cons, List.map_nil, hh.isSymbol]
      cases h.isSymbol head Special.catchStar.name with
      | false => exact .error _
      | true =>
        have htarget := hh.content target
        generalize h.content target = x at htarget ⊢
        generalize h'.content (ρ.value target) = y at htarget ⊢
        cases htarget with
        | symbol name => exact .ok rfl
        | _ => exact .error _
    · exact .error _
  | _ => exact .error _

theorem parameters_mirrors (params : List Value) :
    parameters h' (params.map ρ.value) = parameters h params := by
  induction params with
  | nil => rfl
  | cons param rest ih =>
    have hparam := hh.content param
    rw [List.map_cons, parameters_cons, parameters_cons]
    generalize h.content param = x at hparam ⊢
    generalize h'.content (ρ.value param) = y at hparam ⊢
    cases hparam with
    | symbol name =>
      dsimp only
      by_cases hname : name = Text.of "&"
      · simp only [if_pos hname]
        rcases rest with _ | ⟨tail, _ | ⟨extra, more⟩⟩
        · rfl
        · have htail := hh.content tail
          simp only [List.map_cons, List.map_nil]
          generalize h.content tail = x at htail ⊢
          generalize h'.content (ρ.value tail) = y at htail ⊢
          cases htail <;> rfl
        · simp
      · simp only [if_neg hname, ih]
    | _ => rfl

theorem alike_parameters (params : List Value) :
    Alike (fun names names' => names' = id names) (parameters h params)
      (parameters h' (params.map ρ.value)) := by
  rw [parameters_mirrors hh]
  cases parameters h params with
  | ok names => exact .ok rfl
  | error e => exact .error e

theorem specialOf?_mirrors (head : Value) :
    specialOf? h' (ρ.value head) = specialOf? h head := by
  rw [specialOf?, specialOf?, hh.symbol?]

end Reading

theorem macroCall?_mirrors {w w' : World} (hw : w.Mirrors ρ w') (frame : FrameId) (form : Value) :
    macroCall? w' (ρ.frame frame) (ρ.value form) =
      (macroCall? w frame form).map fun found => (ρ.closure found.1, found.2.map ρ.value) := by
  have hform := hw.heap.content form
  unfold macroCall?
  generalize w.heap.content form = x at hform ⊢
  generalize w'.heap.content (ρ.value form) = y at hform ⊢
  cases hform with
  | list cell =>
    dsimp only
    rw [hw.heap.items]
    cases w.heap.items cell with
    | nil => rfl
    | cons head rest =>
      simp only [List.map_cons, hw.heap.symbol?]
      cases w.heap.symbol? head with
      | none => rfl
      | some name =>
        simp only [Option.bind_eq_bind, Option.bind_some, hw.scopes.find?]
        cases w.scopes.find? frame name with
        | none => rfl
        | some v =>
          simp only [Option.map_some, Option.bind_some, hw.heap.callee]
          cases w.heap.callee v with
          | closure c =>
            have hmacro : (ρ.closure c).isMacro = c.isMacro := rfl
            simp only [Renaming.callee, hmacro]
            by_cases hc : c.isMacro = true
            · simp only [if_pos hc, Option.map_some]
            · simp only [if_neg hc, Option.map_none]
          | _ => rfl
  | _ => rfl

/-- A form that cannot be taken apart is refused on both sides. -/
theorem mirrored_settle {α : Type} {g : α → α} {q q' : Heap → Except Failure α}
    (hq : ∀ {h h' : Heap}, h.Mirrors ρ h' → Alike (fun a a' => a' = g a) (q h) (q' h'))
    (herror : ∀ h e, q h = .error e → ∃ form why, e = .malformed form why) :
    Mirrored ρ base g (Run.settle q) (Run.settle q') := by
  refine ⟨fun w => ?_, fun {w w'} hw _ => ?_⟩
  · unfold Run.heapAfter Run.settle
    rw [Run.look_bind]
    cases q w.heap <;> exact .refl w.heap
  · have halike := hq hw.heap
    unfold Run.settle
    rw [Run.look_bind, Run.look_bind]
    cases hresult : q w.heap with
    | ok a =>
      rw [hresult] at halike
      generalize q' w'.heap = r at halike ⊢
      cases halike with
      | ok ha =>
        subst ha
        exact .ok hw
    | error e =>
      obtain ⟨form, why, rfl⟩ := herror w.heap e hresult
      rw [hresult] at halike
      generalize q' w'.heap = r at halike ⊢
      cases halike
      exact .error hw

theorem mirrored_notFunction {α : Type} {g : α → α} (got : Kind) (v : Value) :
    Mirrored ρ base g
      (do
        let shown ← Run.print .readable v
        Run.fault (.notFunction got shown))
      (do
        let shown ← Run.print .readable (ρ.value v)
        Run.fault (.notFunction got shown)) := by
  rw [Run.print_eq, Run.print_eq]
  exact Mirrored.lookSame (fun hh hground => hh.render hground .readable v) fun _ =>
    mirrored_fault _

theorem mirrored_bodyOf (forms : List Value) :
    Mirrored ρ base ρ.value (bodyOf forms) (bodyOf (forms.map ρ.value)) := by
  rw [bodyOf_eq, bodyOf_eq]
  rcases forms with _ | ⟨form, _ | ⟨second, more⟩⟩
  · exact mirrored_pure Value.nil
  · exact mirrored_pure form
  · exact mirrored_makeList (.symbol Special.sequence.name :: form :: second :: more)

/-- A raised value is caught on both sides or on neither. -/
theorem mirrored_catching {attempt attempt' : Run Value}
    (hattempt : Mirrored ρ base ρ.value attempt attempt') (frame : FrameId) (name : Text)
    (handler : Value) :
    Mirrored ρ base ρ.turn (catching attempt frame name handler)
      (catching attempt' (ρ.frame frame) name (ρ.value handler)) := by
  have hcaught : ∀ v, Mirrored ρ base ρ.turn
      (do
        let inner ← Run.newFrame (some frame) (.ofPairs [(name, v)])
        return Turn.next handler inner)
      (do
        let inner ← Run.newFrame (some (ρ.frame frame)) (.ofPairs [(name, ρ.value v)])
        return Turn.next (ρ.value handler) inner) := by
    intro v
    refine (mirrored_newFrame (some frame) (Bindings.get?_ofPairs_map ρ [name] [v])).bind
      fun inner => ?_
    exact mirrored_pure (Turn.next handler inner)
  refine ⟨fun w => ?_, fun {w w'} hw hground => ?_⟩
  · have hgrows := hattempt.grows w
    unfold Run.heapAfter catching
    unfold Run.heapAfter at hgrows
    cases hresult : attempt w with
    | ok v u => rwa [hresult] at hgrows
    | error e u =>
      rw [hresult] at hgrows
      cases e with
      | thrown v => exact hgrows.trans ((hcaught v).grows u)
      | _ => exact hgrows
  · have hagree := hattempt.agree hw
    unfold Run.heapAfter catching at hground
    unfold catching
    unfold Run.heapAfter at hagree
    cases hresult : attempt w with
    | ok v u =>
      rw [hresult] at hagree hground
      specialize hagree hground
      generalize attempt' w' = r at hagree ⊢
      cases hagree with
      | ok hu => exact .ok (a := Turn.done v) hu
    | error e u =>
      rw [hresult] at hagree hground
      cases e with
      | thrown v =>
        specialize hagree (((hcaught v).grows u).isGrounded hground)
        generalize attempt' w' = r at hagree ⊢
        cases hagree with
        | error hu => exact (hcaught v).agree hu hground
      | _ =>
        specialize hagree hground
        generalize attempt' w' = r at hagree ⊢
        cases hagree with
        | error hu => exact .error hu

section Evaluating

variable {eval : Evaluation} (heval : IsMirrored ρ base eval) (frame : FrameId)
include heval

theorem mirrored_evalAll (forms : List Value) :
    Mirrored ρ base (List.map ρ.value) (evalAll eval frame forms)
      (evalAll eval (ρ.frame frame) (forms.map ρ.value)) := by
  induction forms with
  | nil => exact mirrored_pure []
  | cons form rest ih =>
    exact (heval form frame).bind fun v => ih.bind fun vs => mirrored_pure (v :: vs)

theorem mirrored_evalEntries (entries : List (Value × Value)) :
    Mirrored ρ base (List.map ρ.value) (evalEntries eval frame entries)
      (evalEntries eval (ρ.frame frame) (entries.map ρ.entry)) := by
  induction entries with
  | nil => exact mirrored_pure []
  | cons entry rest ih =>
    exact (heval entry.1 frame).bind fun key => (heval entry.2 frame).bind fun v =>
      ih.bind fun more => mirrored_pure (key :: v :: more)

omit frame in
theorem mirrored_expand (c : Closure) (forms : List Value) :
    Mirrored ρ base ρ.value (expand eval c forms)
      (expand eval (ρ.closure c) (forms.map ρ.value)) := by
  rw [expand_eq, expand_eq]
  exact (mirrored_bindClosure c forms).bind fun frame => (heval c.body frame).bind fun expansion =>
    (mirrored_note _ _).bind fun _ => mirrored_pure expansion

omit heval in
theorem expandAll_elim (steps : Nat) (form : Value) :
    expandAll eval frame (steps + 1) form = fun w =>
      ((macroCall? w frame form).elim (pure form) fun found =>
        expand eval found.1 found.2 >>= expandAll eval frame steps) w := by
  funext w
  rw [expandAll_succ, Run.get_bind]
  cases macroCall? w frame form <;> rfl

theorem mirrored_expandAll (steps : Nat) (form : Value) :
    Mirrored ρ base ρ.value (expandAll eval frame steps form)
      (expandAll eval (ρ.frame frame) steps (ρ.value form)) := by
  induction steps generalizing form with
  | zero => exact mirrored_exhausted
  | succ steps ih =>
    rw [expandAll_elim, expandAll_elim]
    have hcall : ∀ found : Option (Closure × List Value), ∃ found', found' =
        found.map fun found => (ρ.closure found.1, found.2.map ρ.value) := fun _ => ⟨_, rfl⟩
    refine Mirrored.read (macroCall? · frame form)
      (macroCall? · (ρ.frame frame) (ρ.value form))
      (fun found => found.elim (pure form) fun found =>
        expand eval found.1 found.2 >>= expandAll eval frame steps)
      (fun found => found.elim (pure (ρ.value form)) fun found =>
        expand eval found.1 found.2 >>= expandAll eval (ρ.frame frame) steps)
      hcall (fun hw _ => macroCall?_mirrors hw.toMirrors frame form) fun found _ hfound => ?_
    subst hfound
    cases found with
    | none => exact mirrored_pure form
    | some found => exact (mirrored_expand heval found.1 found.2).bind ih

theorem mirrored_fillItems {fill fill' : Value → Run Value}
    (hfill : ∀ item, Mirrored ρ base ρ.value (fill item) (fill' (ρ.value item)))
    (items : List Value) :
    Mirrored ρ base (List.map ρ.value) (fillItems eval fill frame items)
      (fillItems eval fill' (ρ.frame frame) (items.map ρ.value)) := by
  induction items with
  | nil => exact mirrored_pure []
  | cons item rest ih =>
    rw [List.map_cons, fillItems_cons, fillItems_cons]
    refine Mirrored.look (fun hh _ => holeForms?_mirrors hh .splice item) fun hole => ?_
    rcases hole with _ | _ | ⟨form, _ | ⟨extra, more⟩⟩
    · exact (hfill item).bind fun v => ih.bind fun more => mirrored_pure (v :: more)
    · exact mirrored_malformed _ _
    · refine (heval form frame).bind fun v => ?_
      refine (mirrored_require fun hh => alike_splicedItems hh v).bind fun spliced => ?_
      refine ih.bind fun more => ?_
      rw [← List.map_append]
      exact mirrored_pure (spliced ++ more)
    · exact mirrored_malformed _ _

omit heval in
omit frame in
theorem mirrored_fillEntries {fill fill' : Value → Run Value}
    (hfill : ∀ item, Mirrored ρ base ρ.value (fill item) (fill' (ρ.value item)))
    (entries : List (Value × Value)) :
    Mirrored ρ base (List.map ρ.value) (fillEntries fill entries)
      (fillEntries fill' (entries.map ρ.entry)) := by
  induction entries with
  | nil => exact mirrored_pure []
  | cons entry rest ih =>
    exact (hfill entry.2).bind fun v => ih.bind fun more => mirrored_pure (entry.1 :: v :: more)

theorem mirrored_fill (steps : Nat) (template : Value) :
    Mirrored ρ base ρ.value (fill eval frame steps template)
      (fill eval (ρ.frame frame) steps (ρ.value template)) := by
  induction steps generalizing template with
  | zero => exact mirrored_exhausted
  | succ steps ih =>
    rw [fill_succ, fill_succ]
    refine Mirrored.look (fun hh _ => holeForms?_mirrors hh .unquote template) fun hole => ?_
    rcases hole with _ | _ | ⟨form, _ | ⟨extra, more⟩⟩
    · refine Mirrored.lookContent template fun content _ hcontent => ?_
      cases hcontent with
      | list cell =>
        refine Mirrored.look (fun hh _ => hh.items cell) fun items => ?_
        exact (mirrored_fillItems heval frame ih items).bind mirrored_makeList
      | vector cell =>
        refine Mirrored.look (fun hh _ => hh.items cell) fun items => ?_
        exact (mirrored_fillItems heval frame ih items).bind mirrored_makeVector
      | map hn =>
        dsimp only
        rw [hn]
        exact (mirrored_fillEntries ih _).bind mirrored_makeMap
      | _ => exact mirrored_pure template
    · exact mirrored_malformed _ _
    · exact heval form frame
    · exact mirrored_malformed _ _

theorem mirrored_bindAll (bindings : List Value) :
    Mirrored ρ base id (bindAll eval frame bindings)
      (bindAll eval (ρ.frame frame) (bindings.map ρ.value)) := by
  induction bindings using List.twoStepInduction with
  | nil => exact mirrored_pure ()
  | singleton target =>
    refine Mirrored.lookContent target fun content _ hcontent => ?_
    cases hcontent with
    | symbol name => exact mirrored_throw (.crash (.index 1 1))
    | _ => exact mirrored_malformed _ _
  | cons_cons target form rest ih _ =>
    refine Mirrored.lookContent target fun content _ hcontent => ?_
    cases hcontent with
    | symbol name =>
      exact (heval form frame).bind fun v => (mirrored_define frame name v).bind fun _ => ih
    | _ => exact mirrored_malformed _ _

theorem mirrored_letStar (forms : List Value) :
    Mirrored ρ base ρ.turn (letStar eval frame forms)
      (letStar eval (ρ.frame frame) (forms.map ρ.value)) := by
  rw [letStar_eq, letStar_eq]
  cases forms with
  | nil => exact mirrored_malformed _ _
  | cons bindings body =>
    refine Mirrored.look (fun hh _ => hh.elements? bindings) fun found => ?_
    cases found with
    | none => exact mirrored_malformed _ _
    | some bindings =>
      simp only [Option.map_some, List.length_map]
      by_cases hodd : bindings.length % 2 ≠ 0
      · simp only [if_pos hodd]
        exact mirrored_malformed _ _
      · simp only [if_neg hodd]
        refine (mirrored_newFrame (some frame) fun _ => by simp).bind fun inner => ?_
        refine (mirrored_bindAll heval inner bindings).bind fun _ => ?_
        exact (mirrored_bodyOf body).bind fun form => mirrored_pure (Turn.next form inner)

theorem mirrored_sequence (forms : List Value) :
    Mirrored ρ base ρ.turn (sequence eval frame forms)
      (sequence eval (ρ.frame frame) (forms.map ρ.value)) := by
  rw [sequence_eq, sequence_eq, List.getLast?_map, ← List.map_dropLast]
  cases forms.getLast? with
  | none => exact mirrored_pure (Turn.done .nil)
  | some last =>
    exact (mirrored_evalAll heval frame _).bind fun _ => mirrored_pure (Turn.next last frame)

theorem mirrored_conditional (forms : List Value) :
    Mirrored ρ base ρ.turn (conditional eval frame forms)
      (conditional eval (ρ.frame frame) (forms.map ρ.value)) := by
  rw [conditional_eq, conditional_eq]
  rcases forms with _ | ⟨condition, _ | ⟨yes, _ | ⟨no, _ | ⟨extra, more⟩⟩⟩⟩
  · exact mirrored_malformed _ _
  · exact mirrored_malformed _ _
  · refine (heval condition frame).bind fun v => ?_
    refine Mirrored.lookSame (fun hh _ => hh.isTruthy v) fun truthy => ?_
    cases truthy with
    | true => exact mirrored_pure (Turn.next yes frame)
    | false => exact mirrored_pure (Turn.done .nil)
  · refine (heval condition frame).bind fun v => ?_
    refine Mirrored.lookSame (fun hh _ => hh.isTruthy v) fun truthy => ?_
    cases truthy with
    | true => exact mirrored_pure (Turn.next yes frame)
    | false => exact mirrored_pure (Turn.next no frame)
  · exact mirrored_malformed _ _

theorem mirrored_tryStar (forms : List Value) :
    Mirrored ρ base ρ.turn (tryStar eval frame forms)
      (tryStar eval (ρ.frame frame) (forms.map ρ.value)) := by
  rw [tryStar_eq, tryStar_eq]
  rcases forms with _ | ⟨body, _ | ⟨clause, _ | ⟨extra, more⟩⟩⟩
  · exact mirrored_malformed _ _
  · exact (heval body frame).bind fun v => mirrored_pure (Turn.done v)
  · refine (mirrored_settle (fun hh => alike_catchClause hh clause) fun _ _ =>
      malformed_of_catchClause).bind fun pair => ?_
    exact mirrored_catching (heval body frame) frame pair.1 pair.2
  · exact mirrored_malformed _ _

theorem mirrored_definition (form : Special) (forms : List Value) :
    Mirrored ρ base ρ.named (definition eval frame form forms)
      (definition eval (ρ.frame frame) form (forms.map ρ.value)) := by
  rw [definition_eq, definition_eq]
  rcases forms with _ | ⟨target, _ | ⟨value, _ | ⟨extra, more⟩⟩⟩
  · exact mirrored_malformed _ _
  · exact mirrored_malformed _ _
  · refine Mirrored.lookContent target fun content _ hcontent => ?_
    cases hcontent with
    | symbol name => exact (heval value frame).bind fun v => mirrored_pure (name, v)
    | _ => exact mirrored_malformed _ _
  · exact mirrored_malformed _ _

theorem mirrored_defineForm (forms : List Value) :
    Mirrored ρ base ρ.value (define eval frame forms)
      (define eval (ρ.frame frame) (forms.map ρ.value)) :=
  (mirrored_definition heval frame .define forms).bind fun pair =>
    (mirrored_define frame pair.1 pair.2).bind fun _ => mirrored_pure pair.2

theorem mirrored_assignForm (forms : List Value) :
    Mirrored ρ base ρ.value (assign eval frame forms)
      (assign eval (ρ.frame frame) (forms.map ρ.value)) :=
  (mirrored_definition heval frame .assign forms).bind fun pair =>
    (mirrored_assign frame pair.1 pair.2).bind fun _ => mirrored_pure pair.2

omit heval in
omit frame in
theorem mirrored_makeClosure (c : Closure) (metadata : Option Value) :
    Mirrored ρ base ρ.value (Run.onHeap (·.makeClosure c metadata))
      (Run.onHeap (·.makeClosure (ρ.closure c) (metadata.map ρ.value))) :=
  mirrored_onHeap (fun h => h.precedes_makeClosure c metadata) fun hh _ =>
    hh.makeClosure c metadata

theorem mirrored_defineMacro (forms : List Value) :
    Mirrored ρ base ρ.value (defineMacro eval frame forms)
      (defineMacro eval (ρ.frame frame) (forms.map ρ.value)) := by
  refine (mirrored_definition heval frame .defineMacro forms).bind fun pair => ?_
  have hrefused : Mirrored ρ base ρ.value
      (do Run.fault (.notClosure (← Run.look (·.kind pair.2))))
      (do Run.fault (.notClosure (← Run.look (·.kind (ρ.value pair.2))))) :=
    Mirrored.lookSame (fun hh _ => hh.kind pair.2) fun got => mirrored_fault _
  refine Mirrored.look (fun hh _ => hh.callee pair.2) fun callee => ?_
  cases callee with
  | closure c =>
    refine Mirrored.look (fun hh _ => hh.metadata pair.2) fun metadata => ?_
    refine (mirrored_makeClosure { c with isMacro := true } metadata).bind fun v => ?_
    exact (mirrored_define frame pair.1 v).bind fun _ => mirrored_pure v
  | _ => exact hrefused

omit heval in
theorem mirrored_function (forms : List Value) :
    Mirrored ρ base ρ.value (function frame forms)
      (function (ρ.frame frame) (forms.map ρ.value)) := by
  rw [function_eq, function_eq]
  cases forms with
  | nil => exact mirrored_malformed _ _
  | cons params body =>
    refine Mirrored.look (fun hh _ => hh.elements? params) fun found => ?_
    cases found with
    | none => exact mirrored_malformed _ _
    | some params =>
      refine (mirrored_settle (fun hh => alike_parameters hh params) fun _ _ =>
        malformed_of_parameters).bind fun names => ?_
      refine (mirrored_bodyOf body).bind fun form => ?_
      exact mirrored_makeClosure ⟨frame, names.1, names.2, form, false⟩ none

omit heval in
omit frame in
theorem mirrored_single (special : Special) (forms : List Value) {go go' : Value → Run Value}
    (hgo : ∀ form, Mirrored ρ base ρ.value (go form) (go' (ρ.value form))) :
    Mirrored ρ base ρ.value (single special forms go) (single special (forms.map ρ.value) go') := by
  rw [single_eq, single_eq]
  rcases forms with _ | ⟨form, _ | ⟨extra, more⟩⟩
  · exact mirrored_malformed _ _
  · exact hgo form
  · exact mirrored_malformed _ _

theorem mirrored_special (steps : Nat) (special : Special) (forms : List Value) :
    Mirrored ρ base ρ.turn (Evaluator.special eval steps frame special forms)
      (Evaluator.special eval steps (ρ.frame frame) special (forms.map ρ.value)) := by
  have hdone : ∀ {m m' : Run Value}, Mirrored ρ base ρ.value m m' →
      Mirrored ρ base ρ.turn (Turn.done <$> m) (Turn.done <$> m') := fun hm => hm.map fun _ => rfl
  cases special with
  | letStar => exact mirrored_letStar heval frame forms
  | sequence => exact mirrored_sequence heval frame forms
  | conditional => exact mirrored_conditional heval frame forms
  | tryStar => exact mirrored_tryStar heval frame forms
  | quasiquote => exact hdone (mirrored_single _ forms (mirrored_fill heval frame steps))
  | define => exact hdone (mirrored_defineForm heval frame forms)
  | defineMacro => exact hdone (mirrored_defineMacro heval frame forms)
  | assign => exact hdone (mirrored_assignForm heval frame forms)
  | function => exact hdone (mirrored_function frame forms)
  | quote => exact hdone (mirrored_single _ forms mirrored_pure)
  | macroexpand => exact hdone (mirrored_single _ forms (mirrored_expandAll heval frame steps))
  | unquote => exact mirrored_malformed _ _
  | splice => exact mirrored_malformed _ _
  | catchStar => exact mirrored_malformed _ _

section Applying

variable {apply : Application} (happly : CallsMirrored ρ base apply)
include happly

omit heval in
omit frame in
theorem mirrored_mapItems (f : Value) (items : List Value) :
    Mirrored ρ base (List.map ρ.value) (mapItems apply f items)
      (mapItems apply (ρ.value f) (items.map ρ.value)) := by
  induction items with
  | nil => exact mirrored_pure []
  | cons item rest ih =>
    exact (happly f [item]).bind fun v => ih.bind fun vs => mirrored_pure (v :: vs)

omit heval in
omit frame in
/-- The function left another value in the atom on both sides or on neither. -/
theorem mirrored_swap (atom : AtomId) (f : Value) (extra : List Value) (steps : Nat) :
    Mirrored ρ base ρ.value (swap apply atom f extra steps)
      (swap apply atom (ρ.value f) (extra.map ρ.value) steps) := by
  induction steps with
  | zero => exact mirrored_exhausted
  | succ steps ih =>
    refine Mirrored.look (fun hh _ => hh.deref atom) fun old => ?_
    refine (happly f (old :: extra)).bind fun new => ?_
    refine Mirrored.look (fun hh _ => hh.deref atom) fun now => ?_
    simp only [ρ.value_inj]
    by_cases hsame : now = old
    · simp only [if_pos hsame]
      exact mirrored_reset atom new
    · simp only [if_neg hsame]
      exact ih

omit frame in
theorem mirrored_invoke (steps : Nat) (n : Native) (args : List Value) :
    Mirrored ρ base ρ.value (invoke eval apply steps n args)
      (invoke eval apply steps n (args.map ρ.value)) := by
  have harguments : ∀ want, Mirrored ρ base ρ.value
      (Run.fault (.arguments n.name want args.length))
      (Run.fault (.arguments n.name want (args.map ρ.value).length)) := by
    intro want
    rw [List.length_map]
    exact mirrored_fault _
  rw [invoke_eq, invoke_eq]
  cases n with
  | operation op => exact op.mirrored_call args
  | apply =>
    rcases args with _ | ⟨f, _ | ⟨x, more⟩⟩
    · exact mirrored_fault _
    · exact mirrored_fault _
    · have hlast : ((x :: more).map ρ.value).getLastD .nil =
          ρ.value ((x :: more).getLastD .nil) := by
        rw [List.getLastD_eq_getLast?, List.getLastD_eq_getLast?, List.getLast?_map]
        cases (x :: more).getLast? <;> rfl
      simp only [List.map_cons]
      rw [← List.map_cons, hlast, ← List.map_dropLast]
      refine (mirrored_require fun hh => Collection.alike_elements hh _).bind fun items => ?_
      rw [← List.map_append]
      exact happly f _
  | map =>
    rcases args with _ | ⟨f, _ | ⟨coll, _ | ⟨extra, more⟩⟩⟩
    · exact harguments 2
    · exact harguments 2
    · refine (mirrored_require fun hh => Collection.alike_elements hh coll).bind fun items => ?_
      exact (mirrored_mapItems happly f items).bind mirrored_makeList
    · exact harguments 2
  | swap =>
    rcases args with _ | ⟨target, _ | ⟨f, extra⟩⟩
    · exact mirrored_fault _
    · exact mirrored_fault _
    · refine Mirrored.lookContent target fun content _ hcontent => ?_
      cases hcontent with
      | atom atom => exact mirrored_swap happly atom f extra steps
      | _ => exact mirrored_fault _
  | eval =>
    rcases args with _ | ⟨form, _ | ⟨extra, more⟩⟩
    · exact harguments 1
    · have hform := heval form World.root
      rwa [show ρ.frame World.root = World.root from ρ.frame_zero] at hform
    · exact harguments 1
  | inert name => exact mirrored_pure Value.nil

omit frame in
theorem mirrored_applyOnce (steps : Nat) (f : Value) (args : List Value) :
    Mirrored ρ base ρ.value (applyOnce eval apply steps f args)
      (applyOnce eval apply steps (ρ.value f) (args.map ρ.value)) := by
  refine Mirrored.look (fun hh _ => hh.callee f) fun callee => ?_
  cases callee with
  | native n => exact mirrored_invoke heval happly steps n args
  | closure c => exact (mirrored_bindClosure c args).bind fun inner => heval c.body inner
  | nothing got => exact mirrored_notFunction got f

theorem mirrored_callForm (steps : Nat) (head : Value) (forms : List Value) :
    Mirrored ρ base ρ.turn (call eval apply steps frame head forms)
      (call eval apply steps (ρ.frame frame) (ρ.value head) (forms.map ρ.value)) := by
  refine (heval head frame).bind fun f => ?_
  refine Mirrored.look (fun hh _ => hh.callee f) fun callee => ?_
  cases callee with
  | native n =>
    refine (mirrored_evalAll heval frame forms).bind fun args => ?_
    exact (mirrored_invoke heval happly steps n args).bind fun v => mirrored_pure (Turn.done v)
  | closure c =>
    simp only [Renaming.callee, show (ρ.closure c).isMacro = c.isMacro from rfl]
    by_cases hmacro : c.isMacro = true
    · simp only [if_pos hmacro]
      exact (mirrored_expand heval c forms).bind fun expansion =>
        mirrored_pure (Turn.next expansion frame)
    · simp only [if_neg hmacro]
      refine (mirrored_evalAll heval frame forms).bind fun args => ?_
      exact (mirrored_bindClosure c args).bind fun inner => mirrored_pure (Turn.next c.body inner)
  | nothing got => exact mirrored_notFunction got head

theorem mirrored_turn (steps : Nat) (form : Value) :
    Mirrored ρ base ρ.turn (turn eval apply steps form frame)
      (turn eval apply steps (ρ.value form) (ρ.frame frame)) := by
  rw [turn_eq, turn_eq]
  refine Mirrored.lookContent form fun content _ hcontent => ?_
  cases hcontent with
  | symbol name => exact (mirrored_lookup frame name).bind fun v => mirrored_pure (Turn.done v)
  | vector cell =>
    refine Mirrored.look (fun hh _ => hh.items cell) fun items => ?_
    refine (mirrored_evalAll heval frame items).bind fun vs => ?_
    exact (mirrored_makeVector vs).bind fun v => mirrored_pure (Turn.done v)
  | map hn =>
    dsimp only
    rw [hn]
    refine (mirrored_evalEntries heval frame _).bind fun alternating => ?_
    exact (mirrored_makeMap alternating).bind fun v => mirrored_pure (Turn.done v)
  | list cell =>
    refine Mirrored.look (fun hh _ => hh.items cell) fun items => ?_
    cases items with
    | nil => exact mirrored_pure (Turn.done form)
    | cons head forms =>
      refine Mirrored.lookSame (fun hh _ => specialOf?_mirrors hh head) fun name => ?_
      cases name with
      | some name => exact mirrored_special heval frame steps name forms
      | none => exact mirrored_callForm heval frame happly steps head forms
  | _ => exact mirrored_pure (Turn.done form)

end Applying

end Evaluating

theorem callsMirrored_apply {eval : Evaluation} (heval : IsMirrored ρ base eval) (steps : Nat) :
    CallsMirrored ρ base (apply eval steps) := by
  induction steps with
  | zero => exact fun _ _ => mirrored_exhausted
  | succ steps ih => exact fun f args => mirrored_applyOnce heval ih steps f args

theorem mirrored_loop {turn : Value → FrameId → Run Turn}
    (hturn : ∀ form frame, Mirrored ρ base ρ.turn (turn form frame)
      (turn (ρ.value form) (ρ.frame frame))) (steps : Nat) :
    IsMirrored ρ base (loop turn steps) := by
  induction steps with
  | zero => exact fun _ _ => mirrored_exhausted
  | succ steps ih =>
    intro form frame
    refine (hturn form frame).bind fun ending => ?_
    cases ending with
    | done v => exact mirrored_pure v
    | next form frame => exact ih form frame

/-- Evaluation within given bounds does the same on both sides. -/
theorem isMirrored_eval (limit depth : Nat) : IsMirrored ρ base (eval limit depth) := by
  induction depth with
  | zero => exact fun _ _ => mirrored_exhausted
  | succ depth ih =>
    have happly := callsMirrored_apply ih limit
    exact mirrored_loop (fun form frame => mirrored_turn ih frame happly limit form) limit

end Evaluator

end Lisp
