import Lisp.Proofs.Evaluator.Conduct
import Lisp.Proofs.World.Confinement

/-!
Evaluation stays in sight. Where nothing in sight leads behind a veil, the evaluation of a form in
sight and the call of a function in sight do not reach behind it, so that they cannot tell what is
there and leave it as it was. Each function of the evaluator has its own lemma.
-/
namespace Lisp.Evaluator

variable {veil : Veil}

/-- All evaluations of forms in sight stay in sight. -/
def Confines (veil : Veil) (eval : Evaluation) : Prop :=
  ∀ form frame, veil.Sees form → Confined veil veil.Sees (eval form frame)

/-- All calls in sight stay in sight. -/
def ConfinesCalls (veil : Veil) (apply : Application) : Prop :=
  ∀ f args, veil.Sees f → veil.SeesAll args → Confined veil veil.Sees (apply f args)

/-- What a turn ends with is in sight. -/
def SeesTurn (veil : Veil) : Turn → Prop
  | .done v => veil.Sees v
  | .next form _ => veil.Sees form

/-- What is called leads to nothing behind the veil. -/
def SeesCallee (veil : Veil) : Callee → Prop
  | .closure c => veil.Sees c.body
  | _ => True

/-- What a content holds is in sight, and so are the elements in its cell. -/
structure SeesContent (veil : Veil) (c : Content) : Prop where
  enclosed : ∀ x ∈ c.enclosed, veil.Sees x
  cell : ∀ cell, c.cell? = some cell → ¬ veil.cell cell

section Looking

variable {α : Type}

theorem confined_peek (f : Heap → α) : Confined veil (fun _ => True) (Run.look f) :=
  confined_look fun _ _ => trivial

theorem confined_content {v : Value} (hv : veil.Sees v) :
    Confined veil (SeesContent veil) (Run.look (·.content v)) :=
  confined_look fun _ hh => ⟨hh.enclosed v hv, fun cell => hh.cell v cell hv⟩

theorem confined_items {cell : CellId} (hcell : ¬ veil.cell cell) :
    Confined veil veil.SeesAll (Run.look (·.items cell)) :=
  confined_look fun _ hh => hh.items cell hcell

theorem seesCallee_callee {h : Heap} (hh : h.Hides veil) (f : Value) :
    SeesCallee veil (h.callee f) := by
  unfold Heap.callee
  split
  · trivial
  · exact hh.body _
  · trivial

theorem confined_callee (f : Value) :
    Confined veil (SeesCallee veil) (Run.look (·.callee f)) :=
  confined_look fun _ hh => seesCallee_callee hh f

theorem confined_elements? {v : Value} (hv : veil.Sees v) :
    Confined veil (fun found? => ∀ found, found? = some found → veil.SeesAll found)
      (Run.look (·.elements? v)) :=
  confined_look fun _ hh _ hfound => elements?_in hh.isClosed hv hfound

theorem confined_holeForms? (special : Special) {v : Value} (hv : veil.Sees v) :
    Confined veil (fun forms? => ∀ forms, forms? = some forms → veil.SeesAll forms)
      (Run.look (holeForms? special · v)) :=
  confined_look fun _ hh _ hforms => holeForms?_in hh.isClosed hv hforms

theorem SeesContent.entries {entries : Entries} (hc : SeesContent veil (.map entries)) :
    ∀ entry ∈ entries.toList, veil.Sees entry.1 ∧ veil.Sees entry.2 := fun entry hentry =>
  ⟨hc.enclosed _ (mem_alternate.mpr ⟨entry, hentry, .inl rfl⟩),
    hc.enclosed _ (mem_alternate.mpr ⟨entry, hentry, .inr rfl⟩)⟩

end Looking

section Lists

theorem seesAll_nil : veil.SeesAll [] := fun _ hv => by cases hv

theorem seesAll_cons {v : Value} {vs : List Value} :
    veil.SeesAll (v :: vs) ↔ veil.Sees v ∧ veil.SeesAll vs :=
  List.forall_mem_cons

theorem seesAll_append {us vs : List Value} :
    veil.SeesAll (us ++ vs) ↔ veil.SeesAll us ∧ veil.SeesAll vs :=
  List.forall_mem_append

theorem confined_bodyOf {forms : List Value} (hforms : veil.SeesAll forms) :
    Confined veil veil.Sees (bodyOf forms) := by
  rw [bodyOf_eq]
  match forms with
  | [] => exact confined_pure trivial
  | [form] => exact confined_pure (hforms form (by simp))
  | first :: second :: more => exact confined_makeList (seesAll_cons.mpr ⟨trivial, hforms⟩)

end Lists

section Evaluating

variable {eval : Evaluation} (heval : Confines veil eval) {frame : FrameId}
include heval

theorem confined_evalAll {forms : List Value} (hforms : veil.SeesAll forms) :
    Confined veil veil.SeesAll (evalAll eval frame forms) := by
  induction forms with
  | nil => exact confined_pure seesAll_nil
  | cons form rest ih =>
    obtain ⟨hform, hrest⟩ := seesAll_cons.mp hforms
    refine (heval form frame hform).bind fun v hv => ?_
    exact (ih hrest).bind fun vs hvs => confined_pure (seesAll_cons.mpr ⟨hv, hvs⟩)

theorem confined_evalEntries {entries : List (Value × Value)}
    (hentries : ∀ entry ∈ entries, veil.Sees entry.1 ∧ veil.Sees entry.2) :
    Confined veil veil.SeesAll (evalEntries eval frame entries) := by
  induction entries with
  | nil => exact confined_pure seesAll_nil
  | cons entry rest ih =>
    obtain ⟨hentry, hrest⟩ := List.forall_mem_cons.mp hentries
    refine (heval entry.1 frame hentry.1).bind fun k hk => ?_
    refine (heval entry.2 frame hentry.2).bind fun v hv => ?_
    refine (ih hrest).bind fun more hmore => ?_
    exact confined_pure (seesAll_cons.mpr ⟨hk, seesAll_cons.mpr ⟨hv, hmore⟩⟩)

theorem confined_expand {c : Closure} {forms : List Value} (hbody : veil.Sees c.body)
    (hforms : veil.SeesAll forms) : Confined veil veil.Sees (expand eval c forms) := by
  rw [expand_eq]
  refine (confined_bindClosure c hforms).bind fun frame _ => ?_
  refine (heval c.body frame hbody).bind fun v hv => ?_
  exact (confined_note _).bind fun _ _ => confined_pure hv

omit heval in
theorem confined_macroCall? (frame : FrameId) {form : Value} (hform : veil.Sees form) :
    Confined veil (fun w => ∀ found, macroCall? w frame form = some found →
      veil.Sees found.1.body ∧ veil.SeesAll found.2) (get : Run World) := by
  refine fun w hw => ⟨.refl hw, fun found hfound => ?_⟩
  obtain ⟨cell, head, name, f, hlist, hitems, _, _, hcallee, _⟩ := macroCall?_eq_some_iff.mp hfound
  have hinside := items_in hw.heap.isClosed hform hlist
  have hbody := seesCallee_callee hw.heap f
  rw [hitems] at hinside
  rw [hcallee] at hbody
  exact ⟨hbody, (seesAll_cons.mp hinside).2⟩

theorem confined_expandAll (steps : Nat) {form : Value} (hform : veil.Sees form) :
    Confined veil veil.Sees (expandAll eval frame steps form) := by
  induction steps generalizing form with
  | zero => exact confined_exhausted
  | succ steps ih =>
    rw [expandAll_succ]
    refine (confined_macroCall? frame hform).bind fun w hw => ?_
    cases hcall : macroCall? w frame form with
    | none => exact confined_pure hform
    | some found =>
      obtain ⟨hbody, hforms⟩ := hw found hcall
      exact (confined_expand heval hbody hforms).bind fun expansion hexpansion => ih hexpansion

section Templates

variable {fill : Value → Run Value}

theorem confined_fillItems (hfill : ∀ item, veil.Sees item → Confined veil veil.Sees (fill item))
    {items : List Value} (hitems : veil.SeesAll items) :
    Confined veil veil.SeesAll (fillItems eval fill frame items) := by
  induction items with
  | nil => exact confined_pure seesAll_nil
  | cons item rest ih =>
    obtain ⟨hitem, hrest⟩ := seesAll_cons.mp hitems
    rw [fillItems_cons]
    refine (confined_holeForms? .splice hitem).bind fun forms? hforms => ?_
    match forms? with
    | none =>
      refine (hfill item hitem).bind fun v hv => ?_
      exact (ih hrest).bind fun more hmore => confined_pure (seesAll_cons.mpr ⟨hv, hmore⟩)
    | some [form] =>
      refine (heval form frame (hforms _ rfl form (by simp))).bind fun v hv => ?_
      have hspliced : Confined veil veil.SeesAll (Run.require (splicedItems · v)) :=
        confined_require fun _ hh _ hitems => splicedItems_in hh.isClosed hv hitems
      refine hspliced.bind fun spliced hspliced => ?_
      exact (ih hrest).bind fun more hmore =>
        confined_pure (seesAll_append.mpr ⟨hspliced, hmore⟩)
    | some [] => exact confined_malformed _ _
    | some (_ :: _ :: _) => exact confined_malformed _ _

omit heval in
theorem confined_fillEntries (hfill : ∀ item, veil.Sees item → Confined veil veil.Sees (fill item))
    {entries : List (Value × Value)}
    (hentries : ∀ entry ∈ entries, veil.Sees entry.1 ∧ veil.Sees entry.2) :
    Confined veil veil.SeesAll (fillEntries fill entries) := by
  induction entries with
  | nil => exact confined_pure seesAll_nil
  | cons entry rest ih =>
    obtain ⟨hentry, hrest⟩ := List.forall_mem_cons.mp hentries
    refine (hfill entry.2 hentry.2).bind fun v hv => ?_
    refine (ih hrest).bind fun more hmore => ?_
    exact confined_pure (seesAll_cons.mpr ⟨hentry.1, seesAll_cons.mpr ⟨hv, hmore⟩⟩)

theorem confined_fill (steps : Nat) {template : Value} (htemplate : veil.Sees template) :
    Confined veil veil.Sees (Evaluator.fill eval frame steps template) := by
  induction steps generalizing template with
  | zero => exact confined_exhausted
  | succ steps ih =>
    rw [fill_succ]
    refine (confined_holeForms? .unquote htemplate).bind fun forms? hforms => ?_
    match forms? with
    | some [form] => exact heval form frame (hforms _ rfl form (by simp))
    | some [] => exact confined_malformed _ _
    | some (_ :: _ :: _) => exact confined_malformed _ _
    | none =>
      refine (confined_content htemplate).bind fun c hc => ?_
      cases c with
      | list cell =>
        refine (confined_items (hc.cell cell rfl)).bind fun items hitems => ?_
        exact (confined_fillItems heval (fun _ => ih) hitems).bind fun vs hvs =>
          confined_makeList hvs
      | vector cell =>
        refine (confined_items (hc.cell cell rfl)).bind fun items hitems => ?_
        exact (confined_fillItems heval (fun _ => ih) hitems).bind fun vs hvs =>
          confined_makeVector hvs
      | map entries =>
        exact (confined_fillEntries (fun _ => ih) hc.entries).bind fun vs hvs =>
          confined_makeMap hvs
      | _ => exact confined_pure htemplate

end Templates

section Specials

theorem confined_bindAll {bindings : List Value} (heven : bindings.length % 2 = 0)
    (hbindings : veil.SeesAll bindings) :
    Confined veil (fun _ => True) (bindAll eval frame bindings) := by
  match bindings with
  | [] => exact confined_pure trivial
  | [_] => cases heven
  | target :: form :: rest =>
    obtain ⟨_, hbindings⟩ := seesAll_cons.mp hbindings
    obtain ⟨hform, hrest⟩ := seesAll_cons.mp hbindings
    refine (confined_peek _).bind fun c _ => ?_
    cases c with
    | symbol name =>
      refine (heval form frame hform).bind fun v hv => ?_
      have heven : rest.length % 2 = 0 := by
        rw [List.length_cons, List.length_cons] at heven
        omega
      exact (confined_define frame name hv).bind fun _ _ => confined_bindAll heven hrest
    | _ => exact confined_malformed _ _

theorem confined_letStar {forms : List Value} (hforms : veil.SeesAll forms) :
    Confined veil (SeesTurn veil) (letStar eval frame forms) := by
  rw [letStar_eq]
  match forms with
  | [] => exact confined_malformed _ _
  | bindings :: body =>
    obtain ⟨hbindings, hbody⟩ := seesAll_cons.mp hforms
    refine (confined_elements? hbindings).bind fun found? hfound => ?_
    cases found? with
    | none => exact confined_malformed _ _
    | some found =>
      dsimp only
      split
      · exact confined_malformed _ _
      · rename_i heven
        have hempty : ∀ name v, ({} : Bindings).get? name = some v → veil.Sees v := by simp
        refine (confined_newFrame _ hempty).bind fun inner _ => ?_
        refine (confined_bindAll heval (not_not.mp heven) (hfound found rfl)).bind fun _ _ => ?_
        exact (confined_bodyOf hbody).bind fun form hform => confined_pure hform

theorem confined_sequence {forms : List Value} (hforms : veil.SeesAll forms) :
    Confined veil (SeesTurn veil) (sequence eval frame forms) := by
  rw [sequence_eq]
  cases hlast : forms.getLast? with
  | none => exact confined_pure trivial
  | some last =>
    have hearlier : veil.SeesAll forms.dropLast :=
      fun v hv => hforms v (List.mem_of_mem_dropLast hv)
    refine (confined_evalAll heval hearlier).bind fun _ _ => ?_
    exact confined_pure (hforms last (List.mem_of_getLast? hlast))

theorem confined_conditional {forms : List Value} (hforms : veil.SeesAll forms) :
    Confined veil (SeesTurn veil) (conditional eval frame forms) := by
  rw [conditional_eq]
  match forms with
  | [condition, yes] =>
    refine (heval condition frame (hforms _ (by simp))).bind fun v _ => ?_
    refine (confined_peek _).bind fun isTruthy _ => ?_
    split
    · exact confined_pure (hforms yes (by simp))
    · exact confined_pure trivial
  | [condition, yes, no] =>
    refine (heval condition frame (hforms _ (by simp))).bind fun v _ => ?_
    refine (confined_peek _).bind fun isTruthy _ => ?_
    split
    · exact confined_pure (hforms yes (by simp))
    · exact confined_pure (hforms no (by simp))
  | [] => exact confined_malformed _ _
  | [_] => exact confined_malformed _ _
  | _ :: _ :: _ :: _ :: _ => exact confined_malformed _ _

omit heval in
theorem confined_catching {attempt : Run Value} (hattempt : Confined veil veil.Sees attempt)
    {name : Text} {handler : Value} (hhandler : veil.Sees handler) :
    Confined veil (SeesTurn veil) (catching attempt frame name handler) := by
  intro w hw
  have hstays := hattempt w hw
  unfold catching
  cases hresult : attempt w with
  | ok v u =>
    rw [hresult] at hstays
    exact hstays
  | error e u =>
    rw [hresult] at hstays
    obtain ⟨hspares, hraised⟩ := hstays
    cases e with
    | thrown v =>
      have hbindings : ∀ other x, (Bindings.ofPairs [(name, v)]).get? other = some x →
          veil.Sees x := by
        intro other x hx
        obtain ⟨rfl, rfl⟩ := Prod.mk.inj (List.mem_singleton.mp (Bindings.mem_of_get?_ofPairs hx))
        exact hraised
      have hgoes : Confined veil (SeesTurn veil) (do
          let inner ← Run.newFrame (some frame) (.ofPairs [(name, v)])
          return Turn.next handler inner) :=
        (confined_newFrame _ hbindings).bind fun inner _ => confined_pure hhandler
      exact (hgoes u hspares.hides).after hspares
    | _ => exact ⟨hspares, hraised⟩

theorem confined_tryStar {forms : List Value} (hforms : veil.SeesAll forms) :
    Confined veil (SeesTurn veil) (tryStar eval frame forms) := by
  rw [tryStar_eq]
  match forms with
  | [body] =>
    exact (heval body frame (hforms _ (by simp))).bind fun v hv => confined_pure hv
  | [body, clause] =>
    have hclause : Confined veil (fun parts => veil.Sees parts.2)
        (Run.settle (catchClause · clause)) :=
      confined_settle
        (fun _ hh _ hparts => catchClause_in hh.isClosed (hforms clause (by simp)) hparts)
        fun _ _ => malformed_of_catchClause
    refine hclause.bind fun parts hhandler => ?_
    exact confined_catching (heval body frame (hforms _ (by simp))) hhandler
  | [] => exact confined_malformed _ _
  | _ :: _ :: _ :: _ => exact confined_malformed _ _

theorem confined_definition (form : Special) {forms : List Value} (hforms : veil.SeesAll forms) :
    Confined veil (fun found => veil.Sees found.2) (definition eval frame form forms) := by
  rw [definition_eq]
  match forms with
  | [target, value] =>
    refine (confined_peek _).bind fun c _ => ?_
    cases c with
    | symbol name =>
      exact (heval value frame (hforms _ (by simp))).bind fun v hv => confined_pure hv
    | _ => exact confined_malformed _ _
  | [] => exact confined_malformed _ _
  | [_] => exact confined_malformed _ _
  | _ :: _ :: _ :: _ => exact confined_malformed _ _

theorem confined_specialDefine {forms : List Value} (hforms : veil.SeesAll forms) :
    Confined veil veil.Sees (define eval frame forms) := by
  refine (confined_definition heval .define hforms).bind fun found hv => ?_
  exact (confined_define frame found.1 hv).bind fun _ _ => confined_pure hv

theorem confined_specialAssign {forms : List Value} (hforms : veil.SeesAll forms) :
    Confined veil veil.Sees (assign eval frame forms) := by
  refine (confined_definition heval .assign hforms).bind fun found hv => ?_
  exact (confined_assign frame found.1 hv).bind fun _ _ => confined_pure hv

theorem confined_defineMacro {forms : List Value} (hforms : veil.SeesAll forms) :
    Confined veil veil.Sees (defineMacro eval frame forms) := by
  refine (confined_definition heval .defineMacro hforms).bind fun found hf => ?_
  refine (confined_callee found.2).bind fun callee hcallee => ?_
  cases callee with
  | closure c =>
    have hmetadata : Confined veil (fun metadata? => ∀ m, metadata? = some m → veil.Sees m)
        (Run.look (·.metadata? found.2)) :=
      confined_look fun _ hh m => hh.metadata found.2 m hf
    refine hmetadata.bind fun metadata? hmetadata => ?_
    have hmade : Confined veil veil.Sees
        (Run.onHeap (·.makeClosure { c with isMacro := true } metadata?)) :=
      confined_onHeap fun _ hh =>
        hh.makeClosure (c := { c with isMacro := true }) hcallee hmetadata
    refine hmade.bind fun v hv => ?_
    exact (confined_define frame found.1 hv).bind fun _ _ => confined_pure hv
  | native n => exact (confined_peek _).bind fun _ _ => confined_fault _
  | nothing got => exact (confined_peek _).bind fun _ _ => confined_fault _

omit heval in
theorem confined_function {forms : List Value} (hforms : veil.SeesAll forms) :
    Confined veil veil.Sees (function frame forms) := by
  rw [function_eq]
  match forms with
  | [] => exact confined_malformed _ _
  | params :: body =>
    obtain ⟨_, hbody⟩ := seesAll_cons.mp hforms
    refine (confined_peek _).bind fun found? _ => ?_
    cases found? with
    | none => exact confined_malformed _ _
    | some found =>
      have hnames : Confined veil (fun _ => True) (Run.settle (parameters · found)) :=
        confined_settle (fun _ _ _ _ => trivial) fun _ _ => malformed_of_parameters
      refine hnames.bind fun names _ => ?_
      refine (confined_bodyOf hbody).bind fun form hform => ?_
      exact confined_onHeap fun _ hh => hh.makeClosure hform fun _ hm => by cases hm

omit heval in
theorem confined_single {special : Special} {forms : List Value} {go : Value → Run Value}
    (hforms : veil.SeesAll forms)
    (hgo : ∀ form, veil.Sees form → Confined veil veil.Sees (go form)) :
    Confined veil veil.Sees (single special forms go) := by
  rw [single_eq]
  match forms with
  | [form] => exact hgo form (hforms form (by simp))
  | [] => exact confined_malformed _ _
  | _ :: _ :: _ => exact confined_malformed _ _

theorem confined_special (steps : Nat) (form : Special) {forms : List Value}
    (hforms : veil.SeesAll forms) :
    Confined veil (SeesTurn veil) (special eval steps frame form forms) := by
  have hdone : ∀ v, veil.Sees v → SeesTurn veil (.done v) := fun _ hv => hv
  cases form with
  | letStar => exact confined_letStar heval hforms
  | sequence => exact confined_sequence heval hforms
  | conditional => exact confined_conditional heval hforms
  | tryStar => exact confined_tryStar heval hforms
  | quasiquote =>
    exact (confined_single hforms fun form hform => confined_fill heval steps hform).map hdone
  | define => exact (confined_specialDefine heval hforms).map hdone
  | defineMacro => exact (confined_defineMacro heval hforms).map hdone
  | assign => exact (confined_specialAssign heval hforms).map hdone
  | function => exact (confined_function hforms).map hdone
  | quote => exact (confined_single hforms fun form hform => confined_pure hform).map hdone
  | macroexpand =>
    exact (confined_single hforms fun form hform => confined_expandAll heval steps hform).map hdone
  | unquote => exact confined_malformed _ _
  | splice => exact confined_malformed _ _
  | catchStar => exact confined_malformed _ _

end Specials

section Calls

variable {apply : Application} (happly : ConfinesCalls veil apply)

omit heval

include happly in
theorem confined_mapItems {f : Value} {items : List Value} (hf : veil.Sees f)
    (hitems : veil.SeesAll items) : Confined veil veil.SeesAll (mapItems apply f items) := by
  induction items with
  | nil => exact confined_pure seesAll_nil
  | cons item rest ih =>
    obtain ⟨hitem, hrest⟩ := seesAll_cons.mp hitems
    refine (happly f [item] hf (seesAll_cons.mpr ⟨hitem, seesAll_nil⟩)).bind fun v hv => ?_
    exact (ih hrest).bind fun vs hvs => confined_pure (seesAll_cons.mpr ⟨hv, hvs⟩)

include happly in
theorem confined_swap (atom : AtomId) {f : Value} {extra : List Value} (steps : Nat)
    (hf : veil.Sees f) (hextra : veil.SeesAll extra) :
    Confined veil veil.Sees (swap apply atom f extra steps) := by
  induction steps with
  | zero => exact confined_exhausted
  | succ steps ih =>
    have hold : Confined veil veil.Sees (Run.look (·.deref atom)) :=
      confined_look fun _ hh => hh.deref atom
    refine hold.bind fun old hold => ?_
    refine (happly f (old :: extra) hf (seesAll_cons.mpr ⟨hold, hextra⟩)).bind fun new hnew => ?_
    refine (confined_peek _).bind fun now _ => ?_
    split
    · exact confined_onHeap fun _ hh => ⟨hh.spares_reset atom hnew, hnew⟩
    · exact ih

include heval happly

theorem confined_invoke (steps : Nat) (n : Native) {args : List Value} (hargs : veil.SeesAll args) :
    Confined veil veil.Sees (invoke eval apply steps n args) := by
  rw [invoke_eq]
  cases n with
  | operation op => exact op.confined_call hargs
  | apply =>
    match args with
    | f :: x :: more =>
      obtain ⟨hf, hmore⟩ := seesAll_cons.mp hargs
      have hlast : veil.Sees ((x :: more).getLastD .nil) := by
        rw [List.getLastD_cons]
        exact hmore _ (List.getLastD_mem_cons ..)
      have hitems : Confined veil veil.SeesAll (Run.require (Collection.elements Native.apply.name ·
          ((x :: more).getLastD .nil))) :=
        confined_require fun _ hh _ hitems => Collection.elements_in hh.isClosed hlast hitems
      refine hitems.bind fun items hitems => happly f _ hf (seesAll_append.mpr ⟨?_, hitems⟩)
      exact fun v hv => hmore v (List.mem_of_mem_dropLast hv)
    | [] => exact confined_fault _
    | [_] => exact confined_fault _
  | map =>
    match args with
    | [f, coll] =>
      have hitems : Confined veil veil.SeesAll
          (Run.require (Collection.elements Native.map.name · coll)) :=
        confined_require fun _ hh _ hitems =>
          Collection.elements_in hh.isClosed (hargs coll (by simp)) hitems
      refine hitems.bind fun items hitems => ?_
      exact (confined_mapItems happly (hargs f (by simp)) hitems).bind fun vs hvs =>
        confined_makeList hvs
    | [] => exact confined_fault _
    | [_] => exact confined_fault _
    | _ :: _ :: _ :: _ => exact confined_fault _
  | swap =>
    match args with
    | target :: f :: extra =>
      obtain ⟨_, hmore⟩ := seesAll_cons.mp hargs
      obtain ⟨hf, hextra⟩ := seesAll_cons.mp hmore
      refine (confined_peek _).bind fun c _ => ?_
      cases c with
      | atom atom => exact confined_swap happly atom steps hf hextra
      | _ => exact confined_fault _
    | [] => exact confined_fault _
    | [_] => exact confined_fault _
  | eval =>
    match args with
    | [form] => exact heval form World.root (hargs form (by simp))
    | [] => exact confined_fault _
    | _ :: _ :: _ => exact confined_fault _
  | inert name => exact confined_pure trivial

theorem confined_applyOnce (steps : Nat) (f : Value) {args : List Value}
    (hargs : veil.SeesAll args) :
    Confined veil veil.Sees (applyOnce eval apply steps f args) := by
  refine (confined_callee f).bind fun callee hcallee => ?_
  cases callee with
  | native n => exact confined_invoke heval happly steps n hargs
  | closure c => exact (confined_bindClosure c hargs).bind fun frame _ => heval c.body frame hcallee
  | nothing got => exact (confined_print _ _).bind fun _ _ => confined_fault _

theorem confined_call (steps : Nat) {head : Value} {forms : List Value} (hhead : veil.Sees head)
    (hforms : veil.SeesAll forms) :
    Confined veil (SeesTurn veil) (call eval apply steps frame head forms) := by
  refine (heval head frame hhead).bind fun f hf => ?_
  refine (confined_callee f).bind fun callee hcallee => ?_
  cases callee with
  | closure c =>
    dsimp only
    split
    · exact (confined_expand heval hcallee hforms).bind fun expansion hexpansion =>
        confined_pure hexpansion
    · refine (confined_evalAll heval hforms).bind fun args hargs => ?_
      exact (confined_bindClosure c hargs).bind fun inner _ => confined_pure hcallee
  | native n =>
    refine (confined_evalAll heval hforms).bind fun args hargs => ?_
    exact (confined_invoke heval happly steps n hargs).bind fun v hv => confined_pure hv
  | nothing got => exact (confined_print _ _).bind fun _ _ => confined_fault _

theorem confined_turn (steps : Nat) {form : Value} (hform : veil.Sees form) :
    Confined veil (SeesTurn veil) (turn eval apply steps form frame) := by
  rw [turn_eq]
  refine (confined_content hform).bind fun c hc => ?_
  cases c with
  | symbol name => exact (confined_lookup frame name).bind fun v hv => confined_pure hv
  | vector cell =>
    refine (confined_items (hc.cell cell rfl)).bind fun items hitems => ?_
    refine (confined_evalAll heval hitems).bind fun vs hvs => ?_
    exact (confined_makeVector hvs).bind fun v hv => confined_pure hv
  | map entries =>
    refine (confined_evalEntries heval hc.entries).bind fun vs hvs => ?_
    exact (confined_makeMap hvs).bind fun v hv => confined_pure hv
  | list cell =>
    refine (confined_items (hc.cell cell rfl)).bind fun items hitems => ?_
    cases items with
    | nil => exact confined_pure hform
    | cons head forms =>
      obtain ⟨hhead, hforms⟩ := seesAll_cons.mp hitems
      refine (confined_peek _).bind fun special? _ => ?_
      cases special? with
      | some name => exact confined_special heval steps name hforms
      | none => exact confined_call heval happly steps hhead hforms
  | _ => exact confined_pure hform

end Calls

end Evaluating

theorem confines_loop {turn : Value → FrameId → Run Turn}
    (hturn : ∀ form frame, veil.Sees form → Confined veil (SeesTurn veil) (turn form frame))
    (steps : Nat) : Confines veil (loop turn steps) := by
  induction steps with
  | zero => exact fun form frame hform => confined_exhausted
  | succ steps ih =>
    intro form frame hform
    refine (hturn form frame hform).bind fun result hresult => ?_
    cases result with
    | done v => exact confined_pure hresult
    | next form frame => exact ih form frame hresult

theorem confinesCalls_apply {eval : Evaluation} (heval : Confines veil eval) (steps : Nat) :
    ConfinesCalls veil (apply eval steps) := by
  induction steps with
  | zero => exact fun f args hf hargs => confined_exhausted
  | succ steps ih => exact fun f args hf hargs => confined_applyOnce heval ih steps f hargs

/-- Evaluation stays in sight, whatever its bounds. -/
theorem confines_eval (limit depth : Nat) : Confines veil (eval limit depth) := by
  induction depth with
  | zero => exact fun form frame hform => confined_exhausted
  | succ depth ih =>
    intro form frame hform
    refine confines_loop (fun form frame hform => ?_) limit form frame hform
    exact confined_turn ih (confinesCalls_apply ih limit) limit hform

end Lisp.Evaluator
