import Lisp.Evaluator.Eval
import Lisp.Proofs.Operation.Conduct

/-!
Evaluation behaves. From a world that is ready, the evaluation of a form in a frame that is open
leads by steps to a value that is there, or to a failure that is no crash. Each function of the
evaluator has its own lemma, which takes over that the evaluations and calls it makes behave; the
bounds on depth and steps then give it for all of them. All of this is for any library that behaves.
-/
namespace Lisp

/-- All operations of a library behave. -/
def Library.Behaves (library : Library) (may : World.Licence) : Prop :=
  ∀ w op args, w.Ready may → GivesAll w args → Leads may w Gives (library.call op args w)

theorem Library.behaves_standard {may : World.Licence} (hgrow : may.grow) :
    Library.standard.Behaves may :=
  fun _ _ _ hw hargs => Operation.leads_call hw hargs fun _ => hgrow

namespace Evaluator

open World

/-- All evaluations in open frames behave. -/
def Behaves (may : Licence) (eval : Evaluation) : Prop :=
  ∀ w form frame, w.Ready may → w.heap.Has form → w.Opens may frame →
    Leads may w Gives (eval form frame w)

/-- All calls of functions behave. -/
def Obeys (may : Licence) (apply : Application) : Prop :=
  ∀ w f args, w.Ready may → w.heap.Has f → GivesAll w args → Leads may w Gives (apply f args w)

/-- What a turn ends with can be gone on with. -/
def Continues (may : Licence) (w : World) : Turn → Prop
  | .done v => w.heap.Has v
  | .next form frame => w.heap.Has form ∧ w.Opens may frame

section Evaluating

variable {may : Licence} {w : World} {frame : FrameId}

theorem givesAll_nil : GivesAll w [] := fun _ hv => by cases hv

theorem givesAll_cons {v : Value} {vs : List Value} :
    GivesAll w (v :: vs) ↔ w.heap.Has v ∧ GivesAll w vs :=
  List.forall_mem_cons

theorem givesAll_append {us vs : List Value} :
    GivesAll w (us ++ vs) ↔ GivesAll w us ∧ GivesAll w vs :=
  List.forall_mem_append

theorem leads_bodyOf (forms : List Value) (hforms : GivesAll w forms) :
    Leads may w Gives (bodyOf forms w) := by
  rw [bodyOf_eq]
  match forms with
  | [] => exact leads_pure trivial
  | [form] => exact leads_pure (hforms form (by simp))
  | first :: second :: more => exact leads_makeList (givesAll_cons.mpr ⟨trivial, hforms⟩)

theorem items_of_list (hsound : w.IsSound) (cell : CellId) : GivesAll w (w.heap.items cell) :=
  hsound.heap.items cell

section Closed

variable {h : Heap} {S : Value → Prop} (hclosed : h.IsClosed S) {v : Value} (hv : S v)
include hclosed hv

theorem items_in {cell : CellId} (hlist : h.content v = .list cell) : ∀ x ∈ h.items cell, S x :=
  hclosed.items v cell hv (by rw [hlist]; rfl)

theorem elements?_in {items : List Value} (hitems : h.elements? v = some items) :
    ∀ x ∈ items, S x := by
  obtain ⟨found, hfound, rfl⟩ := Option.map_eq_some_iff.mp hitems
  exact Collection.sequence?_in hclosed hv hfound

theorem holeForms?_in {special : Special} {forms : List Value}
    (hforms : holeForms? special h v = some forms) : ∀ x ∈ forms, S x := by
  unfold holeForms? at hforms
  split at hforms
  · rename_i cell hlist
    have hitems := items_in hclosed hv hlist
    split at hforms
    · rename_i head rest heq
      rw [heq] at hitems
      split at hforms
      · cases hforms
        exact (List.forall_mem_cons.mp hitems).2
      · cases hforms
    · cases hforms
  · cases hforms

theorem splicedItems_in {items : List Value} (hitems : splicedItems h v = .ok items) :
    ∀ x ∈ items, S x := by
  have hinside := hclosed.items v
  unfold splicedItems at hitems
  split at hitems
  · rename_i cell heq
    cases hitems
    exact hinside cell hv (by rw [heq]; rfl)
  · rename_i cell heq
    cases hitems
    exact hinside cell hv (by rw [heq]; rfl)
  · cases hitems
    exact fun x hx => by cases hx
  · cases hitems

theorem entries_in {entries : Entries} (hmap : h.content v = .map entries) :
    ∀ entry ∈ entries.toList, S entry.1 ∧ S entry.2 := by
  have henclosed := hclosed.enclosed v hv
  rw [hmap] at henclosed
  exact fun entry hentry => ⟨henclosed _ (mem_alternate.mpr ⟨entry, hentry, .inl rfl⟩),
    henclosed _ (mem_alternate.mpr ⟨entry, hentry, .inr rfl⟩)⟩

theorem catchClause_in {handler : Value} {name : Text}
    (hclause : catchClause h v = .ok (name, handler)) : S handler := by
  rw [catchClause_eq] at hclause
  split at hclause
  · rename_i cell hlist
    have hitems := items_in hclosed hv hlist
    split at hclause
    · rename_i head target other heq
      rw [heq] at hitems
      split at hclause
      · cases hclause
      · split at hclause
        · cases hclause
          exact hitems handler (by simp)
        · cases hclause
    · cases hclause
  · cases hclause

end Closed

variable {eval : Evaluation} (heval : Behaves may eval)
include heval

/-- Evaluation from left to right: what has been given stays there while the rest is evaluated. -/
theorem leads_evalAll {forms : List Value} (hw : w.Ready may) (hframe : w.Opens may frame)
    (hforms : GivesAll w forms) : Leads may w GivesAll (evalAll eval frame forms w) := by
  induction forms generalizing w with
  | nil => exact leads_pure givesAll_nil
  | cons form rest ih =>
    obtain ⟨hform, hrest⟩ := givesAll_cons.mp hforms
    refine (heval w form frame hw hform hframe).bind hw fun v u hu hwu hv => ?_
    refine (ih hu (hwu.opens hframe) (hwu.hasAll hrest)).bind hu fun vs x _ hux hvs => ?_
    exact leads_pure (givesAll_cons.mpr ⟨hux.has hv, hvs⟩)

theorem leads_evalEntries {entries : List (Value × Value)} (hw : w.Ready may)
    (hframe : w.Opens may frame)
    (hentries : ∀ entry ∈ entries, w.heap.Has entry.1 ∧ w.heap.Has entry.2) :
    Leads may w GivesAll (evalEntries eval frame entries w) := by
  induction entries generalizing w with
  | nil => exact leads_pure givesAll_nil
  | cons entry rest ih =>
    obtain ⟨hentry, hrest⟩ := List.forall_mem_cons.mp hentries
    refine (heval w entry.1 frame hw hentry.1 hframe).bind hw fun k u hu hwu hk => ?_
    refine (heval u entry.2 frame hu (hwu.has hentry.2) (hwu.opens hframe)).bind hu
      fun v x hx hux hv => ?_
    have hwx := hwu.trans hux
    have hkept : ∀ entry ∈ rest, x.heap.Has entry.1 ∧ x.heap.Has entry.2 := fun entry hmem =>
      ⟨hwx.has (hrest entry hmem).1, hwx.has (hrest entry hmem).2⟩
    refine (ih hx (hwx.opens hframe) hkept).bind hx fun more y _ hxy hmore => ?_
    exact leads_pure (givesAll_cons.mpr
      ⟨(hux.trans hxy).has hk, givesAll_cons.mpr ⟨hxy.has hv, hmore⟩⟩)

theorem leads_expand {c : Closure} {forms : List Value} (hw : w.Ready may)
    (hbody : w.heap.Has c.body) (hscope : c.scope < w.scopes.frames.size)
    (hforms : GivesAll w forms) : Leads may w Gives (expand eval c forms w) := by
  rw [expand_eq]
  refine (leads_bindClosure hw hscope hforms).bind hw fun frame u hu hwu hframe => ?_
  refine (heval u c.body frame hu (hwu.has hbody) hframe).bind hu fun v x hx _ hv => ?_
  exact (leads_note _).bind hx fun _ y _ hxy _ => leads_pure (hxy.has hv)

omit heval in
/-- What expansion takes for a macro call. -/
theorem macroCall?_eq_some_iff {form : Value} {c : Closure} {forms : List Value} :
    macroCall? w frame form = some (c, forms) ↔
      ∃ cell head name f, w.heap.content form = .list cell ∧ w.heap.items cell = head :: forms ∧
        w.heap.symbol? head = some name ∧ w.scopes.find? frame name = some f ∧
        w.heap.callee f = .closure c ∧ c.isMacro = true := by
  constructor
  · intro hcall
    unfold macroCall? at hcall
    split at hcall
    · rename_i cell hlist
      split at hcall
      · rename_i head rest hitems
        obtain ⟨name, hname, hcall⟩ := Option.bind_eq_some_iff.mp hcall
        obtain ⟨f, hfound, hcall⟩ := Option.bind_eq_some_iff.mp hcall
        split at hcall
        · rename_i other hcallee
          split at hcall
          · rename_i hmacro
            cases hcall
            exact ⟨cell, head, name, f, hlist, hitems, hname, hfound, hcallee, hmacro⟩
          · cases hcall
        · cases hcall
      · cases hcall
    · cases hcall
  · rintro ⟨cell, head, name, f, hlist, hitems, hname, hfound, hcallee, hmacro⟩
    simp [macroCall?, hlist, hitems, hname, hfound, hcallee, hmacro]

omit heval in
theorem macroCall?_has (hsound : w.IsSound) {form : Value} {c : Closure} {forms : List Value}
    (hcall : macroCall? w frame form = some (c, forms)) :
    w.heap.Has c.body ∧ c.scope < w.scopes.frames.size ∧ GivesAll w forms := by
  obtain ⟨cell, head, name, f, _, heq, _, _, hcallee, _⟩ := macroCall?_eq_some_iff.mp hcall
  have hitems := items_of_list hsound cell
  rw [heq] at hitems
  obtain ⟨hbody, hscope⟩ := hsound.callee hcallee
  exact ⟨hbody, hscope, (givesAll_cons.mp hitems).2⟩

theorem leads_expandAll {form : Value} (steps : Nat) (hw : w.Ready may)
    (hframe : w.Opens may frame) (hform : w.heap.Has form) :
    Leads may w Gives (expandAll eval frame steps form w) := by
  induction steps generalizing w form with
  | zero => exact leads_exhausted
  | succ steps ih =>
    rw [expandAll_succ]
    refine leads_read rfl ?_
    cases hcall : macroCall? w frame form with
    | none => exact leads_pure hform
    | some found =>
      obtain ⟨hbody, hscope, hforms⟩ := macroCall?_has hw.sound hcall
      refine (leads_expand heval hw hbody hscope hforms).bind hw fun v u hu hwu hv => ?_
      exact ih hu (hwu.opens hframe) hv

section Templates

variable {fill : Value → Run Value}

theorem leads_fillItems
    (hfill : ∀ (w : World) (item : Value), w.Ready may → w.heap.Has item → w.Opens may frame →
      Leads may w Gives (fill item w))
    {items : List Value} (hw : w.Ready may) (hframe : w.Opens may frame)
    (hitems : GivesAll w items) : Leads may w GivesAll (fillItems eval fill frame items w) := by
  induction items generalizing w with
  | nil => exact leads_pure givesAll_nil
  | cons item rest ih =>
    obtain ⟨hitem, hrest⟩ := givesAll_cons.mp hitems
    rw [fillItems_cons]
    refine leads_look ?_
    cases hhole : holeForms? .splice w.heap item with
    | none =>
      refine (hfill w item hw hitem hframe).bind hw fun v u hu hwu hv => ?_
      refine (ih hu (hwu.opens hframe) (hwu.hasAll hrest)).bind hu fun more x _ hux hmore => ?_
      exact leads_pure (givesAll_cons.mpr ⟨hux.has hv, hmore⟩)
    | some forms =>
      have hforms := holeForms?_in hw.sound.heap.isClosed hitem hhole
      match forms with
      | [form] =>
        have hform := hforms form (by simp)
        refine (heval w form frame hw hform hframe).bind hw fun v u hu hwu hv => ?_
        have hitems : Leads may u GivesAll (Run.require (splicedItems · v) u) :=
          leads_require fun _ hitems => splicedItems_in hu.sound.heap.isClosed hv hitems
        refine hitems.bind hu fun spliced x hx hux hspliced => ?_
        have hwx := hwu.trans hux
        refine (ih hx (hwx.opens hframe) (hwx.hasAll hrest)).bind hx fun more y _ hxy hmore => ?_
        exact leads_pure (givesAll_append.mpr ⟨hxy.hasAll hspliced, hmore⟩)
      | [] => exact leads_malformed _ _
      | _ :: _ :: _ => exact leads_malformed _ _

omit heval in
theorem leads_fillEntries
    (hfill : ∀ (w : World) (item : Value), w.Ready may → w.heap.Has item → w.Opens may frame →
      Leads may w Gives (fill item w))
    {entries : List (Value × Value)} (hw : w.Ready may) (hframe : w.Opens may frame)
    (hentries : ∀ entry ∈ entries, w.heap.Has entry.1 ∧ w.heap.Has entry.2) :
    Leads may w GivesAll (fillEntries fill entries w) := by
  induction entries generalizing w with
  | nil => exact leads_pure givesAll_nil
  | cons entry rest ih =>
    obtain ⟨hentry, hrest⟩ := List.forall_mem_cons.mp hentries
    refine (hfill w entry.2 hw hentry.2 hframe).bind hw fun v u hu hwu hv => ?_
    have hkept : ∀ entry ∈ rest, u.heap.Has entry.1 ∧ u.heap.Has entry.2 := fun entry hmem =>
      ⟨hwu.has (hrest entry hmem).1, hwu.has (hrest entry hmem).2⟩
    refine (ih hu (hwu.opens hframe) hkept).bind hu fun more x _ hux hmore => ?_
    exact leads_pure (givesAll_cons.mpr
      ⟨(hwu.trans hux).has hentry.1, givesAll_cons.mpr ⟨hux.has hv, hmore⟩⟩)

theorem leads_fill (steps : Nat) {template : Value} (hw : w.Ready may) (hframe : w.Opens may frame)
    (htemplate : w.heap.Has template) :
    Leads may w Gives (Evaluator.fill eval frame steps template w) := by
  induction steps generalizing w template with
  | zero => exact leads_exhausted
  | succ steps ih =>
    have hfill : ∀ (w : World) (item : Value), w.Ready may → w.heap.Has item → w.Opens may frame →
        Leads may w Gives (Evaluator.fill eval frame steps item w) :=
      fun w item hw hitem hframe => ih hw hframe hitem
    rw [fill_succ]
    refine leads_look ?_
    cases hhole : holeForms? .unquote w.heap template with
    | some forms =>
      have hforms := holeForms?_in hw.sound.heap.isClosed htemplate hhole
      match forms with
      | [form] => exact heval w form frame hw (hforms form (by simp)) hframe
      | [] => exact leads_malformed _ _
      | _ :: _ :: _ => exact leads_malformed _ _
    | none =>
      refine leads_look ?_
      cases hcontent : w.heap.content template with
      | list cell =>
        refine leads_look ?_
        exact (leads_fillItems heval hfill hw hframe (items_of_list hw.sound cell)).bind hw
          fun vs u hu hwu hvs => leads_makeList hvs
      | vector cell =>
        refine leads_look ?_
        exact (leads_fillItems heval hfill hw hframe (items_of_list hw.sound cell)).bind hw
          fun vs u hu hwu hvs => leads_makeVector hvs
      | map entries =>
        have hentries := entries_in hw.sound.heap.isClosed htemplate hcontent
        exact (leads_fillEntries hfill hw hframe hentries).bind hw
          fun vs u hu hwu hvs => leads_makeMap hvs
      | _ => exact leads_pure htemplate

end Templates

section Specials

/-- Names and values come in pairs, so there is a value for each name. -/
theorem leads_bindAll {w : World} {bindings : List Value} (heven : bindings.length % 2 = 0)
    (hw : w.Ready may) (hframe : w.Opens may frame) (hbindings : GivesAll w bindings) :
    Leads may w (fun _ _ => True) (bindAll eval frame bindings w) := by
  match bindings with
  | [] => exact leads_pure trivial
  | [_] => cases heven
  | target :: form :: rest =>
    obtain ⟨_, hbindings⟩ := givesAll_cons.mp hbindings
    obtain ⟨hform, hrest⟩ := givesAll_cons.mp hbindings
    refine leads_look ?_
    cases w.heap.content target with
    | symbol name =>
      refine (heval w form frame hw hform hframe).bind hw fun v u hu hwu hv => ?_
      refine (leads_define hframe.2 hv).bind hu fun _ x hx hux _ => ?_
      have hwx := hwu.trans hux
      have heven : rest.length % 2 = 0 := by
        rw [List.length_cons, List.length_cons] at heven
        omega
      exact leads_bindAll heven hx (hwx.opens hframe) (hwx.hasAll hrest)
    | _ => exact leads_malformed _ _

theorem leads_letStar {forms : List Value} (hw : w.Ready may) (hframe : w.Opens may frame)
    (hforms : GivesAll w forms) : Leads may w (Continues may) (letStar eval frame forms w) := by
  rw [letStar_eq]
  match forms with
  | [] => exact leads_malformed _ _
  | bindings :: body =>
    obtain ⟨hbindings, hbody⟩ := givesAll_cons.mp hforms
    refine leads_look ?_
    cases helements : w.heap.elements? bindings with
    | none => exact leads_malformed _ _
    | some found =>
      dsimp only
      split
      · exact leads_malformed _ _
      · rename_i heven
        have hfound : GivesAll w found := elements?_in hw.sound.heap.isClosed hbindings helements
        have hempty : ∀ name v, ({} : Bindings).get? name = some v → w.heap.Has v := by simp
        refine (leads_newFrame hw (fun f hf => by cases hf; exact hframe.1) hempty).bind hw
          fun inner u hu hwu hinner => ?_
        refine (leads_bindAll heval (not_not.mp heven) hu hinner (hwu.hasAll hfound)).bind hu
          fun _ x hx hux _ => ?_
        have hbody := (hwu.trans hux).hasAll hbody
        refine (leads_bodyOf body hbody).bind hx fun form y _ hxy hform => ?_
        exact leads_pure ⟨hform, (hux.trans hxy).opens hinner⟩

theorem leads_sequence {forms : List Value} (hw : w.Ready may) (hframe : w.Opens may frame)
    (hforms : GivesAll w forms) : Leads may w (Continues may) (sequence eval frame forms w) := by
  rw [sequence_eq]
  cases hlast : forms.getLast? with
  | none => exact leads_pure trivial
  | some last =>
    have hmem : last ∈ forms := List.mem_of_getLast? hlast
    have hearlier : GivesAll w forms.dropLast := fun v hv => hforms v (List.mem_of_mem_dropLast hv)
    refine (leads_evalAll heval hw hframe hearlier).bind hw fun _ u _ hwu _ => ?_
    exact leads_pure ⟨hwu.has (hforms last hmem), hwu.opens hframe⟩

theorem leads_conditional {forms : List Value} (hw : w.Ready may) (hframe : w.Opens may frame)
    (hforms : GivesAll w forms) : Leads may w (Continues may) (conditional eval frame forms w) := by
  rw [conditional_eq]
  match forms with
  | [condition, yes] =>
    refine (heval w condition frame hw (hforms _ (by simp)) hframe).bind hw fun v u _ hwu _ => ?_
    refine leads_look ?_
    split
    · exact leads_pure ⟨hwu.has (hforms _ (by simp)), hwu.opens hframe⟩
    · exact leads_pure trivial
  | [condition, yes, no] =>
    refine (heval w condition frame hw (hforms _ (by simp)) hframe).bind hw fun v u _ hwu _ => ?_
    refine leads_look ?_
    split
    · exact leads_pure ⟨hwu.has (hforms _ (by simp)), hwu.opens hframe⟩
    · exact leads_pure ⟨hwu.has (hforms _ (by simp)), hwu.opens hframe⟩
  | [] => exact leads_malformed _ _
  | [_] => exact leads_malformed _ _
  | _ :: _ :: _ :: _ :: _ => exact leads_malformed _ _

omit heval in
/-- The handler goes on in a new frame, where its name is bound to what was raised. -/
theorem leads_catching {attempt : Run Value} {name : Text} {handler : Value} (hw : w.Ready may)
    (hattempt : Leads may w Gives (attempt w)) (hframe : w.Opens may frame)
    (hhandler : w.heap.Has handler) :
    Leads may w (Continues may) (catching attempt frame name handler w) := by
  unfold catching
  cases hresult : attempt w with
  | ok v u =>
    rw [hresult] at hattempt
    exact hattempt
  | error e u =>
    rw [hresult] at hattempt
    obtain ⟨hwu, hraised⟩ := hattempt
    cases e with
    | thrown v =>
      have hu := hw.steps hwu
      have hbindings : ∀ other x, (Bindings.ofPairs [(name, v)]).get? other = some x →
          u.heap.Has x := by
        intro other x hx
        obtain ⟨rfl, rfl⟩ := Prod.mk.inj (List.mem_singleton.mp (Bindings.mem_of_get?_ofPairs hx))
        exact hraised
      have houter : ∀ f, some frame = some f → f < u.scopes.frames.size := fun f hf => by
        cases hf
        exact (World.Steps.opens hwu hframe).1
      refine Leads.after ?_ hwu
      refine (leads_newFrame hu houter hbindings).bind hu fun inner x _ hux hinner => ?_
      exact leads_pure ⟨(World.Steps.trans hwu hux).has hhandler, hinner⟩
    | _ => exact ⟨hwu, hraised⟩

theorem leads_tryStar {forms : List Value} (hw : w.Ready may) (hframe : w.Opens may frame)
    (hforms : GivesAll w forms) : Leads may w (Continues may) (tryStar eval frame forms w) := by
  rw [tryStar_eq]
  match forms with
  | [body] =>
    refine (heval w body frame hw (hforms _ (by simp)) hframe).bind hw fun v u _ _ hv => ?_
    exact leads_pure hv
  | [body, clause] =>
    have hclause : Leads may w (fun w parts => w.heap.Has parts.2)
        (Run.settle (catchClause · clause) w) :=
      leads_settle (fun _ hparts =>
        catchClause_in hw.sound.heap.isClosed (hforms clause (by simp)) hparts)
        fun _ => malformed_of_catchClause
    refine hclause.bind hw fun parts u hu hwu hhandler => ?_
    have hbody := heval u body frame hu (hwu.has (hforms _ (by simp))) (hwu.opens hframe)
    exact leads_catching hu hbody (hwu.opens hframe) hhandler
  | [] => exact leads_malformed _ _
  | _ :: _ :: _ :: _ => exact leads_malformed _ _

theorem leads_definition (form : Special) {forms : List Value} (hw : w.Ready may)
    (hframe : w.Opens may frame) (hforms : GivesAll w forms) :
    Leads may w (fun w found => w.heap.Has found.2) (definition eval frame form forms w) := by
  rw [definition_eq]
  match forms with
  | [target, value] =>
    refine leads_look ?_
    cases w.heap.content target with
    | symbol name =>
      refine (heval w value frame hw (hforms _ (by simp)) hframe).bind hw fun v u _ _ hv => ?_
      exact leads_pure hv
    | _ => exact leads_malformed _ _
  | [] => exact leads_malformed _ _
  | [_] => exact leads_malformed _ _
  | _ :: _ :: _ :: _ => exact leads_malformed _ _

theorem leads_specialDefine {forms : List Value} (hw : w.Ready may) (hframe : w.Opens may frame)
    (hforms : GivesAll w forms) : Leads may w Gives (define eval frame forms w) := by
  refine (leads_definition heval .define hw hframe hforms).bind hw fun found u hu hwu hv => ?_
  refine (leads_define hframe.2 hv).bind hu fun _ x _ hux _ => ?_
  exact leads_pure (hux.has hv)

theorem leads_specialAssign {forms : List Value} (hw : w.Ready may) (hframe : w.Opens may frame)
    (hforms : GivesAll w forms) : Leads may w Gives (assign eval frame forms w) := by
  refine (leads_definition heval .assign hw hframe hforms).bind hw fun found u hu hwu hv => ?_
  refine (leads_assign hv).bind hu fun _ x _ hux _ => ?_
  exact leads_pure (hux.has hv)

/-- The macro is a closure of its own, made where the function was. -/
theorem leads_defineMacro {forms : List Value} (hw : w.Ready may) (hframe : w.Opens may frame)
    (hforms : GivesAll w forms) : Leads may w Gives (defineMacro eval frame forms w) := by
  refine (leads_definition heval .defineMacro hw hframe hforms).bind hw fun found u hu hwu hf => ?_
  refine leads_look ?_
  cases hcallee : u.heap.callee found.2 with
  | closure c =>
    obtain ⟨hbody, hscope⟩ := hu.sound.callee hcallee
    refine leads_look ?_
    have hmade : Leads may u Gives (Run.onHeap (·.makeClosure { c with isMacro := true }
        (u.heap.metadata? found.2)) u) :=
      leads_onHeap (Heap.makes_makeClosure hbody hscope (hu.sound.heap.metadata found.2))
    refine hmade.bind hu fun v x hx hux hv => ?_
    refine (leads_define hframe.2 hv).bind hx fun _ y _ hxy _ => ?_
    exact leads_pure (hxy.has hv)
  | native n => exact leads_fault _
  | nothing got => exact leads_fault _

omit heval in
theorem leads_function {forms : List Value} (hw : w.Ready may) (hframe : w.Opens may frame)
    (hforms : GivesAll w forms) : Leads may w Gives (function frame forms w) := by
  rw [function_eq]
  match forms with
  | [] => exact leads_malformed _ _
  | params :: body =>
    obtain ⟨_, hbody⟩ := givesAll_cons.mp hforms
    refine leads_look ?_
    cases w.heap.elements? params with
    | none => exact leads_malformed _ _
    | some found =>
      have hnames : Leads may w (fun _ _ => True) (Run.settle (parameters · found) w) :=
        leads_settle (fun _ _ => trivial) fun _ => malformed_of_parameters
      refine hnames.bind hw fun names u hu hwu _ => ?_
      refine (leads_bodyOf body (hwu.hasAll hbody)).bind hu fun form x _ hux hform => ?_
      have hscope := ((hwu.trans hux).opens hframe).1
      exact leads_onHeap (Heap.makes_makeClosure hform hscope fun _ hm => by cases hm)

omit heval in
theorem leads_single {special : Special} {forms : List Value} {go : Value → Run Value}
    (hforms : GivesAll w forms)
    (hgo : ∀ form, w.heap.Has form → Leads may w Gives (go form w)) :
    Leads may w Gives (single special forms go w) := by
  rw [single_eq]
  match forms with
  | [form] => exact hgo form (hforms form (by simp))
  | [] => exact leads_malformed _ _
  | _ :: _ :: _ => exact leads_malformed _ _

theorem leads_special (steps : Nat) (form : Special) {forms : List Value} (hw : w.Ready may)
    (hframe : w.Opens may frame) (hforms : GivesAll w forms) :
    Leads may w (Continues may) (special eval steps frame form forms w) := by
  have hdone : ∀ (v : Value) (u : World), Gives u v → Continues may u (.done v) := fun _ _ hv => hv
  cases form with
  | letStar => exact leads_letStar heval hw hframe hforms
  | sequence => exact leads_sequence heval hw hframe hforms
  | conditional => exact leads_conditional heval hw hframe hforms
  | tryStar => exact leads_tryStar heval hw hframe hforms
  | quasiquote =>
    exact (leads_single hforms fun form hform => leads_fill heval steps hw hframe hform).map hdone
  | define => exact (leads_specialDefine heval hw hframe hforms).map hdone
  | defineMacro => exact (leads_defineMacro heval hw hframe hforms).map hdone
  | assign => exact (leads_specialAssign heval hw hframe hforms).map hdone
  | function => exact (leads_function hw hframe hforms).map hdone
  | quote => exact (leads_single hforms fun form hform => leads_pure hform).map hdone
  | macroexpand =>
    exact (leads_single hforms fun form hform =>
      leads_expandAll heval steps hw hframe hform).map hdone
  | unquote => exact leads_malformed _ _
  | splice => exact leads_malformed _ _
  | catchStar => exact leads_malformed _ _

end Specials

section Calls

variable {apply : Application} (happly : Obeys may apply)

omit heval

include happly in
theorem leads_mapItems {f : Value} {items : List Value} (hw : w.Ready may) (hf : w.heap.Has f)
    (hitems : GivesAll w items) : Leads may w GivesAll (mapItems apply f items w) := by
  induction items generalizing w with
  | nil => exact leads_pure givesAll_nil
  | cons item rest ih =>
    obtain ⟨hitem, hrest⟩ := givesAll_cons.mp hitems
    refine (happly w f [item] hw hf (givesAll_cons.mpr ⟨hitem, givesAll_nil⟩)).bind hw
      fun v u hu hwu hv => ?_
    refine (ih hu (hwu.has hf) (hwu.hasAll hrest)).bind hu fun vs x _ hux hvs => ?_
    exact leads_pure (givesAll_cons.mpr ⟨hux.has hv, hvs⟩)

include happly in
theorem leads_swap (atom : AtomId) {f : Value} {extra : List Value} (steps : Nat)
    (hw : w.Ready may) (hf : w.heap.Has f) (hextra : GivesAll w extra) :
    Leads may w Gives (swap apply atom f extra steps w) := by
  induction steps generalizing w with
  | zero => exact leads_exhausted
  | succ steps ih =>
    refine leads_look ?_
    have hargs : GivesAll w (w.heap.deref atom :: extra) :=
      givesAll_cons.mpr ⟨hw.sound.heap.deref atom, hextra⟩
    refine (happly w f _ hw hf hargs).bind hw fun new u hu hwu hnew => ?_
    refine leads_look ?_
    split
    · have hstep : Heap.Step may.Allows u.scopes.frames.size u.heap (u.heap.reset atom new) :=
        .reset atom new hnew
      exact leads_onHeap (f := fun h => (new, h.reset atom new))
        ⟨.single hstep, hstep.notSmaller.has hnew⟩
    · exact ih hu (hwu.has hf) (hwu.hasAll hextra)

variable [library : Library] (hlibrary : library.Behaves may)
include heval hlibrary happly

theorem leads_invoke (steps : Nat) (n : Native) {args : List Value} (hw : w.Ready may)
    (hargs : GivesAll w args) :
    Leads may w Gives (invoke eval apply steps n args w) := by
  rw [invoke_eq]
  cases n with
  | operation op => exact hlibrary w op args hw hargs
  | apply =>
    match args with
    | f :: x :: more =>
      obtain ⟨hf, hmore⟩ := givesAll_cons.mp hargs
      have hlast : w.heap.Has ((x :: more).getLastD .nil) := by
        rw [List.getLastD_cons]
        exact hmore _ (List.getLastD_mem_cons ..)
      have hitems : Leads may w GivesAll (Run.require (Collection.elements Native.apply.name ·
          ((x :: more).getLastD .nil)) w) :=
        leads_require fun _ hitems =>
          Collection.elements_in hw.sound.heap.isClosed hlast hitems
      refine hitems.bind hw fun items u hu hwu hitems => ?_
      have hleading : GivesAll u (x :: more).dropLast := fun v hv =>
        hwu.has (hmore v (List.mem_of_mem_dropLast hv))
      exact happly u f _ hu (hwu.has hf) (givesAll_append.mpr ⟨hleading, hitems⟩)
    | [] => exact leads_fault _
    | [_] => exact leads_fault _
  | map =>
    match args with
    | [f, coll] =>
      have hitems : Leads may w GivesAll (Run.require (Collection.elements Native.map.name · coll)
          w) :=
        leads_require fun _ hitems =>
          Collection.elements_in hw.sound.heap.isClosed (hargs coll (by simp)) hitems
      refine hitems.bind hw fun items u hu hwu hitems => ?_
      have hf : u.heap.Has f := hwu.has (hargs f (by simp))
      refine (leads_mapItems happly hu hf hitems).bind hu fun vs x _ _ hvs => ?_
      exact leads_makeList hvs
    | [] => exact leads_fault _
    | [_] => exact leads_fault _
    | _ :: _ :: _ :: _ => exact leads_fault _
  | swap =>
    match args with
    | target :: f :: extra =>
      obtain ⟨_, hmore⟩ := givesAll_cons.mp hargs
      obtain ⟨hf, hextra⟩ := givesAll_cons.mp hmore
      refine leads_look ?_
      cases w.heap.content target with
      | atom atom => exact leads_swap happly atom steps hw hf hextra
      | _ => exact leads_fault _
    | [] => exact leads_fault _
    | [_] => exact leads_fault _
  | eval =>
    match args with
    | [form] => exact heval w form World.root hw (hargs form (by simp)) hw.root
    | [] => exact leads_fault _
    | _ :: _ :: _ => exact leads_fault _
  | inert name => exact leads_pure trivial

theorem leads_applyOnce (steps : Nat) {f : Value} {args : List Value} (hw : w.Ready may)
    (hargs : GivesAll w args) :
    Leads may w Gives (applyOnce eval apply steps f args w) := by
  refine leads_look ?_
  cases hcallee : w.heap.callee f with
  | native n => exact leads_invoke heval happly hlibrary steps n hw hargs
  | closure c =>
    obtain ⟨hbody, hscope⟩ := hw.sound.callee hcallee
    refine (leads_bindClosure hw hscope hargs).bind hw fun frame u hu hwu hframe => ?_
    exact heval u c.body frame hu (hwu.has hbody) hframe
  | nothing got => exact (leads_print _ _).bind hw fun _ _ _ _ _ => leads_fault _

theorem leads_call (steps : Nat) {head : Value} {forms : List Value} (hw : w.Ready may)
    (hframe : w.Opens may frame) (hhead : w.heap.Has head) (hforms : GivesAll w forms) :
    Leads may w (Continues may) (call eval apply steps frame head forms w) := by
  refine (heval w head frame hw hhead hframe).bind hw fun f u hu hwu hf => ?_
  refine leads_look ?_
  cases hcallee : u.heap.callee f with
  | closure c =>
    obtain ⟨hbody, hscope⟩ := hu.sound.callee hcallee
    dsimp only
    split
    · refine (leads_expand heval hu hbody hscope (hwu.hasAll hforms)).bind hu
        fun expansion x _ hux hexpansion => ?_
      exact leads_pure ⟨hexpansion, (hwu.trans hux).opens hframe⟩
    · refine (leads_evalAll heval hu (hwu.opens hframe) (hwu.hasAll hforms)).bind hu
        fun args x hx hux hargs => ?_
      have hscope' : c.scope < x.scopes.frames.size :=
        Nat.lt_of_lt_of_le hscope hux.notSmaller.2
      refine (leads_bindClosure hx hscope' hargs).bind hx fun inner y _ hxy hinner => ?_
      exact leads_pure ⟨(hux.trans hxy).has hbody, hinner⟩
  | native n =>
    refine (leads_evalAll heval hu (hwu.opens hframe) (hwu.hasAll hforms)).bind hu
      fun args x hx hux hargs => ?_
    refine (leads_invoke heval happly hlibrary steps n hx hargs).bind hx fun v y _ _ hv => ?_
    exact leads_pure hv
  | nothing got => exact (leads_print _ _).bind hu fun _ _ _ _ _ => leads_fault _

theorem leads_turn (steps : Nat) {form : Value} (hw : w.Ready may) (hform : w.heap.Has form)
    (hframe : w.Opens may frame) :
    Leads may w (Continues may) (turn eval apply steps form frame w) := by
  rw [turn_eq]
  refine leads_look ?_
  cases hcontent : w.heap.content form with
  | symbol name =>
    refine (leads_lookup hw.sound frame name).bind hw fun v x _ _ hv => ?_
    exact leads_pure hv
  | vector cell =>
    refine leads_look ?_
    refine (leads_evalAll heval hw hframe (items_of_list hw.sound cell)).bind hw
      fun vs x hx _ hvs => ?_
    exact (leads_makeVector hvs).bind hx fun v y _ _ hv => leads_pure hv
  | map entries =>
    have hentries := entries_in hw.sound.heap.isClosed hform hcontent
    refine (leads_evalEntries heval hw hframe hentries).bind hw fun vs x hx _ hvs => ?_
    exact (leads_makeMap hvs).bind hx fun v y _ _ hv => leads_pure hv
  | list cell =>
    refine leads_look ?_
    have hitems := items_of_list hw.sound cell
    cases hlist : w.heap.items cell with
    | nil => exact leads_pure hform
    | cons head forms =>
      rw [hlist] at hitems
      obtain ⟨hhead, hforms⟩ := givesAll_cons.mp hitems
      refine leads_look ?_
      cases specialOf? w.heap head with
      | some name => exact leads_special heval steps name hw hframe hforms
      | none => exact leads_call heval happly hlibrary steps hw hframe hhead hforms
  | _ => exact leads_pure hform

end Calls

end Evaluating

/-- What one turn keeps, all turns keep. -/
theorem leads_loop {may : Licence} {turn : Value → FrameId → Run Turn}
    (hturn : ∀ (w : World) form frame, w.Ready may → w.heap.Has form → w.Opens may frame →
      Leads may w (Continues may) (turn form frame w)) (steps : Nat) :
    Behaves may (loop turn steps) := by
  induction steps with
  | zero => exact fun w form frame hw hform hframe => leads_exhausted
  | succ steps ih =>
    intro w form frame hw hform hframe
    refine (hturn w form frame hw hform hframe).bind hw fun result u hu hwu hresult => ?_
    cases result with
    | done v => exact leads_pure hresult
    | next form frame => exact ih u form frame hu hresult.1 hresult.2

section Bounds

variable {may : Licence} [library : Library] {eval : Evaluation}

theorem obeys_apply (hlibrary : library.Behaves may) (heval : Behaves may eval) (steps : Nat) :
    Obeys may (apply eval steps) := by
  induction steps with
  | zero => exact fun w f args hw hf hargs => leads_exhausted
  | succ steps ih =>
    exact fun w f args hw hf hargs => leads_applyOnce heval ih hlibrary steps hw hargs

/-- Evaluation behaves when the library does, whatever the bounds. -/
theorem behaves_eval (hlibrary : library.Behaves may) (limit depth : Nat) :
    Behaves may (Evaluator.eval limit depth) := by
  induction depth with
  | zero => exact fun w form frame hw hform hframe => leads_exhausted
  | succ depth ih =>
    intro w form frame hw hform hframe
    refine leads_loop (fun w form frame hw hform hframe => ?_) limit w form frame hw hform hframe
    exact leads_turn ih (obeys_apply hlibrary ih limit) hlibrary limit hw hform hframe

end Bounds

end Evaluator

end Lisp
