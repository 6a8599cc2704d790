import Lisp.Proofs.Session.Macros

/-!
The macros `or` and `and`. A call on one form stands for that form; a call on more forms stands for
a `let*` that binds the value of the first to a generated symbol and goes on with a call on the
others, where the value does not settle the matter. What is made on the way is new, and one symbol
is generated.
-/
namespace Lisp

/-- The macros that go on with the next form depending on the value of the one before. -/
inductive Connective
  | disjunction
  | conjunction
  deriving DecidableEq

namespace Connective

open Meaning Ending Evaluator Macro

def source : Connective → String
  | .disjunction => Prelude.disjunction
  | .conjunction => Prelude.conjunction

def name : Connective → Text
  | .disjunction => Text.of "or"
  | .conjunction => Text.of "and"

/-- What the generated symbols start with. -/
def stem : Connective → Text
  | .disjunction => Text.of "or__"
  | .conjunction => Text.of "and__"

/-- What a call on no forms stands for. -/
def empty : Connective → Datum
  | .disjunction => .nil
  | .conjunction => .bool true

/-- What the value of a form chooses between: that value, and a call on the forms that follow. -/
def branches {α : Type} (value again : α) : Connective → List α
  | .disjunction => [value, again]
  | .conjunction => [again, value]

def valueName : Text := Text.of "tmp"

def hole (d : Datum) : Datum := .call Special.unquote.name [d]

/-- What a call on two forms or more stands for. -/
def template (k : Connective) : Datum :=
  .call Special.letStar.name
    [.group .round [hole (.symbol valueName), hole (onForms .first)],
      .call Special.conditional.name (hole (.symbol valueName) ::
        k.branches (hole (.symbol valueName))
          (.call k.name [.call Special.splice.name [onForms .rest]]))]

/-- The case of two forms or more. -/
def general (k : Connective) : Datum :=
  .call Special.letStar.name
    [.group .round [.symbol valueName, .call Operation.gensym.name [.string k.stem]],
      .call Special.quasiquote.name [k.template]]

def body (k : Connective) : Datum :=
  .call Special.conditional.name [onForms .isEmpty, k.empty,
    .call Special.conditional.name [.call Operation.equal.name [.int 1, onForms .count],
      onForms .first, k.general]]

/-- The natives that the macros call. -/
def operations : List Operation := [.isEmpty, .equal, .count, .first, .rest, .gensym]

set_option maxRecDepth 10000 in
theorem read_source (k : Connective) : Datum.read (Text.of k.source) =
    .ok (.call Special.defineMacro.name [.symbol k.name, .call Special.function.name
      [.group .round [.symbol (Text.of "&"), .symbol formsName], k.body]]) := by
  cases k <;> rfl

/-- The macro is the one that the prelude defines. -/
structure IsMacro (k : Connective) (h : Heap) (c : Closure) : Prop where
  scope : c.scope = World.root
  params : c.params = []
  isMacro : c.isMacro = true
  text : ∃ tail body, c.tail = some tail ∧ h.Unfolds c.body body ∧
    Datum.read (Text.of k.source) = .ok (.call Special.defineMacro.name
      [.symbol k.name, .call Special.function.name
        [.group .round [.symbol (Text.of "&"), .symbol tail], body]])

theorem IsMacro.body {k : Connective} {h : Heap} {c : Closure} (hc : k.IsMacro h c) :
    c.tail = some formsName ∧ h.Unfolds c.body k.body := by
  obtain ⟨tail, body, htail, hbody, htext⟩ := hc.text
  cases k.read_source.symm.trans htext
  exact ⟨htail, hbody⟩

/-- The outermost frame binds the natives that the macros call as it did at the start. -/
def HasOperations (w : World) : Prop :=
  ∀ op ∈ operations, ∃ f, w.scopes.get? World.root op.name = some f ∧
    w.heap.callee f = .native (.operation op)

section Expanding

variable {k : Connective} {w u x : World} {frame inner : FrameId} {form : Value}
  {forms : List Value} {c : Closure}

theorem gensym_call {v : Value} {stem : Text} (hv : w.heap.Unfolds v (.string stem)) :
    Operation.gensym.call [v] w = .ok (.symbol (stem ++ Text.ofNat (w.generated + 1)))
      { w with generated := w.generated + 1 } := by
  obtain ⟨rope, hcontent, rfl⟩ := hv
  simp [Operation.call, Operation.answer, Answer.gensym, Answer.string,
    Heap.content_of_content? hcontent, Answer.perform, Reply.perform]

section Filling

variable {t v : Value} {d : Datum} {ds : List Datum} {r : Ending Value}

theorem call_ne_call {name other : Text} (hne : name ≠ other) (es : List Datum) :
    Datum.call name ds ≠ .call other es := by
  simp [Datum.call, hne]

theorem fills_symbol {name : Text} (ht : w.heap.Unfolds t (.symbol name)) :
    Fills w t frame (.ok t w) := by
  have hcontent := Heap.content_of_content? ht
  exact .constant (holeForms?_eq_none ht (by simp [Datum.call])) (by simp [hcontent])
    (by simp [hcontent]) (by simp [hcontent])

theorem fills_hole (ht : w.heap.Unfolds t (hole d)) :
    ∃ form, w.heap.Unfolds form d ∧ ∀ r, Evaluates w form frame r → Fills w t frame r := by
  obtain ⟨_, hhole, hforms⟩ := holeForms?_of_unfolds ht
  rcases hforms with _ | ⟨hform, _ | _⟩
  exact ⟨_, hform, fun r => .hole hhole⟩

theorem fills_round (ht : w.heap.Unfolds t (.group .round ds))
    (hds : ∀ forms, Datum.group .round ds ≠ .call Special.unquote.name forms) :
    ∃ items, List.Forall₂ w.heap.Unfolds items ds ∧
      ∀ r, FillsAll w items frame r → Fills w t frame (r.andThen Run.makeList) := by
  obtain ⟨cell, hlist, hitems⟩ := Heap.items_of_unfolds ht
  exact ⟨_, hitems, fun r => .list (holeForms?_eq_none ht hds) hlist⟩

/-- An element that is no splice. -/
theorem fillsAll_cons {items more : List Value} (ht : w.heap.Unfolds t d)
    (hd : ∀ forms, d ≠ .call Special.splice.name forms) (hfirst : Fills w t frame (.ok v u))
    (hmore : FillsAll u items frame (.ok more x)) :
    FillsAll w (t :: items) frame (.ok (v :: more) x) :=
  .cons (holeForms?_eq_none ht hd) hfirst hmore

/-- The call on the forms behind the first. -/
theorem fills_again (hsees : Sees operations w frame forms)
    (ht : w.heap.Unfolds t (.call k.name [.call Special.splice.name [onForms .rest]])) :
    ∃ again head z u, Fills w t frame (.ok again u) ∧ w.Enlarges forms z ∧
      z.heap.Unfolds head (.symbol k.name) ∧
      Run.makeList (head :: forms.tail) z = .ok again u := by
  have hname : k.name ≠ Special.unquote.name := by cases k <;> decide
  obtain ⟨_, hitems, hfills⟩ := fills_round ht (call_ne_call hname)
  rcases hitems with _ | @⟨head, _, _, _, hhead, _ | ⟨hsplice, _ | _⟩⟩
  obtain ⟨_, hhole, hparts⟩ := holeForms?_of_unfolds hsplice
  rcases hparts with _ | ⟨hrest, _ | _⟩
  obtain ⟨v, hv, hcall⟩ := hsees.evaluates_onForms (by decide) hrest
  obtain ⟨seq, hseq, hlist⟩ := rest_call hv
  obtain ⟨rest, z, hmake⟩ : ∃ rest z, Run.onHeap (·.makeSequence .list seq none) w = .ok rest z :=
    ⟨_, _, rfl⟩
  have hrestParts := (World.AddsOnly.makeSequence hmake).2
  have hadds : w.Enlarges forms z := .makeSequence hmake fun hforms v hv =>
    hforms v (List.mem_of_mem_tail (hseq ▸ hv))
  rw [hlist, hmake] at hcall
  have hspliced : splicedItems z.heap rest = .ok forms.tail := by
    obtain ⟨cell, hcontent, hcell⟩ := Heap.elements_of_parts? hrestParts
    simp [splicedItems, hcontent, Heap.items, hcell, hseq]
  have hall := fillsAll_cons hhead (by simp [Datum.call]) (fills_symbol hhead)
    (.splice hhole hcall hspliced .nil)
  rw [List.append_nil] at hall
  obtain ⟨again, u, hagain⟩ : ∃ again u, Run.makeList (head :: forms.tail) z = .ok again u :=
    ⟨_, _, rfl⟩
  exact ⟨again, head, z, u, hagain ▸ hfills _ hall, hadds, hadds.heap.unfolds hhead, hagain⟩

/-- The choice between the value and the call on the forms behind the first. -/
theorem fillsAll_branches (hsees : Sees operations w frame forms) {value : Value}
    (hvalue : w.scopes.find? frame valueName = some value) {items : List Value}
    (hitems : List.Forall₂ w.heap.Unfolds items (k.branches (hole (.symbol valueName))
      (.call k.name [.call Special.splice.name [onForms .rest]]))) :
    ∃ again head z u, FillsAll w items frame (.ok (k.branches value again) u) ∧
      w.Enlarges forms z ∧ z.heap.Unfolds head (.symbol k.name) ∧
      Run.makeList (head :: forms.tail) z = .ok again u := by
  have hplain : Special.unquote.name ≠ Special.splice.name := by decide
  have hname : k.name ≠ Special.splice.name := by cases k <;> decide
  -- The value is the same before and after the call was made.
  have hholes : ∀ {u item}, w.AddsOnly u → w.heap.Unfolds item (hole (.symbol valueName)) →
      Fills u item frame (.ok value u) := by
    intro u item hadds hitem
    obtain ⟨form, hform, hfills⟩ := fills_hole (hadds.heap.unfolds hitem)
    exact hfills _ (evaluates_symbol hform ((hadds.find? hsees.path).trans hvalue))
  cases k with
  | disjunction =>
    rcases hitems with _ | ⟨hhole, _ | ⟨hagain, _ | _⟩⟩
    obtain ⟨again, head, z, u, hfills, hmade⟩ := fills_again hsees hagain
    exact ⟨again, head, z, u, fillsAll_cons hhole (call_ne_call hplain) (hholes (.refl w) hhole)
      (fillsAll_cons hagain (call_ne_call hname) hfills .nil), hmade⟩
  | conjunction =>
    rcases hitems with _ | ⟨hagain, _ | ⟨hhole, _ | _⟩⟩
    obtain ⟨again, head, z, u, hfills, hadds, hhead, hmake⟩ := fills_again hsees hagain
    have hwu := hadds.toAddsOnly.trans (World.AddsOnly.makeSequence hmake).1
    exact ⟨again, head, z, u, fillsAll_cons hagain (call_ne_call hname) hfills
      (fillsAll_cons (hwu.heap.unfolds hhole) (call_ne_call hplain) (hholes hwu hhole) .nil),
      hadds, hhead, hmake⟩

/-- A `let*` is made that binds the symbol to the value of a form and chooses between that value and
the call on the other forms. It is made last, before it the choice, and before that the call; all
else that it is made of is there before. -/
structure MakesChoice (k : Connective) (z u : World) (v symbol first : Value)
    (others : List Value) (bindings choice again : Value) : Prop where
  pair : z.heap.parts? bindings = some (.round, [symbol, first])
  made : ∃ head choiceHead againHead x y, Run.makeList (againHead :: others) z = .ok again x ∧
    Run.makeList (choiceHead :: symbol :: k.branches symbol again) x = .ok choice y ∧
    Run.makeList [head, bindings, choice] y = .ok v u ∧
    z.heap.Unfolds head (.symbol Special.letStar.name) ∧
    z.heap.Unfolds choiceHead (.symbol Special.conditional.name) ∧
    z.heap.Unfolds againHead (.symbol k.name)

theorem MakesChoice.isForm {z : World} {symbol first bindings choice again : Value}
    {others : List Value} (hmade : k.MakesChoice z u v symbol first others bindings choice again) :
    z.AddsOnly u ∧ u.heap.IsForm v Special.letStar.name [bindings, choice] ∧
      u.heap.parts? bindings = some (.round, [symbol, first]) ∧
      u.heap.IsForm choice Special.conditional.name (symbol :: k.branches symbol again) ∧
      u.heap.IsForm again k.name others := by
  obtain ⟨head, choiceHead, againHead, x, y, hagain, hchoice, hv, hhead, hchoiceHead, hagainHead⟩ :=
    hmade.made
  obtain ⟨hzx, hagainParts⟩ := World.AddsOnly.makeSequence hagain
  obtain ⟨hxy, hchoiceParts⟩ := World.AddsOnly.makeSequence hchoice
  obtain ⟨hyu, hparts⟩ := World.AddsOnly.makeSequence hv
  rw [Sequence.toList_ofList] at hagainParts hchoiceParts hparts
  have hzu := (hzx.trans hxy).trans hyu
  exact ⟨hzu, ⟨head, hparts, hzu.heap.unfolds hhead⟩, hzu.heap.parts? hmade.pair,
    ⟨choiceHead, hyu.heap.parts? hchoiceParts, hzu.heap.unfolds hchoiceHead⟩,
    againHead, (hxy.trans hyu).heap.parts? hagainParts, hzu.heap.unfolds hagainHead⟩

/-- The bindings of the template: a symbol, and the first form. -/
theorem fills_bindings (hsees : Sees operations w frame forms) {symbol : Text}
    (hvalue : w.scopes.find? frame valueName = some (.symbol symbol))
    (ht : w.heap.Unfolds t (.group .round [hole (.symbol valueName), hole (onForms .first)])) :
    ∃ bindings u, Fills w t frame (.ok bindings u) ∧ w.Enlarges forms u ∧
      u.heap.parts? bindings = some (.round, [.symbol symbol, forms.headD .nil]) := by
  obtain ⟨_, hpair, hfills⟩ := fills_round ht (by simp [Datum.call, hole])
  rcases hpair with _ | ⟨hsymbol, _ | ⟨hfirst, _ | _⟩⟩
  obtain ⟨symbolForm, hsymbolForm, hsymbolFill⟩ := fills_hole hsymbol
  obtain ⟨firstForm, hfirstForm, hfirstFill⟩ := fills_hole hfirst
  obtain ⟨list, hlist, hfirstCall⟩ := hsees.evaluates_onForms (by decide) hfirstForm
  rw [first_call hlist] at hfirstCall
  have hall := hfills _ (fillsAll_cons hsymbol (call_ne_call (by decide))
    (hsymbolFill _ (evaluates_symbol hsymbolForm hvalue))
    (fillsAll_cons hfirst (call_ne_call (by decide)) (hfirstFill _ hfirstCall) .nil))
  obtain ⟨bindings, u, hmake⟩ : ∃ bindings u,
      Run.makeList [.symbol symbol, forms.headD .nil] w = .ok bindings u := ⟨_, _, rfl⟩
  rw [andThen_ok, hmake] at hall
  have hparts := (World.AddsOnly.makeSequence hmake).2
  rw [Sequence.toList_ofList] at hparts
  refine ⟨bindings, u, hall, .makeSequence hmake fun hforms => ?_, hparts⟩
  rw [Sequence.toList_ofList]
  exact List.forall_mem_cons.mpr ⟨trivial, List.forall_mem_singleton.mpr hforms.headD⟩

/-- The choice of the template, which is made right behind the call on the other forms. -/
theorem fills_choice (hsees : Sees operations w frame forms) {value : Value}
    (hvalue : w.scopes.find? frame valueName = some value)
    (ht : w.heap.Unfolds t (.call Special.conditional.name (hole (.symbol valueName) ::
      k.branches (hole (.symbol valueName))
        (.call k.name [.call Special.splice.name [onForms .rest]])))) :
    ∃ choice again head againHead z x u, Fills w t frame (.ok choice u) ∧ w.Enlarges forms z ∧
      Run.makeList (againHead :: forms.tail) z = .ok again x ∧
      Run.makeList (head :: value :: k.branches value again) x = .ok choice u ∧
      z.heap.Unfolds head (.symbol Special.conditional.name) ∧
      z.heap.Unfolds againHead (.symbol k.name) := by
  obtain ⟨_, hparts, hfills⟩ := fills_round ht (call_ne_call (by decide))
  rcases hparts with _ | @⟨head, _, _, _, hhead, _ | ⟨hcondition, hbranches⟩⟩
  obtain ⟨conditionForm, hconditionForm, hconditionFill⟩ := fills_hole hcondition
  obtain ⟨again, againHead, z, x, hbranchesFill, hadds, hagainHead, hmakeAgain⟩ :=
    fillsAll_branches hsees hvalue hbranches
  have hall := hfills _ (fillsAll_cons hhead (by simp [Datum.call])
    (fills_symbol hhead) (fillsAll_cons hcondition (call_ne_call (by decide))
      (hconditionFill _ (evaluates_symbol hconditionForm hvalue)) hbranchesFill))
  obtain ⟨choice, u, hmake⟩ : ∃ choice u,
      Run.makeList (head :: value :: k.branches value again) x = .ok choice u := ⟨_, _, rfl⟩
  rw [andThen_ok, hmake] at hall
  exact ⟨choice, again, head, againHead, z, x, u, hall, hadds, hmakeAgain, hmake,
    hadds.heap.unfolds hhead, hagainHead⟩

/-- The template, filled. -/
theorem fills_template (hsees : Sees operations w frame forms) {symbol : Text}
    (hvalue : w.scopes.find? frame valueName = some (.symbol symbol))
    (ht : w.heap.Unfolds t k.template) :
    ∃ v z u bindings choice again, Fills w t frame (.ok v u) ∧ w.Enlarges forms z ∧
      k.MakesChoice z u v (.symbol symbol) (forms.headD .nil) forms.tail bindings choice again := by
  obtain ⟨_, hitems, hfills⟩ := fills_round ht (call_ne_call (by decide))
  rcases hitems with _ | @⟨head, _, _, _, hhead, _ | ⟨hbindings, _ | ⟨hchoice, _ | _⟩⟩⟩
  obtain ⟨bindings, y, hbindingsFill, hwy, hpair⟩ := fills_bindings hsees hvalue hbindings
  have hchoice := hwy.heap.unfolds hchoice
  obtain ⟨choice, again, choiceHead, againHead, z, x, x', hchoiceFill, hyz, hmakeAgain,
    hmakeChoice, hchoiceHead, hagainHead⟩ :=
    fills_choice (hsees.adds hwy.toAdds) ((hwy.find? hsees.path).trans hvalue) hchoice
  have hall := hfills _ (fillsAll_cons hhead (by simp [Datum.call]) (fills_symbol hhead)
    (fillsAll_cons hbindings (by simp [Datum.call, hole]) hbindingsFill
      (fillsAll_cons hchoice (call_ne_call (by decide)) hchoiceFill .nil)))
  obtain ⟨v, u, hmake⟩ : ∃ v u, Run.makeList [head, bindings, choice] x' = .ok v u := ⟨_, _, rfl⟩
  rw [andThen_ok, hmake] at hall
  have hwz := hwy.trans hyz
  exact ⟨v, z, u, bindings, choice, again, hall, hwz, hyz.heap.parts? hpair, head, choiceHead,
    againHead, x, x', hmakeAgain, hmakeChoice, hmake, hwz.heap.unfolds hhead, hchoiceHead,
    hagainHead⟩

end Filling

/-- The symbol that a call of `gensym` with this stem makes next. -/
def nextSymbol (k : Connective) (w : World) : Text := k.stem ++ Text.ofNat (w.generated + 1)

/-- A symbol is generated in a frame that binds nothing yet. -/
theorem evaluates_gensym (hsees : Sees operations w frame forms)
    (hnew : Run.newFrame (some frame) {} w = .ok inner u)
    (hform : w.heap.Unfolds form (.call Operation.gensym.name [.string k.stem])) :
    Evaluates u form inner (.ok (.symbol (k.nextSymbol w))
      { u with generated := w.generated + 1 }) := by
  obtain ⟨hadds, hheap, hframe⟩ := World.Adds.newFrame hnew
  have hempty : Sees operations u inner forms :=
    (hsees.adds hadds).inside (by rw [hframe, hadds.path hsees.path]; rfl) (by simp) (by simp)
  rw [← hheap] at hform
  obtain ⟨_, hstem, hcall⟩ := hempty.evaluates_operation (by decide) hform
  rcases hstem with _ | ⟨hstem, _ | _⟩
  have hgensym := hcall (.cons (evaluates_string hstem) .nil)
  have hnumber : u.generated = w.generated := by
    cases hnew
    rfl
  rwa [gensym_call hstem, hnumber] at hgensym

/-- The forms are seen from where the symbol is bound, and so is the symbol. -/
theorem sees_bound (hsees : Sees operations w frame forms) {symbol : Text}
    (hnew : Run.newFrame (some frame) {} w = .ok inner u) :
    w.Enlarges forms (u.binding inner valueName (.symbol symbol)) ∧
      Sees operations (u.binding inner valueName (.symbol symbol)) inner forms ∧
      (u.binding inner valueName (.symbol symbol)).scopes.find? inner valueName =
        some (.symbol symbol) := by
  obtain ⟨hadds, hbinds⟩ : w.AddsOnly _ ∧ World.Binds _ inner frame valueName (.symbol symbol) :=
    World.Binds.define hsees.path hnew (.refl u)
  have hframe : w.Enlarges forms u :=
    .newFrame hnew (hsees.path frame List.mem_cons_self) (by simp)
  have hother : ∀ name, valueName ≠ name →
      (({} : Bindings).put valueName (.symbol symbol)).get? name = none :=
    fun name hname => by rw [Bindings.get?_put, if_neg hname, Bindings.get?_empty]
  refine ⟨⟨hadds, fun hforms => (hframe.steps hforms).tail (.define _ trivial trivial)⟩, ?_, ?_⟩
  · exact (hsees.adds hadds.toAdds).inside hbinds.frame
      (fun op hop => hother op.name (by revert op; decide)) (hother formsName (by decide))
  · rw [hbinds.find?, if_pos rfl]

/-- Two forms or more: a symbol is generated, and the template is filled. -/
theorem evaluates_general (hsees : Sees operations w frame forms)
    (hform : w.heap.Unfolds form k.general) :
    ∃ v z u bindings choice again, Evaluates w form frame (.ok v u) ∧
      { w with generated := w.generated + 1 }.Enlarges forms z ∧
      k.MakesChoice z u v (.symbol (k.nextSymbol w)) (forms.headD .nil) forms.tail
        bindings choice again := by
  obtain ⟨_, hspecial, hparts⟩ := isSpecial_of_unfolds hform
  rcases hparts with _ | ⟨hbindings, _ | ⟨hquoted, _ | _⟩⟩
  obtain ⟨_, hpair, hpairParts⟩ := Heap.unfolds_group.mp hbindings
  rcases hpairParts with _ | ⟨hsymbol, _ | ⟨hinit, _ | _⟩⟩
  obtain ⟨inner, y, hnew⟩ : ∃ inner y, Run.newFrame (some frame) {} w = .ok inner y := ⟨_, _, rfl⟩
  have hgensym := evaluates_gensym hsees hnew hinit
  -- The frame might as well have been made behind the symbol.
  have hnew' : Run.newFrame (some frame) {} { w with generated := w.generated + 1 } =
      .ok inner { y with generated := w.generated + 1 } := by
    cases hnew
    rfl
  have hcounted : w.Adds { w with generated := w.generated + 1 } := { World.Adds.refl w with }
  obtain ⟨hadds, hbound, hfound⟩ := sees_bound (hsees.adds hcounted) hnew'
  obtain ⟨_, hquasi, htemplate⟩ := isSpecial_of_unfolds (hadds.heap.unfolds hquoted)
  rcases htemplate with _ | ⟨htemplate, _ | _⟩
  obtain ⟨v, z, u, bindings, choice, again, hfills, hmore, hmade⟩ :=
    fills_template hbound hfound htemplate
  refine ⟨v, z, u, bindings, choice, again, ?_, hadds.trans hmore, hmade⟩
  exact (evaluates_letStar_iff hspecial (Heap.elements?_of_parts? hpair)
    (Heap.content_of_content? hsymbol) hnew hgensym).mpr (.quasiquote hquasi hfills)

/-- The macro goes by how many forms there are. -/
theorem evaluates_body (hsees : Sees operations w frame forms) (hforms : forms ≠ [])
    (hform : w.heap.Unfolds form k.body) :
    ∃ u first general, w.Enlarges forms u ∧ u.heap.Unfolds first (onForms .first) ∧
      u.heap.Unfolds general k.general ∧
      ∀ {r}, Evaluates u (if (1 : Int64) == .ofNat forms.length then first else general) frame r →
        Evaluates w form frame r := by
  obtain ⟨_, hspecial, hparts⟩ := isSpecial_of_unfolds hform
  rcases hparts with _ | ⟨hempty, _ | ⟨-, _ | ⟨hrest, _ | _⟩⟩⟩
  obtain ⟨list, hlist, hemptyCall⟩ := hsees.evaluates_onForms (by decide) hempty
  rw [isEmpty_call hlist, List.isEmpty_eq_false_iff.mpr hforms] at hemptyCall
  obtain ⟨_, hinner, hparts⟩ := isSpecial_of_unfolds hrest
  rcases hparts with _ | ⟨hone, _ | @⟨first, _, _, _, hfirst, hparts⟩⟩
  rcases hparts with _ | @⟨general, _, _, _, hgeneral, _ | _⟩
  -- The number of the forms is compared with one.
  obtain ⟨_, hargs, hequal⟩ := hsees.evaluates_operation (by decide) hone
  rcases hargs with _ | @⟨one, _, _, _, honeForm, _ | ⟨hcount, _ | _⟩⟩
  obtain ⟨list, hlist, hcountCall⟩ := hsees.evaluates_onForms (by decide) hcount
  rw [count_call hlist] at hcountCall
  obtain ⟨count, u, hmake⟩ : ∃ count u, Run.make (.int (.ofNat forms.length)) w = .ok count u :=
    ⟨_, _, rfl⟩
  have hadds : w.Enlarges forms u := .makeInt hmake
  have hcountInt : u.heap.Unfolds count (.int (.ofNat forms.length)) := (World.Adds.make hmake).2.1
  rw [hmake] at hcountCall
  have hcompare := hequal (.cons (evaluates_int honeForm) (.cons hcountCall .nil))
  rw [equal_ints (hadds.heap.unfolds honeForm) hcountInt] at hcompare
  refine ⟨u, first, general, hadds, hadds.heap.unfolds hfirst, hadds.heap.unfolds hgeneral,
    fun hr => ?_⟩
  refine (evaluates_conditional_iff hspecial hemptyCall).mpr ?_
  refine (evaluates_conditional_iff hinner hcompare).mpr ?_
  cases hsingle : (1 : Int64) == .ofNat forms.length <;> rw [hsingle] at hr <;> exact hr

theorem IsMacro.bindClosure (hc : k.IsMacro w.heap c) (hops : HasOperations w)
    (hroot : w.scopes.HasPath World.root) (forms : List Value) :
    ∃ inner u, Run.bindClosure c forms w = .ok inner u ∧ w.Enlarges forms u ∧
      Sees operations u inner forms ∧ u.heap.Unfolds c.body k.body := by
  obtain ⟨htail, hbody⟩ := hc.body
  obtain ⟨inner, u, hbind, hadds, hsees⟩ :=
    exists_bindClosure hc.scope hc.params htail hops hroot forms
  exact ⟨inner, u, hbind, hadds, hsees, hadds.heap.unfolds hbody⟩

/-- A call on no forms stands for nil or true. -/
theorem IsMacro.expandsOnce_none (hc : k.IsMacro w.heap c) (hops : HasOperations w)
    (hroot : w.scopes.HasPath World.root) :
    ∃ v u, ExpandsOnce w c [] (.ok v u) ∧ w.Enlarges [] u ∧ u.heap.Unfolds v k.empty := by
  obtain ⟨inner, x, hbind, hadds, hsees, hbody⟩ := hc.bindClosure hops hroot []
  obtain ⟨_, hspecial, hparts⟩ := isSpecial_of_unfolds hbody
  rcases hparts with _ | ⟨hempty, _ | @⟨none, _, _, _, hnone, _ | ⟨_, _ | _⟩⟩⟩
  obtain ⟨list, hlist, hcall⟩ := hsees.evaluates_onForms (by decide) hempty
  rw [isEmpty_call hlist] at hcall
  have hconstant : Evaluates x none inner (.ok none x) := by
    refine .constant ?_
    cases k <;> simp [IsConstant, Heap.content_of_content? hnone]
  obtain ⟨log, hexpands⟩ := exists_expandsOnce hbind
    ((evaluates_conditional_iff hspecial hcall).mpr hconstant)
  exact ⟨none, _, hexpands, hadds.logged log, hnone⟩

/-- A call on one form stands for the form. -/
theorem IsMacro.expandsOnce_single (hc : k.IsMacro w.heap c) (hops : HasOperations w)
    (hroot : w.scopes.HasPath World.root) (first : Value) :
    ∃ u, ExpandsOnce w c [first] (.ok first u) ∧ w.Enlarges [first] u := by
  obtain ⟨inner, y, hbind, hadds, hsees, hbody⟩ := hc.bindClosure hops hroot [first]
  obtain ⟨x, firstForm, _, hmore, hfirst, -, hend⟩ := evaluates_body hsees (by simp) hbody
  obtain ⟨list, hlist, hcall⟩ := (hsees.adds hmore.toAdds).evaluates_onForms (by decide) hfirst
  rw [first_call hlist] at hcall
  obtain ⟨log, hexpands⟩ := exists_expandsOnce hbind (hend hcall)
  exact ⟨_, hexpands, (hadds.trans hmore).logged log⟩

/-- A call on more forms stands for a choice between the value of the first and a call on the
others. -/
theorem IsMacro.expandsOnce_general (hc : k.IsMacro w.heap c) (hops : HasOperations w)
    (hroot : w.scopes.HasPath World.root) (first second : Value) {others : List Value}
    (hcount : Int64.ofNat (others.length + 2) ≠ 1) :
    ∃ v z u log bindings choice again,
      ExpandsOnce w c (first :: second :: others) (.ok v { u with log := log }) ∧
      { w with generated := w.generated + 1 }.Enlarges (first :: second :: others) z ∧
      k.MakesChoice z u v (.symbol (k.nextSymbol w)) first (second :: others)
        bindings choice again := by
  obtain ⟨inner, y, hbind, hadds, hsees, hbody⟩ :=
    hc.bindClosure hops hroot (first :: second :: others)
  obtain ⟨x, _, general, hmore, -, hgeneral, hend⟩ := evaluates_body hsees (by simp) hbody
  obtain ⟨v, z, u, bindings, choice, again, hchoice, honly, hmade⟩ :=
    evaluates_general (hsees.adds hmore.toAdds) hgeneral
  have hmany : ((1 : Int64) == .ofNat (first :: second :: others).length) = false :=
    beq_eq_false_iff_ne.mpr hcount.symm
  rw [hmany] at hend
  have hwx := hadds.trans hmore
  rw [nextSymbol, hwx.generated] at hmade
  rw [hwx.generated] at honly
  obtain ⟨log, hexpands⟩ := exists_expandsOnce hbind (hend hchoice)
  exact ⟨v, z, u, log, bindings, choice, again, hexpands, (hwx.numbered _).trans honly, hmade⟩

end Expanding

end Connective

end Lisp