import Lisp.Evaluator.Basic

/-!
Quasiquoted templates. A list that starts with `unquote` stands for the value of its form; an
element that is a list starting with `splice-unquote` stands for the elements of its value. The keys
of a map are kept as they are.
-/
namespace Lisp.Evaluator

/-- The forms behind the head of a list that starts with the given special symbol. -/
def holeForms? (special : Special) (h : Heap) (v : Value) : Option (List Value) :=
  match h.content v with
  | .list cell =>
    match h.items cell with
    | head :: rest => if h.isSymbol head special.name then some rest else none
    | [] => none
  | _ => none

/-- The elements of a list; anything else has none. -/
def listItems (h : Heap) (v : Value) : List Value :=
  match h.content v with
  | .list cell => h.items cell
  | _ => []

/-- Whether a list starts with a special symbol. -/
def startsWith (special : Special) (items : List Value) : Run Bool := do
  if items.length = 0 then pure false
  else
    let head ← Run.check (fetch items 0)
    Run.look (·.isSymbol head special.name)

/-- The form in a list that starts with a special symbol. -/
def holeForm (special : Special) (items : List Value) : Run Value :=
  if items.length ≠ 2 then Run.malformed special .oneForm else Run.check (fetch items 1)

/-- The elements that the value of a splice stands for. -/
def splicedItems (h : Heap) (v : Value) : Except Fault (List Value) :=
  match h.content v with
  | .list cell | .vector cell => .ok (h.items cell)
  | .nil => .ok []
  | content => .error (.notSpliceable content.kind)

/-- Fills the elements of a sequence, where `fill` fills what is no splice. -/
def fillItems (eval : Evaluation) (fill : Value → Run Value) (frame : FrameId) :
    List Value → Run (List Value)
  | [] => pure []
  | item :: rest => do
    let sub ← Run.look (listItems · item)
    if ← startsWith .splice sub then
      let form ← holeForm .splice sub
      let v ← eval form frame
      let spliced ← Run.require (splicedItems · v)
      let more ← fillItems eval fill frame rest
      pure (spliced ++ more)
    else
      let v ← fill item
      let more ← fillItems eval fill frame rest
      pure (v :: more)

/-- Fills the values of a map. -/
def fillEntries (fill : Value → Run Value) : List (Value × Value) → Run (List Value)
  | [] => pure []
  | (key, value) :: rest => do
    let v ← fill value
    let more ← fillEntries fill rest
    pure (key :: v :: more)

/-- Fills a template; `steps` bounds how deep it may nest. -/
def fill (eval : Evaluation) (frame : FrameId) : (steps : Nat) → Value → Run Value
  | 0, _ => throw .exhausted
  | steps + 1, template => do
    match ← Run.look (·.content template) with
    | .list cell =>
      let items ← Run.look (·.items cell)
      if ← startsWith .unquote items then
        let form ← holeForm .unquote items
        eval form frame
      else Run.makeList (← fillItems eval (fill eval frame steps) frame items)
    | .vector cell =>
      let items ← Run.look (·.items cell)
      Run.makeVector (← fillItems eval (fill eval frame steps) frame items)
    | .map entries => Run.makeMap (← fillEntries (fill eval frame steps) entries.toList)
    | _ => pure template

section Equations

variable (eval : Evaluation) (frame : FrameId)

theorem holeForms?_eq (special : Special) (h : Heap) (v : Value) :
    holeForms? special h v =
      match listItems h v with
      | head :: rest => if h.isSymbol head special.name then some rest else none
      | [] => none := by
  unfold holeForms? listItems
  cases h.content v with
  | list cell => cases h.items cell <;> rfl
  | _ => rfl

/-- To see whether a list starts with the symbol and to take its form, is to take the forms behind
the symbol. -/
theorem startsWith_bind {α : Type} (special : Special) (v : Value) (yes : Value → Run α)
    (no : Run α) (w : World) :
    (do if ← startsWith special (listItems w.heap v) then
          yes (← holeForm special (listItems w.heap v))
        else no) w =
      match holeForms? special w.heap v with
      | some [form] => yes form w
      | some _ => Run.malformed special .oneForm w
      | none => no w := by
  rw [holeForms?_eq]
  cases listItems w.heap v with
  | nil => rfl
  | cons head rest =>
    have hstarts : startsWith special (head :: rest) = Run.look (·.isSymbol head special.name) := by
      simp [startsWith]
    rw [hstarts, Run.look_bind]
    cases hhead : w.heap.isSymbol head special.name with
    | false => simp [hhead]
    | true =>
      simp only [hhead, if_true]
      rcases rest with _ | ⟨form, _ | ⟨x, more⟩⟩
      · rfl
      · simp [holeForm]
      · simp only [holeForm, List.length_cons, ne_eq, Nat.reduceEqDiff, not_false_eq_true, if_true]
        rfl

theorem fillItems_cons (fill : Value → Run Value) (item : Value) (rest : List Value) :
    fillItems eval fill frame (item :: rest) = (do
      match ← Run.look (holeForms? .splice · item) with
      | some [form] =>
        let v ← eval form frame
        let spliced ← Run.require (splicedItems · v)
        let more ← fillItems eval fill frame rest
        pure (spliced ++ more)
      | some _ => Run.malformed .splice .oneForm
      | none =>
        let v ← fill item
        let more ← fillItems eval fill frame rest
        pure (v :: more)) := by
  funext w
  rw [fillItems, Run.look_bind, startsWith_bind, Run.look_bind]
  rcases holeForms? .splice w.heap item with _ | _ | ⟨form, _ | ⟨x, more⟩⟩ <;> rfl

theorem fill_succ (steps : Nat) (template : Value) :
    fill eval frame (steps + 1) template = (do
      match ← Run.look (holeForms? .unquote · template) with
      | some [form] => eval form frame
      | some _ => Run.malformed .unquote .oneForm
      | none =>
        match ← Run.look (·.content template) with
        | .list cell =>
          let items ← Run.look (·.items cell)
          Run.makeList (← fillItems eval (fill eval frame steps) frame items)
        | .vector cell =>
          let items ← Run.look (·.items cell)
          Run.makeVector (← fillItems eval (fill eval frame steps) frame items)
        | .map entries => Run.makeMap (← fillEntries (fill eval frame steps) entries.toList)
        | _ => pure template) := by
  funext w
  rw [fill, Run.look_bind, Run.look_bind]
  cases htemplate : w.heap.content template with
  | list cell =>
    have hitems : w.heap.items cell = listItems w.heap template := by rw [listItems, htemplate]
    change (Run.look (·.items cell) >>= _) w = _
    rw [Run.look_bind, hitems, startsWith_bind]
    rcases holeForms? .unquote w.heap template with _ | _ | ⟨form, _ | ⟨x, more⟩⟩
    · simp only [Run.look_bind, htemplate, hitems]
    · rfl
    · rfl
    · rfl
  | _ =>
    have hnone : holeForms? .unquote w.heap template = none := by rw [holeForms?, htemplate]
    simp only [hnone, Run.look_bind, htemplate]

end Equations

end Lisp.Evaluator
