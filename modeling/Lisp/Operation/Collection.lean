import Lisp.Operation.Reply
import Lisp.Text.Utf8

/-!
Natives on lists, vectors and hash maps. Where a sequence or a map is wanted, nil stands for the
empty one.
-/
namespace Lisp.Collection

def sequence (name : Text) (h : Heap) (v : Value) : Except Fault (Sequence Value) :=
  match h.content v with
  | .list cell | .vector cell => .ok (h.sequence cell)
  | .nil => .ok .empty
  | _ => Answer.refuse name h "a list or vector" v

def elements (name : Text) (h : Heap) (v : Value) : Except Fault (List Value) := do
  return (← sequence name h v).toList

def entries (name : Text) (h : Heap) (v : Value) : Except Fault Entries :=
  match h.content v with
  | .map entries => .ok entries
  | .nil => .ok .empty
  | _ => Answer.refuse name h "a hash-map" v

/-- The number of elements, entries or characters. -/
def size (name : Text) (h : Heap) (v : Value) : Except Fault Nat :=
  match h.content v with
  | .nil => .ok 0
  | .list cell | .vector cell => .ok (h.sequence cell).size
  | .map entries => .ok entries.size
  | .string s => .ok (s.glyphCount)
  | _ => Answer.refuse name h "a collection" v

def cons (name : Text) (h : Heap) (x coll : Value) : Answer := do
  let items ← sequence name h coll
  return .makeList (items.cons x)

def concat (name : Text) (h : Heap) (args : List Value) : Answer := do
  let parts ← args.mapM (sequence name h)
  return .makeList (parts.foldl .join .empty)

/-- A list grows in place; of a vector a longer copy is made. -/
def conj (name : Text) (h : Heap) (coll : Value) (vs : List Value) : Answer :=
  match h.content coll with
  | .list cell => .ok (.append coll cell vs)
  | .vector cell => .ok (.makeVector ((h.sequence cell).append vs) (h.metadata? coll))
  | .nil => .ok (.makeList (.ofList vs))
  | _ => Answer.refuse name h "a list or vector" coll

def nth (name : Text) (h : Heap) (coll index : Value) : Answer :=
  match h.sequence? coll with
  | none => Answer.refuse name h "a list or vector" coll
  | some items =>
    match h.content index with
    | .int i =>
      Answer.check (items.nth i.toInt) fun
        | some v => .ok (.give v)
        | none => .error (.index name i items.size)
    | _ => Answer.refuse name h "an integer index" index

def first (name : Text) (h : Heap) (coll : Value) : Answer := do
  let items ← sequence name h coll
  Answer.check (items.nth 0) fun v => .ok (.give (v.getD .nil))

/-- All elements but the first, as a list. -/
def rest (name : Text) (h : Heap) (coll : Value) : Answer := do
  let items ← sequence name h coll
  if items.size = 0 then return .makeList .empty
  else Answer.check (slice items 1 items.size) fun items => .ok (.makeList items)

theorem rest_eq (name : Text) (h : Heap) (coll : Value) :
    rest name h coll = do
      let items ← sequence name h coll
      return .makeList (if items.size = 0 then .empty else (items.take items.size).drop 1) := by
  unfold rest
  cases sequence name h coll with
  | error e => rfl
  | ok items =>
    by_cases hsize : items.size = 0
    · simp [bind, Except.bind, hsize]
    · have hslice := slice_of_le items (Nat.one_le_iff_ne_zero.mpr hsize) (Nat.le_refl items.size)
      rw [show ((1 : Nat) : Int) = 1 from rfl] at hslice
      simp [bind, Except.bind, hsize, hslice, pure, Except.pure]

def vec (name : Text) (h : Heap) (coll : Value) : Answer := do
  let items ← sequence name h coll
  return .makeVector items none

def assoc (name : Text) (h : Heap) (coll : Value) (more : List Value) : Answer :=
  if more.length % 2 ≠ 0 then .error (.unpairedArguments name)
  else do
    let entries ← entries name h coll
    return .make (.map (h.assoc entries more))

def dissoc (name : Text) (h : Heap) (coll : Value) (keys : List Value) : Answer := do
  let entries ← entries name h coll
  return .make (.map (h.dissoc entries keys))

def get (name : Text) (h : Heap) (args : List Value) : Answer :=
  if args.length ≠ 2 ∧ args.length ≠ 3 then .error (.argumentsEither name 2 3 args.length)
  else
    Answer.check (fetch args 0) fun coll => do
      let entries ← entries name h coll
      Answer.check (fetch args 1) fun key =>
        match h.get? entries key with
        | some v => .ok (.give v)
        | none =>
          if args.length = 3 then Answer.check (fetch args 2) fun v => .ok (.give v)
          else .ok (.give .nil)

theorem get_eq (name : Text) (h : Heap) (args : List Value) :
    get name h args =
      let found (coll key fallback : Value) : Answer := do
        let entries ← entries name h coll
        return .give ((h.get? entries key).getD fallback)
      match args with
      | [coll, key] => found coll key .nil
      | [coll, key, fallback] => found coll key fallback
      | _ => .error (.argumentsEither name 2 3 args.length) := by
  rcases args with _ | ⟨coll, _ | ⟨key, _ | ⟨fallback, _ | ⟨x, more⟩⟩⟩⟩
  · rfl
  · rfl
  · simp only [get, List.length_cons, List.length_nil, fetch_zero, fetch_one, Answer.check_ok]
    cases entries name h coll with
    | error e => rfl
    | ok entries =>
      simp only [bind, Except.bind, pure, Except.pure]
      cases h.get? entries key <;> rfl
  · simp only [get, List.length_cons, List.length_nil, fetch_zero, fetch_one, fetch_two,
      Answer.check_ok]
    cases entries name h coll with
    | error e => rfl
    | ok entries =>
      simp only [bind, Except.bind, pure, Except.pure]
      cases h.get? entries key <;> rfl
  · simp [get]

def contains (name : Text) (h : Heap) (coll key : Value) : Answer := do
  let entries ← entries name h coll
  return .ofBool (h.get? entries key).isSome

def keys (name : Text) (h : Heap) (coll : Value) : Answer := do
  let entries ← entries name h coll
  return .makeList (.ofList (entries.toList.map (·.1)))

def vals (name : Text) (h : Heap) (coll : Value) : Answer := do
  let entries ← entries name h coll
  return .makeList (.ofList (entries.toList.map (·.2)))

end Lisp.Collection
