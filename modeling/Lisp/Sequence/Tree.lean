/-!
Trees with chunks of elements as their leaves. Every node keeps the number of elements below it, so
that an element is found by its index on one way down, and parts of a tree are shared by the trees
made of it. Trees are kept balanced by weight; no law depends on that.
-/
namespace Lisp

inductive Tree (α : Type)
  | leaf (items : List α)
  | node (size : Nat) (left right : Tree α)
  deriving DecidableEq

namespace Tree

variable {α β : Type}

def size : Tree α → Nat
  | leaf items => items.length
  | node size _ _ => size

/-- The elements in front of `rest`. -/
def listBefore : Tree α → (rest : List α) → List α
  | leaf items, rest => items ++ rest
  | node _ left right, rest => left.listBefore (right.listBefore rest)

def toList : Tree α → List α
  | leaf items => items
  | node _ left right => left.listBefore (right.listBefore [])

theorem listBefore_eq (t : Tree α) (rest : List α) : t.listBefore rest = t.toList ++ rest := by
  induction t generalizing rest with
  | leaf items => rfl
  | node size left right hleft hright =>
    rw [toList, listBefore, hleft, hright rest, hleft (right.listBefore []), hright []]
    simp

@[simp] theorem toList_leaf (items : List α) : (leaf items).toList = items := rfl

@[simp] theorem toList_node (size : Nat) (left right : Tree α) :
    (node size left right).toList = left.toList ++ right.toList := by
  rw [toList, listBefore_eq, listBefore_eq, List.append_nil]

/-- Every node keeps the right number. -/
def Sized : Tree α → Prop
  | leaf _ => True
  | node size left right => size = left.size + right.size ∧ left.Sized ∧ right.Sized

theorem size_eq {t : Tree α} (h : t.Sized) : t.size = t.toList.length := by
  induction t with
  | leaf items => rfl
  | node size left right hleft hright =>
    obtain ⟨hsize, hl, hr⟩ := h
    rw [toList_node, List.length_append, ← hleft hl, ← hright hr, Tree.size, hsize]

theorem sized_leaf (items : List α) : (leaf items).Sized := trivial

/-! Putting trees together. -/

def both (left right : Tree α) : Tree α := node (left.size + right.size) left right

@[simp] theorem toList_both (left right : Tree α) :
    (both left right).toList = left.toList ++ right.toList := toList_node ..

theorem sized_both {left right : Tree α} (hl : left.Sized) (hr : right.Sized) :
    (both left right).Sized := ⟨rfl, hl, hr⟩

/-- The greatest number of elements that leaves are merged into. -/
def chunkSize : Nat := 16

/-- Two trees of like weight side by side; small leaves are merged. -/
def meet : Tree α → Tree α → Tree α
  | leaf xs, leaf ys =>
    if xs.length + ys.length ≤ chunkSize then leaf (xs ++ ys) else both (leaf xs) (leaf ys)
  | left, right => both left right

@[simp] theorem toList_meet (left right : Tree α) :
    (meet left right).toList = left.toList ++ right.toList := by
  unfold meet
  split
  · split <;> simp
  · simp

theorem sized_meet {left right : Tree α} (hl : left.Sized) (hr : right.Sized) :
    (meet left right).Sized := by
  unfold meet
  split
  · split
    · exact sized_leaf _
    · exact sized_both hl hr
  · exact sized_both hl hr

/-- Whether a tree is too light to stand beside another one. -/
def isLightFor (light heavy : Tree α) : Bool := 3 * light.size < heavy.size

/-- Two trees side by side, with a part of the heavier one moved over to a side that is too light.
-/
def balance (left right : Tree α) : Tree α :=
  if left.isLightFor right then
    match right with
    | node _ (node size inner next) outer =>
      if size ≤ 2 * outer.size then both (both left (node size inner next)) outer
      else both (both left inner) (both next outer)
    | node _ (leaf items) outer => both (both left (leaf items)) outer
    | leaf items => both left (leaf items)
  else if right.isLightFor left then
    match left with
    | node _ outer (node size next inner) =>
      if size ≤ 2 * outer.size then both outer (both (node size next inner) right)
      else both (both outer next) (both inner right)
    | node _ outer (leaf items) => both outer (both (leaf items) right)
    | leaf items => both (leaf items) right
  else both left right

@[simp] theorem toList_balance (left right : Tree α) :
    (balance left right).toList = left.toList ++ right.toList := by
  unfold balance
  split
  · split <;> (try split) <;> simp
  · split
    · split <;> (try split) <;> simp
    · simp

theorem sized_balance {left right : Tree α} (hl : left.Sized) (hr : right.Sized) :
    (balance left right).Sized := by
  unfold balance
  split
  · split
    · obtain ⟨-, hi, ho⟩ := hr
      split
      · exact sized_both (sized_both hl hi) ho
      · exact sized_both (sized_both hl hi.2.1) (sized_both hi.2.2 ho)
    · exact sized_both (sized_both hl hr.2.1) hr.2.2
    · exact sized_both hl hr
  · split
    · split
      · obtain ⟨-, ho, hi⟩ := hl
        split
        · exact sized_both ho (sized_both hi hr)
        · exact sized_both (sized_both ho hi.2.1) (sized_both hi.2.2 hr)
      · exact sized_both hl.2.1 (sized_both hl.2.2 hr)
      · exact sized_both hl hr
    · exact sized_both hl hr

/-- Puts a tree in front of a heavier one. -/
def linkBefore (light : Tree α) : Tree α → Tree α
  | leaf items => meet light (leaf items)
  | node size left right =>
    if light.isLightFor (node size left right) then balance (linkBefore light left) right
    else both light (node size left right)

@[simp] theorem toList_linkBefore (light heavy : Tree α) :
    (linkBefore light heavy).toList = light.toList ++ heavy.toList := by
  induction heavy with
  | leaf items => simp [linkBefore]
  | node size left right hleft _ =>
    unfold linkBefore
    split <;> simp [hleft]

theorem sized_linkBefore {light heavy : Tree α} (hl : light.Sized) (hh : heavy.Sized) :
    (linkBefore light heavy).Sized := by
  induction heavy with
  | leaf items => exact sized_meet hl hh
  | node size left right hleft _ =>
    unfold linkBefore
    split
    · exact sized_balance (hleft hh.2.1) hh.2.2
    · exact sized_both hl hh

/-- Puts a tree behind a heavier one. -/
def linkBehind (light : Tree α) : Tree α → Tree α
  | leaf items => meet (leaf items) light
  | node size left right =>
    if light.isLightFor (node size left right) then balance left (linkBehind light right)
    else both (node size left right) light

@[simp] theorem toList_linkBehind (light heavy : Tree α) :
    (linkBehind light heavy).toList = heavy.toList ++ light.toList := by
  induction heavy with
  | leaf items => simp [linkBehind]
  | node size left right _ hright =>
    unfold linkBehind
    split <;> simp [hright]

theorem sized_linkBehind {light heavy : Tree α} (hl : light.Sized) (hh : heavy.Sized) :
    (linkBehind light heavy).Sized := by
  induction heavy with
  | leaf items => exact sized_meet hh hl
  | node size left right _ hright =>
    unfold linkBehind
    split
    · exact sized_balance hh.2.1 (hright hh.2.2)
    · exact sized_both hh hl

/-- The elements of one tree and then those of another. -/
def link (left right : Tree α) : Tree α :=
  if left.isLightFor right then linkBefore left right
  else if right.isLightFor left then linkBehind right left
  else meet left right

@[simp] theorem toList_link (left right : Tree α) :
    (link left right).toList = left.toList ++ right.toList := by
  unfold link
  split
  · simp
  · split <;> simp

theorem sized_link {left right : Tree α} (hl : left.Sized) (hr : right.Sized) :
    (link left right).Sized := by
  unfold link
  split
  · exact sized_linkBefore hl hr
  · split
    · exact sized_linkBehind hr hl
    · exact sized_meet hl hr

/-! Trees of lists. -/

/-- The leaves for a list; the elements of the leaf begun last come last first. -/
def leaves (count : Nat) (recent : List α) : List α → List (Tree α)
  | [] => [leaf recent.reverse]
  | x :: rest =>
    if count + 1 < chunkSize then leaves (count + 1) (x :: recent) rest
    else leaf (x :: recent).reverse :: leaves 0 [] rest

theorem flatMap_leaves (count : Nat) (recent xs : List α) :
    (leaves count recent xs).flatMap toList = recent.reverse ++ xs := by
  induction xs generalizing count recent with
  | nil => simp [leaves]
  | cons x rest ih =>
    unfold leaves
    split <;> simp [ih]

theorem sized_of_mem_leaves {count : Nat} {recent xs : List α} {t : Tree α}
    (h : t ∈ leaves count recent xs) : t.Sized := by
  induction xs generalizing count recent with
  | nil =>
    simp only [leaves, List.mem_singleton] at h
    exact h ▸ sized_leaf _
  | cons x rest ih =>
    unfold leaves at h
    split at h
    · exact ih h
    · rcases List.mem_cons.mp h with rfl | h
      · exact sized_leaf _
      · exact ih h

/-- Neighbours put together in pairs. -/
def pairUp : List (Tree α) → List (Tree α)
  | a :: b :: rest => both a b :: pairUp rest
  | rest => rest

theorem flatMap_pairUp (ts : List (Tree α)) : (pairUp ts).flatMap toList = ts.flatMap toList := by
  induction ts using pairUp.induct with
  | case1 a b rest ih => simp [pairUp, ih]
  | case2 rest h =>
    unfold pairUp
    split
    · exact absurd rfl (h _ _ _)
    · rfl

theorem sized_pairUp {ts : List (Tree α)} (h : ∀ t ∈ ts, t.Sized) : ∀ t ∈ pairUp ts, t.Sized := by
  induction ts using pairUp.induct with
  | case1 a b rest ih =>
    intro t ht
    rcases List.mem_cons.mp ht with rfl | ht
    · exact sized_both (h a (by simp)) (h b (by simp))
    · exact ih (fun t ht => h t (by simp [ht])) t ht
  | case2 rest h' =>
    unfold pairUp
    split
    · exact absurd rfl (h' _ _ _)
    · exact h

/-- One tree of many, after some rounds of putting neighbours together. -/
def ofTrees : (rounds : Nat) → List (Tree α) → Tree α
  | 0, ts => ts.foldr link (leaf [])
  | rounds + 1, ts => ofTrees rounds (pairUp ts)

theorem toList_ofTrees (rounds : Nat) (ts : List (Tree α)) :
    (ofTrees rounds ts).toList = ts.flatMap toList := by
  induction rounds generalizing ts with
  | zero =>
    rw [ofTrees]
    induction ts with
    | nil => rfl
    | cons t rest ih => simp [ih]
  | succ rounds ih => rw [ofTrees, ih, flatMap_pairUp]

theorem sized_ofTrees {rounds : Nat} {ts : List (Tree α)} (h : ∀ t ∈ ts, t.Sized) :
    (ofTrees rounds ts).Sized := by
  induction rounds generalizing ts with
  | zero =>
    rw [ofTrees]
    induction ts with
    | nil => exact sized_leaf _
    | cons t rest ih => exact sized_link (h t (by simp)) (ih fun t ht => h t (by simp [ht]))
  | succ rounds ih => exact ih (sized_pairUp h)

def ofList (xs : List α) : Tree α :=
  if (xs.drop chunkSize).isEmpty then leaf xs
  else
    let ts := leaves 0 [] xs
    ofTrees (ts.length.log2 + 1) ts

@[simp] theorem toList_ofList (xs : List α) : (ofList xs).toList = xs := by
  unfold ofList
  split
  · rfl
  · rw [toList_ofTrees, flatMap_leaves, List.reverse_nil, List.nil_append]

theorem sized_ofList (xs : List α) : (ofList xs).Sized := by
  unfold ofList
  split
  · exact sized_leaf _
  · exact sized_ofTrees fun _ => sized_of_mem_leaves

/-! Parts of trees. -/

def drop (n : Nat) : Tree α → Tree α
  | leaf items => leaf (items.drop n)
  | node size left right =>
    if n = 0 then node size left right
    else if n < left.size then link (drop n left) right
    else drop (n - left.size) right

theorem sized_drop {n : Nat} {t : Tree α} (h : t.Sized) : (t.drop n).Sized := by
  induction t generalizing n with
  | leaf items => exact sized_leaf _
  | node size left right hleft hright =>
    unfold drop
    split
    · exact h
    · split
      · exact sized_link (hleft h.2.1) h.2.2
      · exact hright h.2.2

theorem toList_drop {n : Nat} {t : Tree α} (h : t.Sized) : (t.drop n).toList = t.toList.drop n := by
  induction t generalizing n with
  | leaf items => rfl
  | node size left right hleft hright =>
    have hsize := size_eq h.2.1
    unfold drop
    split
    · simp_all
    · split
      · rename_i hlt
        rw [toList_link, hleft h.2.1, toList_node, List.drop_append_of_le_length (by omega)]
      · rename_i hge
        have hle : left.toList.length ≤ n := by omega
        rw [hright h.2.2, toList_node, List.drop_append, List.drop_eq_nil_of_le hle, hsize,
          List.nil_append]

def take (n : Nat) : Tree α → Tree α
  | leaf items => leaf (items.take n)
  | node size left right =>
    if size ≤ n then node size left right
    else if n ≤ left.size then take n left
    else link left (take (n - left.size) right)

theorem sized_take {n : Nat} {t : Tree α} (h : t.Sized) : (t.take n).Sized := by
  induction t generalizing n with
  | leaf items => exact sized_leaf _
  | node size left right hleft hright =>
    unfold take
    split
    · exact h
    · split
      · exact hleft h.2.1
      · exact sized_link h.2.1 (hright h.2.2)

theorem toList_take {n : Nat} {t : Tree α} (h : t.Sized) : (t.take n).toList = t.toList.take n := by
  induction t generalizing n with
  | leaf items => rfl
  | node size left right hleft hright =>
    have hsize := size_eq h.2.1
    have hall := size_eq h
    unfold take
    split
    · rename_i hle
      rw [List.take_of_length_le (by rw [← hall]; exact hle)]
    · split
      · rename_i hle
        rw [hleft h.2.1, toList_node, List.take_append_of_le_length (by omega)]
      · rename_i hlt
        have hle : left.toList.length ≤ n := by omega
        rw [toList_link, hright h.2.2, toList_node, List.take_append, hsize,
          List.take_of_length_le hle]

/-! Elements of trees. -/

def get? (i : Nat) : Tree α → Option α
  | leaf items => items[i]?
  | node _ left right => if i < left.size then get? i left else get? (i - left.size) right

theorem get?_eq {i : Nat} {t : Tree α} (h : t.Sized) : t.get? i = t.toList[i]? := by
  induction t generalizing i with
  | leaf items => rfl
  | node size left right hleft hright =>
    have hsize := size_eq h.2.1
    unfold get?
    split
    · rename_i hlt
      rw [hleft h.2.1, toList_node, List.getElem?_append_left (by omega)]
    · rename_i hge
      rw [hright h.2.2, toList_node, List.getElem?_append_right (by omega), hsize]

/-- Changes the element at an index. -/
@[specialize] def modify (i : Nat) (f : α → α) : Tree α → Tree α
  | leaf items => leaf (items.modify i f)
  | node size left right =>
    if i < left.size then node size (modify i f left) right
    else node size left (modify (i - left.size) f right)

theorem size_modify (i : Nat) (f : α → α) (t : Tree α) : (t.modify i f).size = t.size := by
  cases t with
  | leaf items => simp [modify, size]
  | node size left right =>
    unfold modify
    split <;> rfl

theorem sized_modify {i : Nat} {f : α → α} {t : Tree α} (h : t.Sized) : (t.modify i f).Sized := by
  induction t generalizing i with
  | leaf items => exact sized_leaf _
  | node size left right hleft hright =>
    obtain ⟨hs, hl, hr⟩ := h
    unfold modify
    split
    · exact ⟨by rw [size_modify]; exact hs, hleft hl, hr⟩
    · exact ⟨by rw [size_modify]; exact hs, hl, hright hr⟩

theorem modify_append {i : Nat} {f : α → α} (xs ys : List α) :
    (xs ++ ys).modify i f =
      if i < xs.length then xs.modify i f ++ ys else xs ++ ys.modify (i - xs.length) f := by
  induction xs generalizing i with
  | nil => simp
  | cons x rest ih =>
    cases i with
    | zero => simp
    | succ i =>
      simp only [List.cons_append, List.modify_succ_cons, ih, List.length_cons,
        Nat.add_lt_add_iff_right, Nat.add_sub_add_right]
      split <;> rfl

theorem toList_modify {i : Nat} {f : α → α} {t : Tree α} (h : t.Sized) :
    (t.modify i f).toList = t.toList.modify i f := by
  induction t generalizing i with
  | leaf items => rfl
  | node size left right hleft hright =>
    unfold modify
    rw [size_eq h.2.1, toList_node, modify_append]
    split
    · rw [toList_node, hleft h.2.1]
    · rw [toList_node, hright h.2.2]

@[specialize] def find? (p : α → Bool) : Tree α → Option α
  | leaf items => items.find? p
  | node _ left right =>
    match left.find? p with
    | some x => some x
    | none => right.find? p

theorem find?_eq (p : α → Bool) (t : Tree α) : t.find? p = t.toList.find? p := by
  induction t with
  | leaf items => rfl
  | node size left right hleft hright =>
    rw [find?, hleft, hright, toList_node, List.find?_append]
    cases left.toList.find? p <;> rfl

/-- The index of the first element with a property, counted from `start`. -/
@[specialize] def findIndex? (p : α → Bool) (start : Nat) : Tree α → Option Nat
  | leaf items => (items.findIdx? p).map (start + ·)
  | node _ left right =>
    match findIndex? p start left with
    | some i => some i
    | none => findIndex? p (start + left.size) right

theorem findIndex?_eq (p : α → Bool) (start : Nat) {t : Tree α} (h : t.Sized) :
    t.findIndex? p start = (t.toList.findIdx? p).map (start + ·) := by
  induction t generalizing start with
  | leaf items => rfl
  | node size left right hleft hright =>
    rw [findIndex?, hleft start h.2.1, hright _ h.2.2, toList_node, List.findIdx?_append,
      size_eq h.2.1]
    cases left.toList.findIdx? p with
    | some i => rfl
    | none =>
      cases right.toList.findIdx? p with
      | some i => simp [Nat.add_assoc, Nat.add_comm i]
      | none => rfl

@[specialize] def all (p : α → Bool) : Tree α → Bool
  | leaf items => items.all p
  | node _ left right => left.all p && right.all p

theorem all_eq (p : α → Bool) (t : Tree α) : t.all p = t.toList.all p := by
  induction t with
  | leaf items => rfl
  | node size left right hleft hright => rw [all, hleft, hright, toList_node, List.all_append]

@[specialize] def foldl (f : β → α → β) (init : β) : Tree α → β
  | leaf items => items.foldl f init
  | node _ left right => foldl f (foldl f init left) right

theorem foldl_eq (f : β → α → β) (init : β) (t : Tree α) :
    t.foldl f init = t.toList.foldl f init := by
  induction t generalizing init with
  | leaf items => rfl
  | node size left right hleft hright =>
    rw [foldl, hright, hleft, toList_node, List.foldl_append]

/-- Every element replaced by a list. -/
@[specialize] def flatMap (f : α → List β) : Tree α → Tree β
  | leaf items => ofList (items.flatMap f)
  | node _ left right => both (left.flatMap f) (right.flatMap f)

theorem sized_flatMap (f : α → List β) (t : Tree α) : (t.flatMap f).Sized := by
  induction t with
  | leaf items => exact sized_ofList _
  | node size left right hleft hright => exact sized_both hleft hright

theorem toList_flatMap (f : α → List β) (t : Tree α) :
    (t.flatMap f).toList = t.toList.flatMap f := by
  induction t with
  | leaf items => exact toList_ofList _
  | node size left right hleft hright =>
    rw [flatMap, toList_both, hleft, hright, toList_node, List.flatMap_append]

/-- Whether two lists have the same elements. -/
@[specialize] def sameItems [BEq α] : List α → List α → Bool
  | [], [] => true
  | x :: xs, y :: ys => x == y && sameItems xs ys
  | _, _ => false

theorem sameItems_eq [BEq α] (xs ys : List α) : sameItems xs ys = (xs == ys) := by
  induction xs generalizing ys with
  | nil => cases ys <;> rfl
  | cons x xs ih =>
    cases ys with
    | nil => rfl
    | cons y ys => rw [sameItems, ih, List.cons_beq_cons]

/-- Whether two trees have the same elements. Where their nodes divide them alike, the parts are
compared by themselves. -/
@[specialize] def same [BEq α] : Tree α → Tree α → Bool
  | node size left right, node size' left' right' =>
    if left.size = left'.size then same left left' && same right right'
    else sameItems (node size left right).toList (node size' left' right').toList
  | s, t => sameItems s.toList t.toList

theorem same_eq [BEq α] [LawfulBEq α] {s t : Tree α} (hs : s.Sized) (ht : t.Sized) :
    same s t = (s.toList == t.toList) := by
  induction s, t using same.induct with
  | case1 size left right size' left' right' h ihl ihr =>
    rw [same, if_pos h, ihl hs.2.1 ht.2.1, ihr hs.2.2 ht.2.2, toList_node, toList_node,
      Bool.eq_iff_iff]
    have hlength : left.toList.length = left'.toList.length := by
      rw [← size_eq hs.2.1, ← size_eq ht.2.1, h]
    simp only [Bool.and_eq_true, beq_iff_eq]
    exact ⟨fun ⟨hl, hr⟩ => by rw [hl, hr], fun h => List.append_inj h hlength⟩
  | case2 size left right size' left' right' h => rw [same, if_neg h, sameItems_eq]
  | case3 s t h =>
    unfold same
    split
    · rename_i a b c d e f
      exact absurd rfl (h a b c d e f rfl)
    · exact sameItems_eq ..

end Tree

end Lisp
