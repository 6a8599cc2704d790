import Lisp.Sequence.Tree

/-!
Sequences. Every operation is described by what it does to the list of the elements. A sequence
shares its parts with those it was made of, and all of its operations on one end, at one index or at
one cut take time that grows with the logarithm of its size.
-/
namespace Lisp

structure Sequence (α : Type) where
  tree : Tree α
  sized : tree.Sized
  deriving DecidableEq

namespace Sequence

variable {α β : Type}

@[inline] def size (s : Sequence α) : Nat := s.tree.size

@[inline] def toList (s : Sequence α) : List α := s.tree.toList

@[simp] theorem length_toList (s : Sequence α) : s.toList.length = s.size :=
  (Tree.size_eq s.sized).symm

def ofList (xs : List α) : Sequence α := ⟨.ofList xs, Tree.sized_ofList xs⟩

@[simp] theorem toList_ofList (xs : List α) : (ofList xs).toList = xs := Tree.toList_ofList xs

def empty : Sequence α := ⟨.leaf [], Tree.sized_leaf []⟩

@[simp] theorem toList_empty : (empty : Sequence α).toList = [] := rfl

@[simp] theorem size_empty : (empty : Sequence α).size = 0 := rfl

/-- The elements of one sequence and then those of another. -/
def join (s t : Sequence α) : Sequence α :=
  if t.size = 0 then s
  else if s.size = 0 then t
  else ⟨s.tree.link t.tree, Tree.sized_link s.sized t.sized⟩

theorem toList_eq_nil {s : Sequence α} (h : s.size = 0) : s.toList = [] :=
  List.length_eq_zero_iff.mp ((length_toList s).trans h)

@[simp] theorem toList_join (s t : Sequence α) : (s.join t).toList = s.toList ++ t.toList := by
  unfold join
  split
  · rename_i h
    simp [toList_eq_nil h]
  · split
    · rename_i h
      simp [toList_eq_nil h]
    · exact Tree.toList_link ..

@[simp] theorem size_join (s t : Sequence α) : (s.join t).size = s.size + t.size := by
  rw [← length_toList, toList_join, List.length_append, length_toList, length_toList]

def cons (x : α) (s : Sequence α) : Sequence α := (ofList [x]).join s

@[simp] theorem toList_cons (x : α) (s : Sequence α) : (s.cons x).toList = x :: s.toList := by
  simp [cons]

/-- Adds elements at the end. -/
def append (s : Sequence α) (xs : List α) : Sequence α := s.join (ofList xs)

@[simp] theorem toList_append (s : Sequence α) (xs : List α) :
    (s.append xs).toList = s.toList ++ xs := by
  simp [append]

theorem append_nil (s : Sequence α) : s.append [] = s := rfl

@[simp] theorem size_append (s : Sequence α) (xs : List α) :
    (s.append xs).size = s.size + xs.length := by
  rw [← length_toList, toList_append, List.length_append, length_toList]

/-- All elements but the first `n`. -/
def drop (n : Nat) (s : Sequence α) : Sequence α := ⟨s.tree.drop n, Tree.sized_drop s.sized⟩

@[simp] theorem toList_drop (n : Nat) (s : Sequence α) : (s.drop n).toList = s.toList.drop n :=
  Tree.toList_drop s.sized

/-- The first `n` elements. -/
def take (n : Nat) (s : Sequence α) : Sequence α := ⟨s.tree.take n, Tree.sized_take s.sized⟩

@[simp] theorem toList_take (n : Nat) (s : Sequence α) : (s.take n).toList = s.toList.take n :=
  Tree.toList_take s.sized

def get? (s : Sequence α) (i : Nat) : Option α := s.tree.get? i

theorem get?_eq (s : Sequence α) (i : Nat) : s.get? i = s.toList[i]? := Tree.get?_eq s.sized

/-- Changes the element at an index. -/
@[inline] def modify (s : Sequence α) (i : Nat) (f : α → α) : Sequence α :=
  ⟨s.tree.modify i f, Tree.sized_modify s.sized⟩

@[simp] theorem toList_modify (s : Sequence α) (i : Nat) (f : α → α) :
    (s.modify i f).toList = s.toList.modify i f :=
  Tree.toList_modify s.sized

@[inline] def find? (p : α → Bool) (s : Sequence α) : Option α := s.tree.find? p

@[simp] theorem find?_toList (p : α → Bool) (s : Sequence α) : s.toList.find? p = s.find? p :=
  (Tree.find?_eq p s.tree).symm

/-- The index of the first element with a property. -/
@[inline] def findIndex? (p : α → Bool) (s : Sequence α) : Option Nat := s.tree.findIndex? p 0

@[simp] theorem findIdx?_toList (p : α → Bool) (s : Sequence α) :
    s.toList.findIdx? p = s.findIndex? p := by
  rw [findIndex?, Tree.findIndex?_eq p 0 s.sized]
  simp [toList]

@[inline] def all (p : α → Bool) (s : Sequence α) : Bool := s.tree.all p

@[simp] theorem all_toList (p : α → Bool) (s : Sequence α) : s.toList.all p = s.all p :=
  (Tree.all_eq p s.tree).symm

@[inline] def foldl (f : β → α → β) (init : β) (s : Sequence α) : β := s.tree.foldl f init

@[simp] theorem foldl_toList (f : β → α → β) (init : β) (s : Sequence α) :
    s.toList.foldl f init = s.foldl f init :=
  (Tree.foldl_eq f init s.tree).symm

/-- Every element replaced by a list. -/
@[inline] def flatMap (f : α → List β) (s : Sequence α) : Sequence β :=
  ⟨s.tree.flatMap f, Tree.sized_flatMap f s.tree⟩

@[simp] theorem toList_flatMap (f : α → List β) (s : Sequence α) :
    (s.flatMap f).toList = s.toList.flatMap f :=
  Tree.toList_flatMap f s.tree

/-- Whether two sequences have the same elements. -/
@[inline] def same [BEq α] (s t : Sequence α) : Bool := s.size == t.size && s.tree.same t.tree

@[simp] theorem same_eq [BEq α] [LawfulBEq α] (s t : Sequence α) :
    s.same t = (s.toList == t.toList) := by
  rw [same, Tree.same_eq s.sized t.sized]
  by_cases h : s.size = t.size
  · simp [h, toList]
  · have hne : s.toList ≠ t.toList := fun heq =>
      h (by rw [← length_toList, ← length_toList, heq])
    rw [beq_eq_false_iff_ne.mpr h, beq_eq_false_iff_ne.mpr hne, Bool.false_and]

end Sequence

end Lisp
