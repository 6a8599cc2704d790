import Lisp.Datum.Reader
import Lisp.Heap.Rendering

/-!
Data as finite trees. Besides induction over a datum with all of its parts, this module gives the
text of a datum and the lexemes that the text is cut into, both by recursion on the tree. The items
of a curly group are keys and values in turn, so they can also be taken as pairs.
-/
namespace Lisp

section Alternating

variable {α : Type}

/-- Neighbours taken together; the last of an odd number is left out. -/
def pairs : List α → List (α × α)
  | x :: y :: rest => (x, y) :: pairs rest
  | _ => []

/-- The components of the pairs in turn. -/
def alternate (entries : List (α × α)) : List α := entries.flatMap fun (x, y) => [x, y]

@[simp] theorem alternate_nil : alternate ([] : List (α × α)) = [] := rfl

@[simp] theorem alternate_cons (x y : α) (entries : List (α × α)) :
    alternate ((x, y) :: entries) = x :: y :: alternate entries := rfl

@[simp] theorem pairs_alternate (entries : List (α × α)) : pairs (alternate entries) = entries := by
  induction entries with
  | nil => rfl
  | cons entry entries ih =>
    obtain ⟨x, y⟩ := entry
    rw [alternate_cons, pairs, ih]

theorem length_alternate (entries : List (α × α)) :
    (alternate entries).length = 2 * entries.length := by
  induction entries with
  | nil => rfl
  | cons entry entries ih =>
    obtain ⟨x, y⟩ := entry
    simp only [alternate_cons, List.length_cons, ih]
    omega

theorem alternate_pairs {xs : List α} (h : xs.length % 2 = 0) : alternate (pairs xs) = xs := by
  induction xs using pairs.induct with
  | case1 x y rest ih =>
    have hrest : rest.length % 2 = 0 := by
      simp only [List.length_cons] at h
      omega
    rw [pairs, alternate_cons, ih hrest]
  | case2 xs hshort =>
    cases xs with
    | nil => rfl
    | cons x xs =>
      cases xs with
      | nil => simp at h
      | cons y xs => exact absurd rfl (hshort x y xs)

theorem mem_of_mem_pairs {xs : List α} {entry : α × α} (h : entry ∈ pairs xs) :
    entry.1 ∈ xs ∧ entry.2 ∈ xs := by
  induction xs using pairs.induct with
  | case1 x y rest ih =>
    rw [pairs, List.mem_cons] at h
    rcases h with rfl | h
    · simp
    · obtain ⟨hkey, hvalue⟩ := ih h
      exact ⟨by simp [hkey], by simp [hvalue]⟩
  | case2 xs hshort =>
    cases xs with
    | nil => cases h
    | cons x xs =>
      cases xs with
      | nil => cases h
      | cons y xs => exact absurd rfl (hshort x y xs)

theorem mem_alternate {entries : List (α × α)} {x : α} :
    x ∈ alternate entries ↔ ∃ entry ∈ entries, x = entry.1 ∨ x = entry.2 := by
  simp [alternate]

end Alternating

theorem map_fst_modify {α β : Type} (entries : List (α × β)) (i : Nat) (b : β) :
    (entries.modify i fun entry => (entry.1, b)).map (·.1) = entries.map (·.1) := by
  apply List.ext_getElem?
  intro j
  rw [List.getElem?_map, List.getElem?_map, List.getElem?_modify]
  by_cases hij : i = j <;> cases entries[j]? <;> simp [hij]

namespace Datum

/-- Induction over a datum: what holds of all items of a group carries over to the group. -/
@[induction_eliminator]
theorem induct {motive : Datum → Prop} (nil : motive .nil) (bool : ∀ b, motive (.bool b))
    (int : ∀ n, motive (.int n)) (float : ∀ x, motive (.float x))
    (string : ∀ s, motive (.string s)) (symbol : ∀ name, motive (.symbol name))
    (keyword : ∀ name, motive (.keyword name))
    (group : ∀ b items, (∀ d ∈ items, motive d) → motive (.group b items)) (d : Datum) :
    motive d := by
  refine @Datum.rec motive (fun items => ∀ d ∈ items, motive d) nil bool int float string symbol
    keyword group ?_ ?_ d
  · intro d hd
    cases hd
  · intro d items hd hitems e he
    rcases List.mem_cons.mp he with rfl | he
    · exact hd
    · exact hitems e he

/-- A datum that holds no other data. -/
def IsLeaf (d : Datum) : Prop := ∀ b items, d ≠ .group b items

theorem leaf_or_group (d : Datum) : d.IsLeaf ∨ ∃ b items, d = .group b items := by
  cases d with
  | group b items => exact Or.inr ⟨b, items, rfl⟩
  | _ =>
    left
    intro b items heq
    cases heq

mutual

/-- A property of the datum and of every datum inside it. -/
def Each (p : Datum → Prop) : Datum → Prop
  | .group b items => p (.group b items) ∧ EachOf p items
  | d => p d

def EachOf (p : Datum → Prop) : List Datum → Prop
  | [] => True
  | d :: rest => Each p d ∧ EachOf p rest

end

theorem eachOf_iff {p : Datum → Prop} {items : List Datum} :
    EachOf p items ↔ ∀ d ∈ items, Each p d := by
  induction items with
  | nil => simp [EachOf]
  | cons d rest ih => rw [EachOf, ih, List.forall_mem_cons]

theorem each_group {p : Datum → Prop} {b : Bracket} {items : List Datum} :
    Each p (.group b items) ↔ p (.group b items) ∧ ∀ d ∈ items, Each p d := by
  rw [Each, eachOf_iff]

theorem Each.self {p : Datum → Prop} {d : Datum} (h : Each p d) : p d := by
  cases d with
  | group b items => exact (each_group.mp h).1
  | _ => exact h

theorem Each.imp {p q : Datum → Prop} (himp : ∀ d, p d → q d) {d : Datum} (h : Each p d) :
    Each q d := by
  induction d with
  | group b items ih =>
    obtain ⟨hself, hitems⟩ := each_group.mp h
    exact each_group.mpr ⟨himp _ hself, fun d hd => ih d hd (hitems d hd)⟩
  | _ => exact himp _ h

theorem Each.and {p q : Datum → Prop} {d : Datum} (hp : Each p d) (hq : Each q d) :
    Each (fun d => p d ∧ q d) d := by
  induction d with
  | group b items ih =>
    obtain ⟨hself, hitems⟩ := each_group.mp hp
    obtain ⟨hself', hitems'⟩ := each_group.mp hq
    exact each_group.mpr ⟨⟨hself, hself'⟩, fun d hd => ih d hd (hitems d hd) (hitems' d hd)⟩
  | _ => exact ⟨hp, hq⟩

mutual

/-- How deep a datum nests. -/
def height : Datum → Nat
  | .group _ items => heightOf items + 1
  | _ => 1

/-- The greatest height in a list. -/
def heightOf : List Datum → Nat
  | [] => 0
  | d :: rest => max (height d) (heightOf rest)

end

theorem height_pos (d : Datum) : 0 < d.height := by
  cases d <;> simp [height]

theorem height_le_heightOf {items : List Datum} {d : Datum} (h : d ∈ items) :
    d.height ≤ heightOf items := by
  induction items with
  | nil => cases h
  | cons e rest ih =>
    rw [heightOf]
    rcases List.mem_cons.mp h with rfl | h
    · exact Nat.le_max_left ..
    · exact Nat.le_trans (ih h) (Nat.le_max_right ..)

theorem height_lt_group {b : Bracket} {items : List Datum} {d : Datum} (h : d ∈ items) :
    d.height < (group b items).height :=
  Nat.lt_succ_of_le (height_le_heightOf h)

/-- Some item is as high as the whole list. -/
theorem exists_height_eq {items : List Datum} (h : items ≠ []) :
    ∃ d ∈ items, d.height = heightOf items := by
  induction items with
  | nil => exact absurd rfl h
  | cons e rest ih =>
    rw [heightOf]
    rcases Nat.le_total (heightOf rest) e.height with hle | hle
    · exact ⟨e, List.mem_cons_self, (Nat.max_eq_left hle).symm⟩
    · cases rest with
      | nil => exact ⟨e, List.mem_cons_self, (Nat.max_eq_left (Nat.zero_le _)).symm⟩
      | cons f more =>
        obtain ⟨d, hd, heq⟩ := ih (List.cons_ne_nil f more)
        exact ⟨d, List.mem_cons_of_mem e hd, heq.trans (Nat.max_eq_right hle).symm⟩

mutual

/-- The readable text of a datum. -/
def text : Datum → Text
  | .nil => Text.of "nil"
  | .bool true => Text.of "true"
  | .bool false => Text.of "false"
  | .int n => Text.ofInt n.toInt
  | .float x => Number.literal x
  | .string s => Heap.stringText .readable s
  | .symbol name => name
  | .keyword name => 58 :: name
  | .group b items => b.opener :: (Text.join [32] (textsOf items) ++ [b.closer])

def textsOf : List Datum → List Text
  | [] => []
  | d :: rest => text d :: textsOf rest

end

theorem textsOf_eq (items : List Datum) : textsOf items = items.map text := by
  induction items with
  | nil => rfl
  | cons d rest ih => rw [textsOf, ih, List.map_cons]

theorem text_group (b : Bracket) (items : List Datum) :
    (group b items).text = b.opener :: (Text.join [32] (items.map text) ++ [b.closer]) := by
  rw [text, textsOf_eq]

/-- A text taken as one word. -/
def wordLexeme : Text → List Lexeme
  | [] => []
  | first :: rest => [.word first rest]

mutual

/-- What the text of a datum is cut into. -/
def lexemes : Datum → List Lexeme
  | .string s => [.string s]
  | .group b items => .opening b :: (lexemesOf items ++ [.closing b])
  | d => wordLexeme d.text

def lexemesOf : List Datum → List Lexeme
  | [] => []
  | d :: rest => lexemes d ++ lexemesOf rest

end

theorem lexemes_word {d : Datum} (hleaf : d.IsLeaf) (hstring : ∀ s, d ≠ .string s) :
    d.lexemes = wordLexeme d.text := by
  cases d with
  | group b items => exact absurd rfl (hleaf b items)
  | string s => exact absurd rfl (hstring s)
  | _ => rfl

end Datum

end Lisp
