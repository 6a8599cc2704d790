import Lisp.Proofs.Datum.Concatenation
import Lisp.Proofs.Datum.Grammar

/-!
Tokens inside a group. A token does to what is pending inside a group just what it does without the
group around it; a form that is complete becomes an item of the group. So tokens that read without
an error hand their forms to the group, and the group ends at the first closer that closes nothing
without it.
-/
namespace Lisp

namespace Advance

variable {d e : Datum} {stack stack' outer : List Pending} {b : Bracket} {start : Position}
  {recent : List Datum}

theorem place_append_of_more (h : place d stack = .more stack') :
    place d (stack ++ outer) = .more (stack' ++ outer) := by
  induction stack generalizing d with
  | nil => cases h
  | cons p rest ih =>
    cases p with
    | mark m => exact ih h
    | metadata =>
      cases h
      rfl
    | annotated metadata => exact ih h
    | group b start recent =>
      cases h
      rfl

theorem place_append_of_form (h : place d stack = .form e) :
    place d (stack ++ .group b start recent :: outer) =
      .more (.group b start (e :: recent) :: outer) := by
  induction stack generalizing d with
  | nil =>
    cases h
    rfl
  | cons p rest ih =>
    cases p with
    | mark m => exact ih h
    | metadata => cases h
    | annotated metadata => exact ih h
    | group b start recent => cases h

/-- A closer closes the same, whatever is around. -/
theorem close_cases (closer : Bracket) (position : Position) (stack : List Pending) :
    (∃ e used, close closer position stack = .error e used) ∨
      ∃ d rest, ∀ outer, close closer position (stack ++ outer) = place d (rest ++ outer) := by
  cases stack with
  | nil => exact .inl ⟨_, _, rfl⟩
  | cons p rest =>
    cases p with
    | group opened start recent =>
      simp only [List.cons_append, close]
      by_cases hwrong : closer ≠ opened
      · exact .inl ⟨_, _, if_pos hwrong⟩
      · simp only [if_neg hwrong]
        by_cases hodd : closer = .curly ∧ recent.length % 2 ≠ 0
        · exact .inl ⟨_, _, if_pos hodd⟩
        · simp only [if_neg hodd]
          exact .inr ⟨_, rest, fun _ => rfl⟩
    | _ => exact .inl ⟨_, _, rfl⟩

/-- A token is an error, or it begins a form or completes one, the same whatever is around. -/
theorem step_cases (stack : List Pending) (t : Token) :
    (∃ e used, step stack t = .error e used) ∨
      (∃ p, ∀ outer, step (stack ++ outer) t = .more (p :: stack ++ outer)) ∨
      ∃ d rest, ∀ outer, step (stack ++ outer) t = place d (rest ++ outer) := by
  unfold step
  cases t.lexeme with
  | opening opened => exact .inr (.inl ⟨_, fun _ => rfl⟩)
  | mark m => exact .inr (.inl ⟨_, fun _ => rfl⟩)
  | caret => exact .inr (.inl ⟨_, fun _ => rfl⟩)
  | atom text =>
    dsimp only
    cases Datum.ofAtom text with
    | ok d => exact .inr (.inr ⟨d, stack, fun _ => rfl⟩)
    | error cause => exact .inl ⟨_, _, rfl⟩
  | closing closer =>
    rcases close_cases closer t.position stack with herror | hplace
    · exact .inl herror
    · exact .inr (.inr hplace)

theorem step_append_of_more {t : Token} (h : step stack t = .more stack') (outer : List Pending) :
    step (stack ++ outer) t = .more (stack' ++ outer) := by
  rcases step_cases stack t with ⟨e, used, herror⟩ | ⟨p, hmore⟩ | ⟨d, rest, hplace⟩
  · rw [herror] at h
    cases h
  · have hself := hmore []
    rw [List.append_nil, List.append_nil, h] at hself
    cases hself
    exact hmore outer
  · have hself := hplace []
    rw [List.append_nil, List.append_nil, h] at hself
    rw [hplace]
    exact place_append_of_more hself.symm

/-- A form that is complete becomes an item of the group around it. -/
theorem step_append_of_form {t : Token} (h : step stack t = .form e) :
    step (stack ++ .group b start recent :: outer) t =
      .more (.group b start (e :: recent) :: outer) := by
  rcases step_cases stack t with ⟨e, used, herror⟩ | ⟨p, hmore⟩ | ⟨d, rest, hplace⟩
  · rw [herror] at h
    cases h
  · have hself := hmore []
    rw [List.append_nil, h] at hself
    cases hself
  · have hself := hplace []
    rw [List.append_nil, List.append_nil, h] at hself
    rw [hplace]
    exact place_append_of_form hself.symm

/-- An error stays the same, whatever is around, unless it is a closer that closes nothing. -/
theorem step_append_of_error {t : Token} {err : ParseError} {used : Bool}
    (h : step stack t = .error err used) :
    (stack = [] ∧ ∃ closer, t.lexeme = .closing closer) ∨
      ∀ outer, step (stack ++ outer) t = .error err used := by
  unfold step at h ⊢
  cases hlexeme : t.lexeme with
  | opening opened | mark m | caret =>
    rw [hlexeme] at h
    cases h
  | atom text =>
    simp only [hlexeme] at h
    cases hatom : Datum.ofAtom text with
    | ok d =>
      rw [hatom] at h
      exact absurd h (Progress.place_ne_error _ _ _ _)
    | error cause =>
      rw [hatom] at h
      refine .inr fun outer => ?_
      simp only [hatom]
      exact h
  | closing closer =>
    simp only [hlexeme] at h
    cases stack with
    | nil => exact .inl ⟨rfl, closer, rfl⟩
    | cons p rest =>
      right
      intro outer
      cases p with
      | group opened start recent =>
        simp only [List.cons_append, close] at h ⊢
        split at h
        · rw [if_pos ‹_›, h]
        · rw [if_neg ‹_›]
          split at h
          · rw [if_pos ‹_›, h]
          · exact absurd h (Progress.place_ne_error _ _ _ _)
      | _ => exact h

end Advance

namespace ParseTree

theorem hands_atom {t : Token} {text : Text} {d : Datum} (ht : t.lexeme = .atom text)
    (hatom : Datum.ofAtom text = .ok d) : Hands [t] d := by
  intro r stack more
  refine Reader.readFrom_of_step ?_ more
  rw [Advance.step, ht]
  simp only [hatom]

/-- Tokens that read without an error hand their forms to the group they stand in. -/
theorem handsAll_of_formsFrom {r : Reader} {ts : List Token} (h : (r.formsFrom [] ts).2.1 = none) :
    HandsAll ts (r.formsFrom [] ts).1 := by
  intro r' b start recent outer rest
  suffices hinside : ∀ stack, (r.formsFrom stack ts).2.1 = none →
      r'.readFrom (stack ++ .group b start recent :: outer) (ts ++ rest) =
        r'.readFrom (.group b start ((r.formsFrom stack ts).1.reverse ++ recent) :: outer) rest from
    hinside [] h
  clear h
  induction ts generalizing recent with
  | nil =>
    intro stack h
    cases stack with
    | nil => rfl
    | cons p more => cases h
  | cons t ts ih =>
    intro stack h
    rw [Reader.formsFrom_cons] at h ⊢
    rw [List.cons_append, Reader.readFrom]
    cases hstep : Advance.step stack t with
    | more stack' =>
      simp only [hstep] at h ⊢
      rw [Advance.step_append_of_more hstep]
      exact ih recent stack' h
    | form d =>
      simp only [hstep] at h ⊢
      rw [Advance.step_append_of_form hstep]
      simpa using ih (d :: recent) [] h
    | error e used =>
      simp only [hstep] at h
      cases h

end ParseTree

namespace Reader

/-- A group is read to its end only at a closer behind tokens that leave nothing pending in it. -/
theorem exists_closer_of_readFrom {r : Reader} {stack : List Pending} {start : Position}
    {b : Bracket} {recent : List Datum} {ts rest : List Token} {d : Datum}
    (h : r.readFrom (stack ++ [.group b start recent]) ts = (.ok d, rest)) :
    ∃ before closer after, ts = before ++ closer :: after ∧ closer.lexeme = .closing b ∧
      before.foldl Progress.settle (some stack) = some [] := by
  induction ts generalizing stack recent with
  | nil => cases h
  | cons t ts ih =>
    rw [readFrom] at h
    -- A step without the group that is no error goes on in it.
    have hnext : ∀ stack' recent', Progress.settle (some stack) t = some stack' →
        r.readFrom (stack' ++ [.group b start recent']) ts = (.ok d, rest) →
        ∃ before closer after, t :: ts = before ++ closer :: after ∧ closer.lexeme = .closing b ∧
          before.foldl Progress.settle (some stack) = some [] := by
      intro stack' recent' hsettle hread
      obtain ⟨before, closer, after, rfl, hcloser, hbefore⟩ := ih hread
      refine ⟨t :: before, closer, after, rfl, hcloser, ?_⟩
      rw [List.foldl_cons, hsettle, hbefore]
    cases hstep : Advance.step stack t with
    | more stack' =>
      rw [Advance.step_append_of_more hstep] at h
      exact hnext stack' recent (by rw [Progress.settle, hstep]) h
    | form e =>
      rw [Advance.step_append_of_form hstep] at h
      exact hnext [] (e :: recent) (by rw [Progress.settle, hstep]) h
    | error e used =>
      rcases Advance.step_append_of_error hstep with ⟨rfl, closer, hcloser⟩ | herror
      · by_cases hb : closer = b
        · exact ⟨[], t, ts, rfl, hb ▸ hcloser, rfl⟩
        · simp [Advance.step, hcloser, Advance.close, hb] at h
      · simp [herror] at h

end Reader

end Lisp
