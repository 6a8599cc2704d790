import Lisp.Datum.Reader
import Lisp.Text.Rope

/-!
Whether a text that comes piece by piece is complete. What is known of the pieces so far is kept, so
that each one is looked at once; the answer is that for all of them together.
-/
namespace Lisp

/-- What is known of a text that may go on. -/
structure Progress where
  lexer : Lexer
  /-- The forms pending after the tokens of the lexer; none after an error. -/
  stack : Option (List Pending)

namespace Progress

/-- What one more token makes of the pending forms. -/
def settle (stack : Option (List Pending)) (t : Token) : Option (List Pending) :=
  match stack with
  | none => none
  | some stack =>
    match Advance.step stack t with
    | .more stack => some stack
    | .form _ => some []
    | .error .. => none

def ofText (source : Text) : Progress :=
  let lexer := Lexer.run source
  ⟨lexer, lexer.tokens.foldl settle (some [])⟩

/-- What is known after one more piece of text. -/
def feed (p : Progress) (more : Text) : Progress :=
  let ⟨lexer, stack⟩ := p
  let known := lexer.tokens.size
  let lexer := more.foldl Lexer.feed lexer
  ⟨lexer, (lexer.tokens.extract known).foldl settle stack⟩

theorem feed_ofText (source more : Text) : (ofText source).feed more = ofText (source ++ more) := by
  have htokens := List.prefix_iff_eq_append.mp (Lexer.tokens_feed (Lexer.run source) more)
  have hextract : (((more.foldl Lexer.feed (Lexer.run source)).tokens.extract
      (Lexer.run source).tokens.size).toList) =
        (more.foldl Lexer.feed (Lexer.run source)).tokens.toList.drop
          (Lexer.run source).tokens.toList.length := by
    rw [Array.toList_extract, List.extract_eq_take_drop, Array.length_toList]
    exact List.take_of_length_le (by simp)
  simp only [ofText, feed, Lexer.run_append, mk.injEq, true_and]
  rw [← Array.foldl_toList, ← Array.foldl_toList, ← Array.foldl_toList, hextract,
    ← List.foldl_append, htokens]

/-- Whether the text ends in the middle of a form. -/
def isIncomplete (p : Progress) : Bool :=
  match p.lexer.last?.toList.foldl settle p.stack with
  | none => false
  | some stack => p.lexer.trouble?.isSome || !stack.isEmpty

theorem ofWord_complete {first : UInt8} {rest : Text} {cause : ParseCause}
    (h : Datum.ofWord (first :: rest) = .error cause) : cause.isIncomplete = false := by
  rw [Datum.ofWord_cons, Datum.ofName_cons] at h
  split at h
  · split at h
    · cases h
    · cases h
      rfl
    · split at h <;> cases h
      rfl
  · cases h

theorem ofAtom_complete {text : Text} {cause : ParseCause} (h : Datum.ofAtom text = .error cause) :
    cause.isIncomplete = false := by
  cases text with
  | nil =>
    cases h
    rfl
  | cons first rest =>
    by_cases hquote : first = 34
    · rw [Datum.ofAtom, fetch_zero, ParseCause.check_ok_bind, if_pos hquote] at h
      cases hcontent : part (first :: rest) 1 ((first :: rest).length - 1) with
      | ok content =>
        rw [hcontent] at h
        cases h
      | error c =>
        rw [hcontent] at h
        cases h
        rfl
    · rw [Datum.ofAtom_word hquote] at h
      exact ofWord_complete h

theorem place_ne_error (d : Datum) (stack : List Pending) (e : ParseError) (used : Bool) :
    Advance.place d stack ≠ .error e used := by
  induction stack generalizing d with
  | nil => simp [Advance.place]
  | cons p outer ih => cases p <;> simp [Advance.place, ih]

/-- More text never mends an error that a token makes. -/
theorem step_complete {stack : List Pending} {t : Token} {e : ParseError} {used : Bool}
    (h : Advance.step stack t = .error e used) : e.isIncomplete = false := by
  unfold Advance.step at h
  split at h
  · cases h
  · unfold Advance.close at h
    split at h
    · split at h
      · cases h
        rfl
      · split at h
        · cases h
          rfl
        · exact absurd h (place_ne_error _ _ _ _)
    · cases h
      rfl
  · cases h
  · cases h
  · split at h
    · exact absurd h (place_ne_error _ _ _ _)
    · rename_i hatom
      cases h
      exact ofAtom_complete hatom

theorem settle_none (tokens : List Token) : tokens.foldl settle none = none := by
  induction tokens with
  | nil => rfl
  | cons t rest ih => exact ih

theorem formsFrom_isIncomplete (r : Reader) (h : ∀ e, r.trouble = some e → e.isIncomplete = true)
    (stack : List Pending) (tokens : List Token) :
    (r.formsFrom stack tokens).2.1.any ParseError.isIncomplete =
      match tokens.foldl settle (some stack) with
      | none => false
      | some stack => r.trouble.isSome || !stack.isEmpty := by
  induction tokens generalizing stack with
  | nil =>
    cases stack with
    | nil =>
      rw [Reader.formsFrom]
      cases htrouble : r.trouble with
      | none => rfl
      | some e => simp [h e htrouble]
    | cons p outer =>
      rw [Reader.formsFrom]
      have hended : (r.ended (p :: outer)).isIncomplete = true := by
        unfold Reader.ended
        cases htrouble : r.trouble with
        | none => cases p <;> rfl
        | some e => exact h e htrouble
      simp [hended]
  | cons t rest ih =>
    rw [Reader.formsFrom_cons, List.foldl_cons, settle]
    cases hstep : Advance.step stack t with
    | more stack => exact ih stack
    | form d => exact ih []
    | error e used => simp [settle_none, step_complete hstep]

/-- A string that is left open can be closed. -/
theorem isIncomplete_of_trouble {source : Text} {e : ParseError}
    (h : (Reader.ofText source).trouble = some e) : e.isIncomplete = true := by
  change (Lexer.run source).trouble? = some e at h
  unfold Lexer.trouble? at h
  split at h <;> cases h
  rfl

/-- The answer is that of reading the text. -/
theorem isIncomplete_ofText (source : Text) :
    (ofText source).isIncomplete = Datum.isIncomplete source := by
  have hforms := formsFrom_isIncomplete (Reader.ofText source) (fun _ => isIncomplete_of_trouble) []
    (Lexer.run source).finish
  rw [Datum.isIncomplete, Datum.readAll, isIncomplete]
  refine Eq.trans ?_ hforms.symm
  rw [Lexer.finish_eq, List.foldl_append, ofText, ← Array.foldl_toList]
  rfl

end Progress

/-- Text that was taken piece by piece, and what is known of it. -/
structure Intake where
  text : Rope
  progress : Progress
  progress_eq : progress = Progress.ofText text.toList

namespace Intake

def empty : Intake := ⟨.empty, .ofText [], rfl⟩

def isEmpty (i : Intake) : Bool := i.text.size == 0

def add (i : Intake) (more : Text) : Intake :=
  ⟨i.text.append more, i.progress.feed more, by
    rw [i.progress_eq, Progress.feed_ofText, Sequence.toList_append]⟩

@[simp] theorem text_add (i : Intake) (more : Text) :
    (i.add more).text.toList = i.text.toList ++ more :=
  Sequence.toList_append ..

/-- Adds a line; line breaks stand between lines only. -/
def addLine (i : Intake) (line : Text) : Intake :=
  i.add (if i.isEmpty then line else Text.newline :: line)

/-- Whether the text ends in the middle of a form. -/
def isIncomplete (i : Intake) : Bool := i.progress.isIncomplete

theorem isIncomplete_eq (i : Intake) : i.isIncomplete = Datum.isIncomplete i.text.toList := by
  rw [isIncomplete, i.progress_eq, Progress.isIncomplete_ofText]

end Intake

end Lisp
