import Lisp.Proofs.Datum.Reading

/-!
Reading a text that goes on behind a line break. The tokens of the text stay where they are, and so
do the forms and the error that they make. A text that stops inside a form can be completed: an open
string is closed, every place that waits for a form gets `nil`, and every bracket is closed from the
innermost outwards.
-/
namespace Lisp

namespace Lexer

/-- A line break ends the token that the end of the text would end. Behind it nothing is open but
perhaps a string, and no backslash is pending in it. -/
theorem feed_newline (l : Lexer) :
    (l.feed Text.newline).tokens.toList = l.finish ∧
      ((l.trouble? = none ∧ (l.feed Text.newline).mode = .gap) ∨
        ∃ start recent, (l.feed Text.newline).mode = .string start recent false) := by
  have hrole : Role.of Text.newline = .blank := by decide
  rw [finish_eq]
  cases hmode : l.mode with
  | gap => simp [trouble?, feed, take, hmode, begin, hrole, last?]
  | comment => simp [trouble?, feed, take, hmode, last?]
  | tilde start =>
    have hat : Text.newline ≠ 64 := by decide
    simp [trouble?, feed, take, hmode, begin, hrole, hat, emit, last?]
  | word start first recent => simp [trouble?, feed, take, hmode, begin, hrole, emit, last?]
  | string start recent escaped =>
    have hquote : Text.newline ≠ 34 := by decide
    have hslash : Text.newline ≠ 92 := by decide
    cases escaped with
    | true => simp [feed, take, hmode, last?]
    | false => simp [feed, take, hmode, hquote, hslash, last?]

theorem run_newline (source t : Text) :
    run (source ++ Text.newline :: t) = t.foldl feed ((run source).feed Text.newline) := by
  rw [run_append, List.foldl_cons]

/-- The tokens of a text are the first tokens of every continuation. -/
theorem finish_prefix (source t : Text) :
    (run source).finish <+: (run (source ++ Text.newline :: t)).finish := by
  rw [run_newline, finish_eq (t.foldl feed _), ← (feed_newline _).1]
  exact (tokens_feed _ t).trans (List.prefix_append _ _)

end Lexer

namespace Reader

/-- Forms that are complete stay, and the reading goes on with what is pending. -/
theorem formsFrom_append (r r' : Reader) {stack pending : List Pending} {ts : List Token}
    (h : ts.foldl Progress.settle (some stack) = some pending) (more : List Token) :
    r'.formsFrom stack (ts ++ more) =
      ((r.formsFrom stack ts).1 ++ (r'.formsFrom pending more).1,
        (r'.formsFrom pending more).2) := by
  induction ts generalizing stack with
  | nil =>
    cases h
    cases pending <;> rfl
  | cons t rest ih =>
    rw [List.foldl_cons, Progress.settle] at h
    rw [List.cons_append, formsFrom_cons, formsFrom_cons]
    cases hstep : Advance.step stack t with
    | more stack' =>
      simp only [hstep] at h ⊢
      exact ih h
    | form d =>
      simp only [hstep] at h ⊢
      rw [ih h]
      rfl
    | error e used =>
      simp only [hstep, Progress.settle_none] at h
      cases h

/-- An error that a token makes stays, with the forms before it. -/
theorem formsFrom_append_of_error (r r' : Reader) {stack : List Pending} {ts : List Token}
    (h : ts.foldl Progress.settle (some stack) = none) (more : List Token) :
    (r'.formsFrom stack (ts ++ more)).1 = (r.formsFrom stack ts).1 ∧
      (r'.formsFrom stack (ts ++ more)).2.1 = (r.formsFrom stack ts).2.1 := by
  induction ts generalizing stack with
  | nil => cases h
  | cons t rest ih =>
    rw [List.foldl_cons, Progress.settle] at h
    rw [List.cons_append, formsFrom_cons, formsFrom_cons]
    cases hstep : Advance.step stack t with
    | more stack' =>
      simp only [hstep] at h ⊢
      exact ih h
    | form d =>
      simp only [hstep] at h ⊢
      obtain ⟨hforms, herror⟩ := ih h
      exact ⟨congrArg (d :: ·) hforms, herror⟩
    | error e used => exact ⟨rfl, rfl⟩

/-- A form that is read first is the first of all forms. -/
theorem formsFrom_of_readFrom {r : Reader} {stack : List Pending} {ts rest : List Token} {d : Datum}
    (h : r.readFrom stack ts = (.ok d, rest)) :
    r.formsFrom stack ts = (d :: (r.formsFrom [] rest).1, (r.formsFrom [] rest).2) := by
  induction ts generalizing stack with
  | nil => cases h
  | cons t more ih =>
    rw [readFrom] at h
    rw [formsFrom_cons]
    cases hstep : Advance.step stack t with
    | more stack' =>
      simp only [hstep] at h ⊢
      exact ih h
    | form e =>
      simp only [hstep] at h ⊢
      cases h
      rfl
    | error e used =>
      simp only [hstep] at h
      cases h

end Reader

/-- What completes a form: `nil` where a form is missing, or a closing bracket. -/
inductive Filler
  | nil
  | closer (b : Bracket)

namespace Filler

def text : Filler → Text
  | .nil => Text.of "nil "
  | .closer b => [b.closer]

def lexemes : Filler → List Lexeme
  | .nil => Datum.nil.lexemes
  | .closer b => [.closing b]

/-- Ends a group of so many items. A map gets the value that its last key lacks. -/
def closing (b : Bracket) (size : Nat) : List Filler :=
  if b = .curly ∧ size % 2 ≠ 0 then [.nil, .closer b] else [.closer b]

/-- What is missing once the innermost pending form has been handed a datum. -/
def afterDatum : List Pending → List Filler
  | [] => []
  | .mark _ :: outer => afterDatum outer
  | .metadata :: outer => .nil :: afterDatum outer
  | .annotated _ :: outer => afterDatum outer
  | .group b _ recent :: outer => closing b (recent.length + 1) ++ afterDatum outer

/-- What completes the pending forms. -/
def completion : List Pending → List Filler
  | [] => []
  | .group b _ recent :: outer => closing b recent.length ++ afterDatum outer
  | stack => .nil :: afterDatum stack

/-- Fillers follow each other without a gap: `nil` brings a space. -/
theorem foldl_feed_text {l : Lexer} (h : l.mode = .gap) (f : Filler) :
    (f.text.foldl Lexer.feed l).mode = .gap ∧
      (f.text.foldl Lexer.feed l).lexemes = l.lexemes ++ f.lexemes := by
  cases f with
  | nil =>
    have hword : IsWord Datum.nil.text := Datum.nil_isReadable.1
    obtain ⟨hedge, hlexemes⟩ := Lexer.foldl_feed_word h hword
    obtain ⟨hgap, hblank⟩ := Lexer.feed_blank hedge Lexer.role_space
    have htext : Filler.nil.text = Datum.nil.text ++ [32] := by decide
    rw [htext, List.foldl_append]
    refine ⟨hgap, hblank.trans ?_⟩
    rw [hlexemes, lexemes, Datum.lexemes_word (by simp [Datum.IsLeaf]) (by simp)]
  | closer b => exact Lexer.feed_single (Or.inl h) (Lexer.role_closer b)

theorem foldl_feed_texts {l : Lexer} (h : l.mode = .gap) (fs : List Filler) :
    ((fs.flatMap text).foldl Lexer.feed l).mode = .gap ∧
      ((fs.flatMap text).foldl Lexer.feed l).lexemes = l.lexemes ++ fs.flatMap lexemes := by
  induction fs generalizing l with
  | nil => exact ⟨h, by simp⟩
  | cons f fs ih =>
    obtain ⟨hgap, hlexemes⟩ := foldl_feed_text h f
    obtain ⟨hgap', hlexemes'⟩ := ih hgap
    rw [List.flatMap_cons, List.foldl_append, List.flatMap_cons]
    refine ⟨hgap', ?_⟩
    rw [hlexemes', hlexemes, List.append_assoc]

/-- The tokens that a text of fillers adds. -/
theorem exists_tokens {l : Lexer} (h : l.mode = .gap) (fs : List Filler) :
    ∃ ts, ((fs.flatMap text).foldl Lexer.feed l).finish = l.tokens.toList ++ ts ∧
      ts.map (·.lexeme) = fs.flatMap lexemes := by
  obtain ⟨hgap, hlexemes⟩ := foldl_feed_texts h fs
  obtain ⟨ts, hts⟩ := Lexer.tokens_feed l (fs.flatMap text)
  refine ⟨ts, ?_, ?_⟩
  · rw [Lexer.finish_eq, hts]
    simp [Lexer.last?, hgap]
  · rw [Lexer.lexemes_of_gap hgap, Lexer.lexemes_of_gap h, ← hts, List.map_append] at hlexemes
    exact List.append_cancel_left hlexemes

/-- `nil` is handed to the innermost pending form. -/
theorem readFrom_nil {ts : List Token} {ls : List Lexeme}
    (hts : ts.map (·.lexeme) = Filler.nil.lexemes ++ ls) (r : Reader) (stack : List Pending) :
    ∃ rest, rest.map (·.lexeme) = ls ∧
      r.readFrom stack ts = r.after rest (Advance.place .nil stack) := by
  obtain ⟨front, rest, rfl, hfront, hrest⟩ := List.map_eq_append_iff.mp hts
  refine ⟨rest, hrest, ?_⟩
  exact Datum.readFrom_leaf Datum.nil_isReadable.2 (by simp [Datum.IsLeaf]) hfront r stack rest

/-- A group of any size is closed. -/
theorem readFrom_closing {b : Bracket} {recent : List Datum} {ts : List Token} {ls : List Lexeme}
    (hts : ts.map (·.lexeme) = (closing b recent.length).flatMap lexemes ++ ls) (r : Reader)
    (start : Position) (outer : List Pending) :
    ∃ d rest, rest.map (·.lexeme) = ls ∧
      r.readFrom (.group b start recent :: outer) ts = r.after rest (Advance.place d outer) := by
  have hclose : ∀ items : List Datum, (b = .curly → items.length % 2 = 0) →
      ∀ us : List Token, us.map (·.lexeme) = .closing b :: ls →
      ∃ rest, rest.map (·.lexeme) = ls ∧ r.readFrom (.group b start items :: outer) us =
        r.after rest (Advance.place (.group b items.reverse) outer) := by
    intro items heven us hus
    obtain ⟨c, rest, rfl, hc, hrest⟩ := Datum.exists_of_map_cons hus
    exact ⟨rest, hrest, Reader.readFrom_of_step (Advance.step_closing hc heven start outer) rest⟩
  by_cases hodd : b = .curly ∧ recent.length % 2 ≠ 0
  · rw [closing, if_pos hodd] at hts
    have hpadded : ts.map (·.lexeme) = Filler.nil.lexemes ++ .closing b :: ls := hts
    obtain ⟨back, hback, hnil⟩ := readFrom_nil hpadded r (.group b start recent :: outer)
    have heven : b = .curly → (Datum.nil :: recent).length % 2 = 0 := by
      intro _
      rw [List.length_cons]
      omega
    obtain ⟨rest, hrest, hread⟩ := hclose (.nil :: recent) heven back hback
    exact ⟨_, rest, hrest, hnil.trans hread⟩
  · rw [closing, if_neg hodd] at hts
    have heven : b = .curly → recent.length % 2 = 0 := fun hcurly =>
      Decidable.not_not.mp fun hne => hodd ⟨hcurly, hne⟩
    obtain ⟨rest, hrest, hread⟩ := hclose recent heven ts hts
    exact ⟨_, rest, hrest, hread⟩

/-- A datum is handed over, and what is then missing completes one form. -/
theorem after_place {stack : List Pending} {ts : List Token}
    (hts : ts.map (·.lexeme) = (afterDatum stack).flatMap lexemes) (r : Reader) (d : Datum) :
    ∃ whole, r.after ts (Advance.place d stack) = (.ok whole, []) := by
  induction stack generalizing ts d with
  | nil =>
    cases List.map_eq_nil_iff.mp hts
    exact ⟨d, rfl⟩
  | cons p outer ih =>
    cases p with
    | mark m => exact ih hts _
    | metadata =>
      obtain ⟨rest, hrest, hread⟩ := readFrom_nil hts r (.annotated d :: outer)
      obtain ⟨whole, hwhole⟩ := ih hrest _
      exact ⟨whole, hread.trans hwhole⟩
    | annotated metadata => exact ih hts _
    | group b start recent =>
      have hsize : recent.length + 1 = (d :: recent).length := rfl
      rw [afterDatum, List.flatMap_append, hsize] at hts
      obtain ⟨e, rest, hrest, hread⟩ := readFrom_closing hts r start outer
      obtain ⟨whole, hwhole⟩ := ih hrest e
      exact ⟨whole, hread.trans hwhole⟩

theorem readFrom_completion {stack : List Pending} (hne : stack ≠ []) {ts : List Token}
    (hts : ts.map (·.lexeme) = (completion stack).flatMap lexemes) (r : Reader) :
    ∃ whole, r.readFrom stack ts = (.ok whole, []) := by
  have hnil (hts : ts.map (·.lexeme) = Filler.nil.lexemes ++ (afterDatum stack).flatMap lexemes) :
      ∃ whole, r.readFrom stack ts = (.ok whole, []) := by
    obtain ⟨rest, hrest, hread⟩ := readFrom_nil hts r stack
    obtain ⟨whole, hwhole⟩ := after_place hrest r .nil
    exact ⟨whole, hread.trans hwhole⟩
  cases stack with
  | nil => exact absurd rfl hne
  | cons p outer =>
    cases p with
    | mark m => exact hnil hts
    | metadata => exact hnil hts
    | annotated metadata => exact hnil hts
    | group b start recent =>
      rw [completion, List.flatMap_append] at hts
      obtain ⟨d, rest, hrest, hread⟩ := readFrom_closing hts r start outer
      obtain ⟨whole, hwhole⟩ := after_place hrest r d
      exact ⟨whole, hread.trans hwhole⟩

end Filler

namespace Datum

theorem readAll_eq (source : Text) :
    readAll source =
      (((Reader.ofText source).formsFrom [] (Lexer.run source).finish).1,
        ((Reader.ofText source).formsFrom [] (Lexer.run source).finish).2.1) :=
  rfl

/-- One more form completes a text that stops inside a form. -/
theorem exists_completion {source : Text} {stack : List Pending}
    (hsettle : (Lexer.run source).finish.foldl Progress.settle (some []) = some stack)
    (hopen : (Lexer.run source).trouble? ≠ none ∨ stack ≠ []) :
    ∃ t d, readAll (source ++ Text.newline :: t) = ((readAll source).1 ++ [d], none) := by
  -- The tokens of the continuation need only complete one form.
  have hcompletes : ∀ (t : Text) (ts : List Token),
      (t.foldl Lexer.feed ((Lexer.run source).feed Text.newline)).finish =
        (Lexer.run source).finish ++ ts →
      (t.foldl Lexer.feed ((Lexer.run source).feed Text.newline)).mode = .gap →
      (∀ r : Reader, ∃ whole, r.readFrom stack ts = (.ok whole, [])) →
      ∃ t d, readAll (source ++ Text.newline :: t) = ((readAll source).1 ++ [d], none) := by
    intro t ts hfinish hgap hread
    obtain ⟨whole, hwhole⟩ := hread (Reader.ofText (source ++ Text.newline :: t))
    refine ⟨t, whole, ?_⟩
    have htrouble : (Reader.ofText (source ++ Text.newline :: t)).trouble = none := by
      change (Lexer.run (source ++ Text.newline :: t)).trouble? = none
      simp [Lexer.run_newline, Lexer.trouble?, hgap]
    rw [readAll_eq, Lexer.run_newline, hfinish,
      Reader.formsFrom_append (Reader.ofText source) _ hsettle, Reader.formsFrom_of_readFrom hwhole,
      readAll_eq]
    simp [Reader.formsFrom, htrouble]
  obtain ⟨htokens, ⟨htrouble, hgap⟩ | ⟨start, recent, hstring⟩⟩ :=
    Lexer.feed_newline (Lexer.run source)
  · have hne : stack ≠ [] := hopen.resolve_left fun hsome => hsome htrouble
    obtain ⟨hgap', _⟩ := Filler.foldl_feed_texts hgap (Filler.completion stack)
    obtain ⟨ts, hfinish, hts⟩ := Filler.exists_tokens hgap (Filler.completion stack)
    rw [htokens] at hfinish
    exact hcompletes _ ts hfinish hgap' (Filler.readFrom_completion hne hts)
  · -- The string is closed first and handed over like any datum.
    obtain ⟨hclosed, hstring'⟩ := Lexer.feed_closeQuote hstring
    obtain ⟨hgap, _⟩ := Filler.foldl_feed_texts hclosed (Filler.afterDatum stack)
    obtain ⟨ts, hfinish, hts⟩ := Filler.exists_tokens hclosed (Filler.afterDatum stack)
    rw [hstring', htokens, List.append_assoc, List.singleton_append] at hfinish
    refine hcompletes (34 :: (Filler.afterDatum stack).flatMap Filler.text) _ hfinish hgap ?_
    intro r
    obtain ⟨whole, hwhole⟩ := Filler.after_place hts r (.string recent.reverse)
    exact ⟨whole, (Reader.readFrom_of_step (Advance.step_string rfl stack) ts).trans hwhole⟩

/-- An error was made by a token, or by the end of the text inside a form. -/
theorem error_cases {source : Text} {e : ParseError} (h : (readAll source).2 = some e) :
    (e.isIncomplete = false ∧
      (Lexer.run source).finish.foldl Progress.settle (some []) = none) ∨
    (e.isIncomplete = true ∧
      ∃ stack, (Lexer.run source).finish.foldl Progress.settle (some []) = some stack ∧
        ((Lexer.run source).trouble? ≠ none ∨ stack ≠ [])) := by
  have hany := Progress.formsFrom_isIncomplete (Reader.ofText source)
    (fun _ => Progress.isIncomplete_of_trouble) [] (Lexer.run source).finish
  change ((Reader.ofText source).formsFrom [] (Lexer.run source).finish).2.1 = some e at h
  rw [h, Option.any_some] at hany
  cases hsettle : (Lexer.run source).finish.foldl Progress.settle (some []) with
  | none =>
    rw [hsettle] at hany
    exact Or.inl ⟨hany, rfl⟩
  | some stack =>
    rw [hsettle] at hany
    right
    cases stack with
    | nil =>
      -- Nothing is pending, so the error can only be the open string.
      have hforms :=
        Reader.formsFrom_append (Reader.ofText source) (Reader.ofText source) hsettle []
      rw [List.append_nil] at hforms
      rw [hforms] at h
      change (Lexer.run source).trouble? = some e at h
      refine ⟨Progress.isIncomplete_of_trouble h, [], rfl, Or.inl ?_⟩
      rw [h]
      exact Option.some_ne_none e
    | cons p outer =>
      refine ⟨?_, p :: outer, rfl, Or.inr (List.cons_ne_nil p outer)⟩
      rw [hany]
      simp

/-- No text mends an error that a token made. -/
theorem readAll_of_settle_eq_none {source : Text}
    (h : (Lexer.run source).finish.foldl Progress.settle (some []) = none) (t : Text) :
    readAll (source ++ Text.newline :: t) = readAll source := by
  obtain ⟨more, hmore⟩ := Lexer.finish_prefix source t
  obtain ⟨hforms, herror⟩ := Reader.formsFrom_append_of_error (Reader.ofText source)
    (Reader.ofText (source ++ Text.newline :: t)) h more
  rw [readAll_eq (source ++ _), ← hmore, hforms, herror]
  rfl

/-- An error is incomplete exactly when more text can mend it. If it is, some text behind a line
break completes one more form behind those that were read; if it is not, no text changes what was
read or the error. The answer for a text that was taken piece by piece is the same. -/
theorem isIncomplete_iff_mendable (source : Text) :
    (∀ e, (readAll source).2 = some e → e.isIncomplete = true →
      ∃ t d, readAll (source ++ Text.newline :: t) = ((readAll source).1 ++ [d], none)) ∧
    (∀ e, (readAll source).2 = some e → e.isIncomplete = false →
      ∀ t : Text, readAll (source ++ Text.newline :: t) = ((readAll source).1, some e)) ∧
    (isIncomplete source = true ↔ ∃ e, (readAll source).2 = some e ∧ e.isIncomplete = true) ∧
    (isIncomplete source = true ↔
      (readAll source).2 ≠ none ∧ ∃ t : Text, (readAll (source ++ Text.newline :: t)).2 = none) ∧
    ∀ i : Intake, i.text.toList = source → i.isIncomplete = isIncomplete source := by
  have hmend : ∀ e, (readAll source).2 = some e → e.isIncomplete = true →
      ∃ t d, readAll (source ++ Text.newline :: t) = ((readAll source).1 ++ [d], none) := by
    intro e h he
    rcases error_cases h with ⟨hcomplete, _⟩ | ⟨_, stack, hsettle, hopen⟩
    · rw [he] at hcomplete
      cases hcomplete
    · exact exists_completion hsettle hopen
  have hkeep : ∀ e, (readAll source).2 = some e → e.isIncomplete = false →
      ∀ t : Text, readAll (source ++ Text.newline :: t) = ((readAll source).1, some e) := by
    intro e h he t
    rcases error_cases h with ⟨_, hsettle⟩ | ⟨hincomplete, _⟩
    · rw [readAll_of_settle_eq_none hsettle, ← h]
    · rw [he] at hincomplete
      cases hincomplete
  have hiff : isIncomplete source = true ↔
      ∃ e, (readAll source).2 = some e ∧ e.isIncomplete = true := by
    rw [isIncomplete, Option.any_eq_true]
  refine ⟨hmend, hkeep, hiff, ⟨?_, ?_⟩, ?_⟩
  · intro h
    obtain ⟨e, herror, he⟩ := hiff.mp h
    obtain ⟨t, d, ht⟩ := hmend e herror he
    refine ⟨?_, t, by rw [ht]⟩
    rw [herror]
    exact Option.some_ne_none e
  · rintro ⟨hne, t, ht⟩
    obtain ⟨e, herror⟩ := Option.ne_none_iff_exists'.mp hne
    refine hiff.mpr ⟨e, herror, ?_⟩
    cases he : e.isIncomplete with
    | true => rfl
    | false =>
      rw [hkeep e herror he t] at ht
      cases ht
  · intro i hi
    rw [i.isIncomplete_eq, hi]

/-- A map that lacks a value and an open string with a backslash pending can be mended; a bracket
closed by the wrong closer cannot, whatever string is open behind it. -/
theorem isIncomplete_iff_mendable_samples :
    ((readAll (Text.of "1 (^\x7b:a '~[2 \"x\\")).2 = some ⟨⟨1, 14⟩, .unterminatedString⟩ ∧
      ∃ t d, readAll (Text.of "1 (^\x7b:a '~[2 \"x\\" ++ Text.newline :: t) =
        ((readAll (Text.of "1 (^\x7b:a '~[2 \"x\\")).1 ++ [d], none)) ∧
    ((readAll (Text.of "1 (2] \"x")).2 = some ⟨⟨1, 5⟩, .wrongCloser .square .round⟩ ∧
      ∀ t, readAll (Text.of "1 (2] \"x" ++ Text.newline :: t) =
        ((readAll (Text.of "1 (2] \"x")).1, some ⟨⟨1, 5⟩, .wrongCloser .square .round⟩)) ∧
    ((Intake.empty.addLine (Text.of "[1")).addLine (Text.of "2")).isIncomplete =
      isIncomplete (Text.of "[1\n2") := by
  have hopen : (readAll (Text.of "1 (^\x7b:a '~[2 \"x\\")).2 =
      some ⟨⟨1, 14⟩, .unterminatedString⟩ := by decide +kernel
  have hclosed : (readAll (Text.of "1 (2] \"x")).2 =
      some ⟨⟨1, 5⟩, .wrongCloser .square .round⟩ := by decide +kernel
  refine ⟨⟨hopen, (isIncomplete_iff_mendable _).1 _ hopen rfl⟩,
    ⟨hclosed, (isIncomplete_iff_mendable _).2.1 _ hclosed rfl⟩, ?_⟩
  exact (isIncomplete_iff_mendable _).2.2.2.2 _ (by decide +kernel)

end Datum

end Lisp
