import Lisp.Proofs.Datum.Wrapping

/-!
A text behind an opening bracket and a name. The form that begins there ends at the first round
closer that closes nothing in the text alone: what stands in front of it reads without an error, and
its forms become the items. So a file between `(do ` and a line with `nil)` reads as one form when
all of it reads. It also does when the file has a closer too many, which ends the form early, or
lacks a form at its end, whose place `nil` takes. Any other error of the file is one of the whole.
-/
namespace Lisp

namespace Lexer

variable {l : Lexer}

theorem closer_of_role {x : UInt8} {b : Bracket} (h : Role.of x = .single (.closing b)) :
    x = b.closer := by
  have hall : ∀ n < 256, ∀ b ∈ [Bracket.round, .square, .curly],
      Role.of (.ofNat n) = .single (.closing b) → UInt8.ofNat n = b.closer := by
    decide +kernel
  have hx := hall x.toNat x.toNat_lt b (by cases b <;> simp)
  rw [UInt8.ofNat_toNat] at hx
  exact hx h

theorem feed_closer (htrouble : l.trouble? = none) (hcomment : l.mode ≠ .comment) (b : Bracket) :
    (l.feed b.closer).tokens.toList = l.finish ++ [⟨.closing b, l.position⟩] := by
  have hrole := role_closer b
  have hat : b.closer ≠ 64 := by cases b <;> decide
  rw [finish_eq]
  cases hmode : l.mode with
  | gap => simp [feed, take, hmode, begin, hrole, emit, last?]
  | comment => exact absurd hmode hcomment
  | tilde start => simp [feed, take, hmode, hat, begin, hrole, emit, last?]
  | word start first recent => simp [feed, take, hmode, begin, hrole, emit, last?]
  | string start recent escaped => simp [trouble?, hmode] at htrouble

theorem exists_finish_closer {front : Text} (htrouble : (run front).trouble? = none)
    (hcomment : (run front).mode ≠ .comment) (b : Bracket) (back : Text) :
    ∃ closer after, closer.lexeme = .closing b ∧
      (run (front ++ b.closer :: back)).finish = (run front).finish ++ closer :: after := by
  obtain ⟨after, hafter⟩ := tokens_feed ((run front).feed b.closer) back
  rw [feed_closer htrouble hcomment b] at hafter
  refine ⟨⟨.closing b, (run front).position⟩,
    after ++ (back.foldl feed ((run front).feed b.closer)).last?.toList, rfl, ?_⟩
  rw [run_append, List.foldl_cons, finish_eq (back.foldl feed _), ← hafter]
  simp

/-- A byte ends the token before it and starts on the next, or it stands in a comment, a string or a
splice. -/
theorem take_cases (l : Lexer) (x : UInt8) :
    (∃ more, (l.take x).tokens.toList = l.tokens.toList ++ more ∧
      ∀ t ∈ more, ∀ b, t.lexeme ≠ .closing b) ∨
    ∃ l' : Lexer, l.take x = l'.begin x ∧ l'.tokens.toList = l.finish ∧ l.trouble? = none ∧
      l.mode ≠ .comment := by
  rw [finish_eq]
  unfold take
  cases hmode : l.mode with
  | gap => exact .inr ⟨l, rfl, by simp [last?, hmode], by simp [trouble?, hmode], by simp⟩
  | comment =>
    refine .inl ⟨[], ?_, by simp⟩
    dsimp only
    split <;> simp
  | tilde start =>
    by_cases hx : x = 64
    · exact .inl ⟨[⟨.mark .splice, start⟩], by simp [hx, emit], by simp⟩
    · exact .inr ⟨l.emit (.mark .unquote) start, by simp [hx], by simp [emit, last?, hmode],
        by simp [trouble?, hmode], by simp⟩
  | word start first recent =>
    by_cases hx : Role.of x = .plain
    · exact .inl ⟨[], by simp [hx], by simp⟩
    · exact .inr ⟨l.emit (.word first recent.reverse) start, by simp [hx],
        by simp [emit, last?, hmode], by simp [trouble?, hmode], by simp⟩
  | string start recent escaped =>
    cases escaped with
    | true => exact .inl ⟨[], by simp, by simp⟩
    | false =>
      by_cases hquote : x = 34
      · exact .inl ⟨[⟨.string recent.reverse, start⟩], by simp [hquote, emit], by simp⟩
      · refine .inl ⟨[], ?_, by simp⟩
        simp only [if_neg hquote]
        split <;> simp

theorem last?_ne_closing {t : Token} (h : t ∈ l.last?.toList) (b : Bracket) :
    t.lexeme ≠ .closing b := by
  unfold last? at h
  split at h <;> simp_all

/-- A list that goes on behind an element goes on there in its first part, if the element is not in
the second. -/
theorem exists_of_append_eq {xs ys before after : List Token} {t : Token}
    (h : xs ++ ys = before ++ t :: after) (ht : t ∉ ys) : ∃ rest, xs = before ++ t :: rest := by
  rcases List.append_eq_append_iff.mp h with ⟨more, rfl, hys⟩ | ⟨more, rfl, hts⟩
  · exact absurd (hys ▸ List.mem_append_right _ List.mem_cons_self) ht
  · cases more with
    | nil =>
      rw [List.nil_append] at hts
      exact absurd (hts ▸ List.mem_cons_self) ht
    | cons u more =>
      rw [List.cons_append, List.cons.injEq] at hts
      exact ⟨more, by rw [hts.1]⟩

/-- The text in front of a closer has the tokens in front of it. -/
theorem exists_text_of_closing {text : Text} {before after : List Token} {t : Token} {b : Bracket}
    (h : (run text).finish = before ++ t :: after) (ht : t.lexeme = .closing b) :
    ∃ front back, text = front ++ b.closer :: back ∧ (run front).finish = before ∧
      (run front).trouble? = none ∧ (run front).mode ≠ .comment := by
  have hlast : ∀ l : Lexer, t ∉ l.last?.toList := fun l hmem => last?_ne_closing hmem b ht
  induction text using List.reverseRecOn generalizing after with
  | nil => simp [run, finish, last?] at h
  | append_singleton text x ih =>
    -- A token of the text in front is found there.
    have hfront : ∀ rest, (run text).finish = before ++ t :: rest →
        ∃ front back, text ++ [x] = front ++ b.closer :: back ∧ (run front).finish = before ∧
          (run front).trouble? = none ∧ (run front).mode ≠ .comment := by
      intro rest hrest
      obtain ⟨front, back, rfl, hspec⟩ := ih hrest
      exact ⟨front, back ++ [x], by simp, hspec⟩
    rw [finish_eq] at h
    obtain ⟨rest, hrest⟩ := exists_of_append_eq h (hlast _)
    rw [run_append] at hrest
    change ((run text).take x).tokens.toList = _ at hrest
    rcases take_cases (run text) x with ⟨more, htokens, hmore⟩ | ⟨l', htake, htokens, hspec⟩
    · rw [htokens] at hrest
      obtain ⟨rest, hrest⟩ := exists_of_append_eq hrest fun hmem => hmore t hmem b ht
      exact hfront (rest ++ (run text).last?.toList) (by rw [finish_eq, hrest]; simp)
    · rw [htake, begin] at hrest
      cases hrole : Role.of x with
      | single lexeme =>
        simp only [hrole, emit, Array.toList_push, htokens] at hrest
        rcases List.eq_nil_or_concat rest with rfl | ⟨rest, last, rfl⟩
        · obtain ⟨hbefore, hclosing⟩ := List.append_inj' hrest rfl
          cases hclosing
          cases ht
          exact ⟨text, [], by rw [closer_of_role hrole], hbefore, hspec⟩
        · have hsplit : (run text).finish ++ [⟨lexeme, l'.position⟩] =
              (before ++ t :: rest) ++ [last] := by simpa using hrest
          exact hfront rest (List.append_inj' hsplit rfl).1
      | _ =>
        simp only [hrole, htokens] at hrest
        exact hfront rest hrest

end Lexer

namespace Datum

open ParseTree

variable {source t : Text} {forms : List Datum}

/-- The text has a round closer that closes nothing, behind the forms. -/
def HasStrayCloser (t : Text) (forms : List Datum) : Prop :=
  ∃ front back, t = front ++ Bracket.round.closer :: back ∧ readAll front = (forms, none) ∧
    (Lexer.run front).mode ≠ .comment

theorem trouble?_of_readAll (h : (readAll source).2 = none) :
    (Lexer.run source).trouble? = none :=
  (Reader.settle_of_formsFrom (r := Reader.ofText source) h).2

/-- Tokens with the lexemes of a text, wherever they stand, read as the text does. -/
theorem formsFrom_lexemes {ts : List Token} (hts : ts.map (·.lexeme) = (Lexer.run source).lexemes) :
    ((Reader.ofText source).formsFrom [] ts).1 = (readAll source).1 ∧
      (((Reader.ofText source).formsFrom [] ts).2.1 = none ↔ (readAll source).2 = none) := by
  obtain ⟨hforms, hcause⟩ :=
    Reader.formsFrom_congr (Eq.refl ((Reader.ofText source).trouble.map (·.cause)))
      (Eq.refl (List.map Pending.unplaced [])) hts
  refine ⟨hforms, ?_⟩
  rw [← Option.map_eq_none_iff, hcause, Option.map_eq_none_iff]
  exact Iff.rfl

/-- A text whose tokens leave nothing pending reads without an error. -/
theorem readAll_of_settle (htrouble : (Lexer.run source).trouble? = none) {ts : List Token}
    (hts : ts.map (·.lexeme) = (Lexer.run source).lexemes)
    (hsettle : ts.foldl Progress.settle (some []) = some []) : (readAll source).2 = none := by
  have hforms := Reader.formsFrom_append (Reader.ofText source) (Reader.ofText source) hsettle []
  rw [List.append_nil] at hforms
  refine (formsFrom_lexemes hts).2.mp ?_
  rw [hforms]
  exact htrouble

/-- Tokens with the lexemes of a text without error hand its forms to a group. -/
theorem handsAll_of_readAll (h : readAll source = (forms, none)) {ts : List Token}
    (hts : ts.map (·.lexeme) = (Lexer.run source).lexemes) : HandsAll ts forms := by
  obtain ⟨hforms, hnone⟩ := formsFrom_lexemes hts
  have hall := handsAll_of_formsFrom (hnone.mpr (congrArg Prod.snd h))
  rwa [hforms, h] at hall

/-- A bracket and a name, and then the lexemes of the text alone. -/
theorem exists_tokens_behind (t : Text) :
    ∃ opener name ts, (Lexer.run (Text.of "(do " ++ t)).finish = opener :: name :: ts ∧
      opener.lexeme = .opening .round ∧ name.lexeme = .word 100 [111] ∧
      ts.map (·.lexeme) = (Lexer.run t).lexemes := by
  have hfront : Lexer.Trails [.opening .round, .word 100 [111]]
      (Lexer.run (Text.of "(do ")) {} := by
    constructor <;> decide
  have hlexemes := (hfront.foldl_feed t).lexemes
  rw [← Lexer.run_append] at hlexemes
  obtain ⟨opener, more, hfinish, hopener, hmore⟩ := exists_of_map_cons hlexemes
  obtain ⟨name, ts, rfl, hname, hts⟩ := exists_of_map_cons hmore
  exact ⟨opener, name, ts, hfinish, hopener, hname, hts⟩

theorem read_of_finish {first : Token} {ts : List Token}
    (h : (Lexer.run source).finish = first :: ts) :
    read source = ((Reader.ofText source).readFrom [] (first :: ts)).1 := by
  have hrest : (Reader.ofText source).rest = first :: ts := h
  rw [read, Reader.next, hrest]

/-- The form that begins with the bracket ends at a stray closer. -/
theorem HasStrayCloser.read_behind (h : HasStrayCloser t forms) :
    read (Text.of "(do " ++ t) = .ok (.call (Text.of "do") forms) := by
  obtain ⟨front, back, rfl, hforms, hcomment⟩ := h
  obtain ⟨opener, name, ts, hfinish, hopener, hname, hts⟩ :=
    exists_tokens_behind (front ++ Bracket.round.closer :: back)
  obtain ⟨closer', after, hcloser', hsplit⟩ := Lexer.exists_finish_closer
    (trouble?_of_readAll (congrArg Prod.snd hforms)) hcomment .round back
  rw [Lexer.lexemes, hsplit, List.map_append, List.map_cons, hcloser'] at hts
  obtain ⟨inside, more, rfl, hinside, hmore⟩ := List.map_eq_append_iff.mp hts
  obtain ⟨closer, rest, rfl, hcloser, _⟩ := exists_of_map_cons hmore
  have hdo : Hands [name] (.symbol (Text.of "do")) := hands_atom hname rfl
  have hall : HandsAll ([name] ++ inside) (.symbol (Text.of "do") :: forms) :=
    hdo.cons (handsAll_of_readAll hforms hinside)
  have hread := hall.group hopener hcloser (by simp)
    (Reader.ofText (Text.of "(do " ++ (front ++ Bracket.round.closer :: back))) [] rest
  rw [Advance.place, Reader.after, List.append_assoc, List.cons_append] at hread
  rw [read_of_finish hfinish]
  exact congrArg Prod.fst (by simpa [Datum.call] using hread)

/-- The text alone reads up to a stray closer. -/
theorem HasStrayCloser.readAll_fst (h : HasStrayCloser t forms) : (readAll t).1 = forms := by
  obtain ⟨front, back, rfl, hforms, hcomment⟩ := h
  have hnone : ((Reader.ofText front).formsFrom [] (Lexer.run front).finish).2.1 = none :=
    congrArg Prod.snd hforms
  obtain ⟨hsettle, htrouble⟩ := Reader.settle_of_formsFrom hnone
  obtain ⟨closer, after, hcloser, hsplit⟩ :=
    Lexer.exists_finish_closer htrouble hcomment .round back
  have hstray : Advance.step [] closer =
      .error ⟨closer.position, .unexpectedCloser .round⟩ false := by
    rw [Advance.step, hcloser]
    rfl
  rw [readAll_eq, hsplit, Reader.formsFrom_append (Reader.ofText front) _ hsettle,
    Reader.formsFrom_cons, hstray, List.append_nil]
  exact congrArg Prod.fst hforms

/-- Nothing else ends it. -/
theorem exists_hasStrayCloser {d : Datum} (h : read (Text.of "(do " ++ t) = .ok d) :
    ∃ forms, HasStrayCloser t forms := by
  obtain ⟨opener, name, ts, hfinish, hopener, hname, hts⟩ := exists_tokens_behind t
  rw [read_of_finish hfinish] at h
  have hopen : Advance.step [] opener = .more [.group .round opener.position []] := by
    rw [Advance.step, hopener]
  have hdo : Hands [name] (.symbol (Text.of "do")) := hands_atom hname rfl
  rw [Reader.readFrom, hopen] at h
  simp only at h
  rw [← List.singleton_append (l := ts), hdo, Advance.place, Reader.after] at h
  have hread : (Reader.ofText (Text.of "(do " ++ t)).readFrom
      ([] ++ [.group .round opener.position [.symbol (Text.of "do")]]) ts = (.ok d, _) :=
    Prod.ext h rfl
  obtain ⟨before, closer, after, rfl, hcloser, hsettle⟩ := Reader.exists_closer_of_readFrom hread
  -- The closer is a byte of the text, and what is in front of it has the tokens in front of it.
  rw [List.map_append, List.map_cons, hcloser] at hts
  obtain ⟨before', more, hsplit, hbefore, hmore⟩ := List.map_eq_append_iff.mp hts.symm
  obtain ⟨closer', after', rfl, hcloser', _⟩ := exists_of_map_cons hmore
  obtain ⟨front, back, rfl, rfl, htrouble, hcomment⟩ :=
    Lexer.exists_text_of_closing hsplit hcloser'
  exact ⟨(readAll front).1, front, back, rfl,
    Prod.ext rfl (readAll_of_settle htrouble hbefore.symm hsettle), hcomment⟩

theorem nil_line : Text.of "\nnil" = Text.newline :: Text.of "nil" := by decide

/-- Behind a line break `nil` is a word, unless a string is open. -/
theorem mode_run_nil (source : Text) :
    ((Lexer.run source).trouble? = none ∧
      (Lexer.run (source ++ Text.newline :: Text.of "nil")).AtEdge) ∨
    ∃ start recent,
      (Lexer.run (source ++ Text.newline :: Text.of "nil")).mode = .string start recent false := by
  rw [Lexer.run_newline]
  rcases (Lexer.feed_newline (Lexer.run source)).2 with ⟨htrouble, hgap⟩ | ⟨start, recent, hstring⟩
  · have hword : IsWord (Text.of "nil") := by decide
    exact .inl ⟨htrouble, (Lexer.foldl_feed_word hgap hword).1⟩
  · have hplain : (Text.of "nil").flatMap Heap.escape = Text.of "nil" := by decide
    have hmode := (Lexer.foldl_feed_escape hstring (Text.of "nil")).1
    rw [hplain] at hmode
    exact .inr ⟨start, _, hmode⟩

/-- A closer closes nothing in a file or, if the file lacks a form at its end, is the one behind it.
-/
theorem hasStrayCloser_wrapped_iff :
    HasStrayCloser (source ++ Text.of "\nnil)") forms ↔
      HasStrayCloser source forms ∨ readAll (source ++ Text.of "\nnil") = (forms, none) := by
  have hlast : Text.of "\nnil)" = Text.of "\nnil" ++ [Bracket.round.closer] := by decide
  constructor
  · rintro ⟨front, back, hsplit, hforms, hcomment⟩
    rcases List.append_eq_append_iff.mp hsplit with ⟨more, rfl, hmore⟩ | ⟨more, rfl, hmore⟩
    · right
      rw [hlast] at hmore
      rcases List.eq_nil_or_concat back with rfl | ⟨back, last, rfl⟩
      · rwa [List.append_cancel_right hmore]
      · have hshift : Text.of "\nnil" ++ [Bracket.round.closer] =
            (more ++ Bracket.round.closer :: back) ++ [last] := by simpa using hmore
        have hmem : Bracket.round.closer ∈ Text.of "\nnil" := by
          rw [(List.append_inj' hshift rfl).1]
          simp
        exact absurd hmem (by decide)
    · left
      cases more with
      | nil =>
        have hhead : some Bracket.round.closer = (Text.of "\nnil)").head? :=
          congrArg List.head? hmore
        exact absurd hhead (by decide)
      | cons x more =>
        rw [List.cons_append, List.cons.injEq] at hmore
        exact ⟨front, more, by rw [hmore.1], hforms, hcomment⟩
  · rintro (⟨front, back, rfl, hspec⟩ | hforms)
    · exact ⟨front, back ++ Text.of "\nnil)", by simp, hspec⟩
    · refine ⟨source ++ Text.of "\nnil", [], by rw [hlast, List.append_assoc], hforms, ?_⟩
      rw [nil_line]
      rcases mode_run_nil source with ⟨_, hmode | ⟨_, _, _, hmode⟩⟩ | ⟨_, _, hmode⟩ <;>
        simp [hmode]

theorem place_ne_more_nil (d : Datum) (stack : List Pending) :
    Advance.place d stack ≠ .more [] := by
  induction stack generalizing d with
  | nil => simp [Advance.place]
  | cons p outer ih =>
    cases p with
    | mark m => exact ih _
    | annotated metadata => exact ih _
    | metadata | group b start recent => simp [Advance.place]

/-- A `nil` that leaves nothing pending completes a form. -/
theorem formsFrom_nil {r : Reader} {stack : List Pending} {last : Token}
    (hlast : last.lexeme = .word 110 [105, 108]) (h : (r.formsFrom stack [last]).2.1 = none) :
    ∃ d, (r.formsFrom stack [last]).1 = [d] := by
  have hstep : Advance.step stack last = Advance.place .nil stack := by
    rw [Advance.step, hlast]
    rfl
  rw [Reader.formsFrom_cons, hstep] at h ⊢
  cases hplace : Advance.place .nil stack with
  | form d => exact ⟨d, rfl⟩
  | more stack' =>
    cases stack' with
    | nil => exact absurd hplace (place_ne_more_nil _ _)
    | cons p outer =>
      rw [hplace] at h
      cases h
  | error e used => exact absurd hplace (Progress.place_ne_error _ _ _ _)

/-- Where `nil` mends a text, it completes one form behind those that were read. -/
theorem exists_of_readAll_nil {ds : List Datum} {e : ParseError}
    (hds : readAll source = (ds, some e))
    (h : readAll (source ++ Text.of "\nnil") = (forms, none)) : ∃ d, forms = ds ++ [d] := by
  rw [nil_line] at h
  rcases error_cases (congrArg Prod.snd hds) with ⟨_, hsettle⟩ | ⟨_, stack, hsettle, _⟩
  · rw [readAll_of_settle_eq_none hsettle, hds] at h
    cases h
  · have htrouble : (Lexer.run source).trouble? = none := by
      rcases mode_run_nil source with ⟨htrouble, _⟩ | ⟨start, recent, hmode⟩
      · exact htrouble
      · have hclosed := trouble?_of_readAll (congrArg Prod.snd h)
        simp [Lexer.trouble?, hmode] at hclosed
    have hfinish := congrArg Lexer.finish (run_newline_behind htrouble (Text.of "nil"))
    rw [Lexer.finish_behind, List.toList_toArray] at hfinish
    rw [readAll_eq, hfinish, Reader.formsFrom_append (Reader.ofText source) _ hsettle] at h
    obtain ⟨last, hlast, hword⟩ : ∃ last, (Lexer.run (Text.of "nil")).finish.map
        (Token.move (Position.below (1 + source.count Text.newline))) = [last] ∧
        last.lexeme = .word 110 [105, 108] := ⟨_, rfl, rfl⟩
    rw [hlast] at h
    obtain ⟨d, hd⟩ := formsFrom_nil hword (congrArg Prod.snd h)
    refine ⟨d, ?_⟩
    have hforms : ((Reader.ofText source).formsFrom [] (Lexer.run source).finish).1 = ds :=
      congrArg Prod.fst hds
    rw [hforms, hd] at h
    exact (congrArg Prod.fst h).symm

/-- What a file reads as between `(do ` and `nil)`. -/
theorem read_wrapped_iff {d : Datum} :
    read (Text.of "(do " ++ source ++ Text.of "\nnil)") = .ok d ↔
      ∃ forms, (HasStrayCloser source forms ∨ readAll (source ++ Text.of "\nnil") = (forms, none)) ∧
        d = .call (Text.of "do") forms := by
  rw [List.append_assoc]
  constructor
  · intro h
    obtain ⟨forms, hforms⟩ := exists_hasStrayCloser h
    refine ⟨forms, hasStrayCloser_wrapped_iff.mp hforms, ?_⟩
    exact Except.ok.inj (h.symm.trans hforms.read_behind)
  · rintro ⟨forms, hforms, rfl⟩
    exact (hasStrayCloser_wrapped_iff.mpr hforms).read_behind

/-- A text that reads without an error becomes one form of its forms. -/
theorem read_wrapped (h : readAll source = (forms, none)) :
    read (Text.of "(do " ++ source ++ Text.of "\nnil)") =
      .ok (.call (Text.of "do") (forms ++ [.nil])) := by
  have hlast : readAll (Text.of "nil") = ([.nil], none) := rfl
  obtain ⟨hforms, herror⟩ := readAll_newline (congrArg Prod.snd h) (Text.of "nil")
  refine read_wrapped_iff.mpr ⟨_, .inr ?_, rfl⟩
  rw [nil_line]
  exact Prod.ext (by rw [hforms, h, hlast]) (by rw [herror, hlast]; rfl)

end Datum

end Lisp
