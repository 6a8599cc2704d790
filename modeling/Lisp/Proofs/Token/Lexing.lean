import Lisp.Proofs.Datum.Basic

/-!
The lexer on the text of a datum gives the lexemes of the datum. A word is emitted by the byte
behind it, so between two data the lexer may still be inside a word; the separator or the closing
bracket that follows ends it.
-/
namespace Lisp

/-- A text that is cut into one word. -/
def IsWord (t : Text) : Prop := t ≠ [] ∧ ∀ b ∈ t, Role.of b = .plain

instance (t : Text) : Decidable (IsWord t) :=
  decidable_of_iff (t ≠ [] ∧ t.all (fun b => Role.of b == .plain) = true) (by simp [IsWord])

/-- The tokens of one byte are brackets, marks and the caret. -/
theorem Role.mem_of_single {b : UInt8} {l : Lexeme} (h : Role.of b = .single l) :
    l ∈ [.opening .round, .closing .round, .opening .square, .closing .square, .opening .curly,
      .closing .curly, .mark .quote, .mark .quasiquote, .mark .deref, .caret] := by
  have hall : ∀ n < 256, Role.of (.ofNat n) ∈ [.blank, .comment, .doubleQuote, .tilde, .plain,
      .single (.opening .round), .single (.closing .round), .single (.opening .square),
      .single (.closing .square), .single (.opening .curly), .single (.closing .curly),
      .single (.mark .quote), .single (.mark .quasiquote), .single (.mark .deref),
      .single .caret] := by
    decide +kernel
  have hmem := hall b.toNat b.toNat_lt
  rw [UInt8.ofNat_toNat, h] at hmem
  simpa using hmem

theorem ne_quote_of_isWord {first : UInt8} {rest : Text} (h : IsWord (first :: rest)) :
    first ≠ 34 := by
  rintro rfl
  exact absurd (h.2 34 List.mem_cons_self) (by decide)

namespace Lexer

/-- The lexemes of a text that ends here. -/
def lexemes (l : Lexer) : List Lexeme := l.finish.map (·.lexeme)

theorem lexemes_eq (l : Lexer) :
    l.lexemes = l.tokens.toList.map (·.lexeme) ++ (l.last?.toList).map (·.lexeme) := by
  rw [lexemes, finish_eq, List.map_append]

/-- Nothing is open but perhaps a word, so every byte that is not plain starts afresh. -/
def AtEdge (l : Lexer) : Prop :=
  l.mode = .gap ∨ ∃ start first recent, l.mode = .word start first recent

theorem take_of_atEdge {l : Lexer} (h : l.AtEdge) {b : UInt8} (hb : Role.of b ≠ .plain) :
    ∃ l' : Lexer, l'.mode = .gap ∧ l'.tokens.toList = l.finish ∧ l.take b = l'.begin b := by
  rcases h with hgap | ⟨start, first, recent, hword⟩
  · refine ⟨l, hgap, ?_, ?_⟩
    · simp [finish_eq, last?, hgap]
    · rw [take, hgap]
  · refine ⟨l.emit (.word first recent.reverse) start, rfl, ?_, ?_⟩
    · simp [finish_eq, last?, hword, emit]
    · rw [take, hword]
      simp only [if_neg hb]

theorem lexemes_of_gap {l : Lexer} (h : l.mode = .gap) :
    l.lexemes = l.tokens.toList.map (·.lexeme) := by
  simp [lexemes_eq, last?, h]

theorem feed_blank {l : Lexer} (h : l.AtEdge) {b : UInt8} (hb : Role.of b = .blank) :
    (l.feed b).mode = .gap ∧ (l.feed b).lexemes = l.lexemes := by
  have hplain : Role.of b ≠ .plain := by simp [hb]
  obtain ⟨l', hmode, htokens, htake⟩ := take_of_atEdge h hplain
  have hfeed : (l.feed b).mode = .gap := by simp [feed, htake, begin, hb]
  refine ⟨hfeed, ?_⟩
  rw [lexemes_of_gap hfeed, lexemes, ← htokens]
  simp [feed, htake, begin, hb]

theorem feed_single {l : Lexer} (h : l.AtEdge) {b : UInt8} {lexeme : Lexeme}
    (hb : Role.of b = .single lexeme) :
    (l.feed b).mode = .gap ∧ (l.feed b).lexemes = l.lexemes ++ [lexeme] := by
  have hplain : Role.of b ≠ .plain := by simp [hb]
  obtain ⟨l', hmode, htokens, htake⟩ := take_of_atEdge h hplain
  have hfeed : (l.feed b).mode = .gap := by simp [feed, htake, begin, hb, emit]
  refine ⟨hfeed, ?_⟩
  rw [lexemes_of_gap hfeed, lexemes, ← htokens]
  simp [feed, htake, begin, hb, emit]

/-- Plain bytes are collected. -/
theorem foldl_feed_plain {l : Lexer} {start : Position} {first : UInt8} {recent : Text}
    (h : l.mode = .word start first recent) {t : Text} (ht : ∀ b ∈ t, Role.of b = .plain) :
    (t.foldl feed l).mode = .word start first (t.reverse ++ recent) ∧
      (t.foldl feed l).tokens = l.tokens := by
  induction t generalizing l recent with
  | nil => exact ⟨h, rfl⟩
  | cons b t ih =>
    have hb : Role.of b = .plain := ht b List.mem_cons_self
    have hmode : (l.feed b).mode = .word start first (b :: recent) := by
      simp [feed, take, h, hb]
    have htokens : (l.feed b).tokens = l.tokens := by simp [feed, take, h, hb]
    obtain ⟨hmode', htokens'⟩ := ih hmode fun c hc => ht c (List.mem_cons_of_mem b hc)
    refine ⟨?_, htokens'.trans htokens⟩
    rw [List.foldl_cons, hmode', List.reverse_cons, List.append_assoc, List.singleton_append]

theorem foldl_feed_word {l : Lexer} (h : l.mode = .gap) {t : Text} (ht : IsWord t) :
    (t.foldl feed l).AtEdge ∧
      (t.foldl feed l).lexemes = l.lexemes ++ Datum.wordLexeme t := by
  obtain ⟨hne, hplain⟩ := ht
  cases t with
  | nil => exact absurd rfl hne
  | cons first rest =>
    have hfirst : Role.of first = .plain := hplain first List.mem_cons_self
    have hmode : (l.feed first).mode = .word l.position first [] := by
      simp [feed, take, h, begin, hfirst]
    have htokens : (l.feed first).tokens = l.tokens := by simp [feed, take, h, begin, hfirst]
    obtain ⟨hmode', htokens'⟩ :=
      foldl_feed_plain hmode fun b hb => hplain b (List.mem_cons_of_mem first hb)
    rw [List.foldl_cons]
    refine ⟨Or.inr ⟨_, _, _, hmode'⟩, ?_⟩
    rw [lexemes_of_gap h, lexemes_eq, htokens', htokens]
    simp [last?, hmode', Datum.wordLexeme]

/-- Inside a string an escaped text is collected as it was before. -/
theorem foldl_feed_escape {l : Lexer} {start : Position} {recent : Text}
    (h : l.mode = .string start recent false) (s : Text) :
    ((s.flatMap Heap.escape).foldl feed l).mode = .string start (s.reverse ++ recent) false ∧
      ((s.flatMap Heap.escape).foldl feed l).tokens = l.tokens := by
  induction s generalizing l recent with
  | nil => exact ⟨h, rfl⟩
  | cons b s ih =>
    have hbyte : ((Heap.escape b).foldl feed l).mode = .string start (b :: recent) false ∧
        ((Heap.escape b).foldl feed l).tokens = l.tokens := by
      unfold Heap.escape
      split
      · rename_i hb
        subst hb
        simp [feed, take, h, unescape]
      · split
        · rename_i hb
          subst hb
          simp [feed, take, h, unescape, Text.newline]
        · split
          · rename_i hb
            subst hb
            simp [feed, take, h, unescape]
          · rename_i hslash _ hquote
            simp [feed, take, h, hslash, hquote]
    obtain ⟨hmode, htokens⟩ := ih hbyte.1
    rw [List.flatMap_cons, List.foldl_append]
    refine ⟨?_, htokens.trans hbyte.2⟩
    rw [hmode, List.reverse_cons, List.append_assoc, List.singleton_append]

theorem feed_openQuote {l : Lexer} (h : l.AtEdge) :
    ∃ start, (l.feed 34).mode = .string start [] false ∧
      (l.feed 34).tokens.toList = l.finish := by
  have hrole : Role.of 34 = .doubleQuote := by decide
  have hplain : Role.of 34 ≠ .plain := by decide
  obtain ⟨l', hmode, htokens, htake⟩ := take_of_atEdge h hplain
  refine ⟨l'.position, ?_, ?_⟩
  · simp [feed, htake, begin, hrole]
  · simp [feed, htake, begin, hrole, htokens]

theorem feed_closeQuote {l : Lexer} {start : Position} {recent : Text}
    (h : l.mode = .string start recent false) :
    (l.feed 34).mode = .gap ∧
      (l.feed 34).tokens.toList = l.tokens.toList ++ [⟨.string recent.reverse, start⟩] := by
  simp [feed, take, h, emit]

theorem foldl_feed_string {l : Lexer} (h : l.AtEdge) (s : Text) :
    ((Heap.stringText .readable s).foldl feed l).mode = .gap ∧
      ((Heap.stringText .readable s).foldl feed l).lexemes = l.lexemes ++ [.string s] := by
  obtain ⟨start, hopen, htokens⟩ := feed_openQuote h
  obtain ⟨hbody, htokens'⟩ := foldl_feed_escape hopen s
  obtain ⟨hgap, htokens''⟩ := feed_closeQuote hbody
  rw [Heap.stringText, List.foldl_append, List.foldl_append]
  simp only [List.foldl_cons, List.foldl_nil]
  refine ⟨hgap, ?_⟩
  rw [lexemes_of_gap hgap, htokens'', htokens', htokens, lexemes]
  simp

theorem role_opener (b : Bracket) : Role.of b.opener = .single (.opening b) := by
  cases b <;> decide

theorem role_closer (b : Bracket) : Role.of b.closer = .single (.closing b) := by
  cases b <;> decide

theorem role_space : Role.of 32 = .blank := by decide

end Lexer

namespace Datum

/-- All leaves but strings are written as words. -/
def IsSpelled : Datum → Prop
  | .string _ => True
  | .group _ _ => True
  | d => IsWord d.text

open Lexer in
/-- What a text does to the lexer between two tokens: it adds lexemes. -/
def Yields (t : Text) (ls : List Lexeme) : Prop :=
  ∀ l : Lexer, l.mode = .gap →
    (t.foldl feed l).AtEdge ∧ (t.foldl feed l).lexemes = l.lexemes ++ ls

theorem yields_join {items : List Datum} (h : ∀ d ∈ items, Yields d.text d.lexemes) :
    Yields (Text.join [32] (items.map text)) (lexemesOf items) := by
  induction items with
  | nil =>
    intro l hl
    exact ⟨Or.inl hl, by simp [Text.join, lexemesOf]⟩
  | cons d rest ih =>
    intro l hl
    obtain ⟨hedge, hlexemes⟩ := h d List.mem_cons_self l hl
    cases rest with
    | nil =>
      simp only [Text.join, List.map_cons, List.map_nil, List.intercalate_singleton, lexemesOf,
        List.append_nil]
      exact ⟨hedge, hlexemes⟩
    | cons e more =>
      obtain ⟨hgap, hblank⟩ := Lexer.feed_blank hedge Lexer.role_space
      obtain ⟨hedge', hlexemes'⟩ := ih (fun x hx => h x (List.mem_cons_of_mem d hx)) _ hgap
      have htext : Text.join [32] ((d :: e :: more).map text) =
          d.text ++ 32 :: Text.join [32] ((e :: more).map text) := by
        simp [Text.join]
      rw [htext, List.foldl_append, List.foldl_cons, lexemesOf]
      refine ⟨hedge', ?_⟩
      rw [hlexemes', hblank, hlexemes, List.append_assoc]

/-- The text of a datum is cut into the lexemes of the datum. -/
theorem yields_text {d : Datum} (h : d.Each IsSpelled) : Yields d.text d.lexemes := by
  induction d with
  | string s =>
    intro l hl
    obtain ⟨hgap, hlexemes⟩ := Lexer.foldl_feed_string (Or.inl hl) s
    exact ⟨Or.inl hgap, hlexemes⟩
  | group b items ih =>
    obtain ⟨_, hitems⟩ := each_group.mp h
    intro l hl
    obtain ⟨hgap, hopen⟩ := Lexer.feed_single (Or.inl hl) (Lexer.role_opener b)
    obtain ⟨hedge, hbody⟩ := yields_join (fun d hd => ih d hd (hitems d hd)) _ hgap
    obtain ⟨hgap', hclose⟩ := Lexer.feed_single hedge (Lexer.role_closer b)
    rw [text_group, List.foldl_cons, List.foldl_append, lexemes]
    simp only [List.foldl_cons, List.foldl_nil]
    refine ⟨Or.inl hgap', ?_⟩
    rw [hclose, hbody, hopen]
    simp
  | _ =>
    intro l hl
    exact Lexer.foldl_feed_word hl h

end Datum

end Lisp
