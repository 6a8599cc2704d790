import Lisp.Proofs.Datum.Concatenation
import Mathlib.Data.List.Chain
import Mathlib.Data.List.TakeWhile

/-!
The layout of a text: its tokens as they are written, and the blanks and comments around them. Every
text without an open string has a layout. A token ends where the next byte does not continue it, and
no separator continues any token, so the separators between two tokens can be exchanged for others,
or put where there were none, and the tokens stay what they are. The forms follow from the tokens.
-/
namespace Lisp

/-- A run of separators: blanks, and comments with the line break that ends them. -/
inductive Separators : Text → Prop
  | nil : Separators []
  | blank {b : UInt8} {t : Text} : b ∈ Text.of " \t\r\n," → Separators t → Separators (b :: t)
  | comment {body t : Text} : Text.newline ∉ body → Separators t →
    Separators (59 :: (body ++ Text.newline :: t))

/-- What stands between the quotes of a string, and what it stands for. -/
inductive Quoted : Text → Text → Prop
  | nil : Quoted [] []
  | plain {b : UInt8} {body content : Text} : b ≠ 34 → b ≠ 92 → Quoted body content →
    Quoted (b :: body) (b :: content)
  | escaped {body content : Text} (b : UInt8) : Quoted body content →
    Quoted (92 :: b :: body) (Lexer.unescape b :: content)

namespace Lexeme

/-- How a token is written. -/
inductive WrittenAs : Lexeme → Text → Prop
  | single {b : UInt8} {l : Lexeme} : Role.of b = .single l → WrittenAs l [b]
  | unquote : WrittenAs (.mark .unquote) [126]
  | splice : WrittenAs (.mark .splice) [126, 64]
  | string {body content : Text} : Quoted body content →
    WrittenAs (.string content) (34 :: (body ++ [34]))
  | word {first : UInt8} {rest : Text} : IsWord (first :: rest) →
    WrittenAs (.word first rest) (first :: rest)

/-- The byte would still belong to the token: a plain byte behind a word, or an at sign behind a
tilde. -/
def Continues : Lexeme → UInt8 → Prop
  | .atom (first :: _), b => first ≠ 34 ∧ Role.of b = .plain
  | .mark .unquote, b => b = 64
  | _, _ => False

/-- The token ends in front of the text. -/
def EndsBefore (l : Lexeme) (t : Text) : Prop := ∀ b ∈ t.head?, ¬ l.Continues b

end Lexeme

/-- A token as it is written, and the separators behind it. -/
structure Piece where
  lexeme : Lexeme
  spelling : Text
  gap : Text
  written : lexeme.WrittenAs spelling
  separators : Separators gap

/-- A text cut into tokens and separators. Tokens with nothing between them end by themselves. The
last comment may lack its line break. -/
structure Layout where
  front : Text
  pieces : List Piece
  tail : Text
  separators : Separators front
  apart : pieces.IsChain fun p q => p.gap = [] → p.lexeme.EndsBefore q.spelling
  comment : tail = [] ∨ ∃ body, Text.newline ∉ body ∧ tail = 59 :: body

namespace Layout

/-- The text of the tokens with these separators in front of the first token, behind each, and at
the end. -/
def textWith (L : Layout) (front : Text) (gaps : List Text) (behind : Text) : Text :=
  front ++ (List.zipWith (fun p gap => p.spelling ++ gap) L.pieces gaps).flatten ++ L.tail ++ behind

def text (L : Layout) : Text := L.textWith L.front (L.pieces.map (·.gap)) []

end Layout

/-- The bytes of the roles that are not shared by several tokens. -/
theorem Role.bytes (b : UInt8) : (Role.of b = .blank → b ∈ Text.of " \t\r\n,") ∧
    (Role.of b = .comment → b = 59) ∧ (Role.of b = .doubleQuote → b = 34) ∧
    (Role.of b = .tilde → b = 126) := by
  have hall : ∀ n < 256, (Role.of (.ofNat n) = .blank → .ofNat n ∈ Text.of " \t\r\n,") ∧
      (Role.of (.ofNat n) = .comment → UInt8.ofNat n = 59) ∧
      (Role.of (.ofNat n) = .doubleQuote → UInt8.ofNat n = 34) ∧
      (Role.of (.ofNat n) = .tilde → UInt8.ofNat n = 126) := by
    decide +kernel
  simpa using hall b.toNat b.toNat_lt

theorem Role.of_blank {b : UInt8} (hb : b ∈ Text.of " \t\r\n,") : Role.of b = .blank := by
  have hall : ∀ b ∈ Text.of " \t\r\n,", Role.of b = .blank := by decide +kernel
  exact hall b hb

/-- A token of one byte is never continued. -/
theorem Role.not_continues {b c : UInt8} {l : Lexeme} (h : Role.of b = .single l) :
    ¬ l.Continues c := by
  have hmem := Role.mem_of_single h
  simp only [List.mem_cons, List.not_mem_nil, or_false] at hmem
  rcases hmem with rfl | rfl | rfl | rfl | rfl | rfl | rfl | rfl | rfl | rfl <;> exact id

namespace Separators

theorem append {g g' : Text} (hg : Separators g) (hg' : Separators g') : Separators (g ++ g') := by
  induction hg with
  | nil => exact hg'
  | blank hb _ ih => exact .blank hb ih
  | @comment body t hbody _ ih =>
    rw [List.cons_append, List.append_assoc, List.cons_append]
    exact .comment hbody ih

/-- A separator starts with a blank or with the mark of a comment. -/
theorem role_head {g : Text} (hg : Separators g) :
    ∀ b ∈ g.head?, Role.of b = .blank ∨ Role.of b = .comment := by
  cases hg with
  | nil => simp
  | blank hb _ =>
    intro c hc
    cases hc
    exact Or.inl (Role.of_blank hb)
  | comment _ _ =>
    intro c hc
    cases hc
    exact Or.inr (by decide)

end Separators

/-- Neither blanks nor comments continue a token. -/
theorem Lexeme.endsBefore_of_role {t : Text}
    (ht : ∀ b ∈ t.head?, Role.of b = .blank ∨ Role.of b = .comment) (l : Lexeme) :
    l.EndsBefore t := by
  intro b hb hcontinues
  have hrole := ht b hb
  unfold Continues at hcontinues
  split at hcontinues
  · rw [hcontinues.2] at hrole
    simp at hrole
  · subst hcontinues
    revert hrole
    decide
  · exact hcontinues

theorem Lexeme.WrittenAs.ne_nil {l : Lexeme} {t : Text} (h : l.WrittenAs t) : t ≠ [] := by
  cases h <;> simp

namespace Lexer

variable {l : Lexer} {g t body content : Text} {lexeme : Lexeme} {start : Position}

theorem foldl_feed_comment (hl : l.mode = .comment) (hbody : Text.newline ∉ body) :
    (body.foldl feed l).mode = .comment ∧ (body.foldl feed l).tokens = l.tokens := by
  induction body generalizing l with
  | nil => exact ⟨hl, rfl⟩
  | cons b body ih =>
    rw [List.mem_cons, not_or] at hbody
    have hfeed : (l.feed b).mode = .comment ∧ (l.feed b).tokens = l.tokens := by
      simp [feed, take, hl, Ne.symm hbody.1]
    obtain ⟨hmode, htokens⟩ := ih hfeed.1 hbody.2
    exact ⟨hmode, htokens.trans hfeed.2⟩

theorem feed_newline_of_comment (hl : l.mode = .comment) :
    (l.feed Text.newline).mode = .gap ∧ (l.feed Text.newline).tokens = l.tokens := by
  simp [feed, take, hl]

/-- Between tokens, separators leave the lexer there and make no token. -/
theorem foldl_feed_separators (hg : Separators g) (hl : l.mode = .gap) :
    (g.foldl feed l).mode = .gap ∧ (g.foldl feed l).tokens = l.tokens := by
  induction hg generalizing l with
  | nil => exact ⟨hl, rfl⟩
  | @blank b t hb _ ih =>
    have hfeed : (l.feed b).mode = .gap ∧ (l.feed b).tokens = l.tokens := by
      simp [feed, take, hl, begin, Role.of_blank hb]
    obtain ⟨hmode, htokens⟩ := ih hfeed.1
    exact ⟨hmode, htokens.trans hfeed.2⟩
  | @comment body t hbody _ ih =>
    have hrole : Role.of 59 = .comment := by decide
    have hopen : (l.feed 59).mode = .comment ∧ (l.feed 59).tokens = l.tokens := by
      simp [feed, take, hl, begin, hrole]
    obtain ⟨hinside, htokens⟩ := foldl_feed_comment hopen.1 hbody
    obtain ⟨hclosed, htokens'⟩ := feed_newline_of_comment hinside
    obtain ⟨hmode, htokens''⟩ := ih hclosed
    rw [List.foldl_cons, List.foldl_append, List.foldl_cons]
    exact ⟨hmode, htokens''.trans (htokens'.trans (htokens.trans hopen.2))⟩

/-- Inside a comment, separators may end it, and make no token. -/
theorem foldl_feed_separators_of_comment (hg : Separators g) (hl : l.mode = .comment) :
    ((g.foldl feed l).mode = .gap ∨ (g.foldl feed l).mode = .comment) ∧
      (g.foldl feed l).tokens = l.tokens := by
  induction hg generalizing l with
  | nil => exact ⟨Or.inr hl, rfl⟩
  | @blank b t _ ht ih =>
    by_cases hb : b = Text.newline
    · subst hb
      obtain ⟨hclosed, htokens⟩ := feed_newline_of_comment hl
      obtain ⟨hmode, htokens'⟩ := foldl_feed_separators ht hclosed
      exact ⟨Or.inl hmode, htokens'.trans htokens⟩
    · have hfeed : (l.feed b).mode = .comment ∧ (l.feed b).tokens = l.tokens := by
        simp [feed, take, hl, hb]
      obtain ⟨hmode, htokens⟩ := ih hfeed.1
      exact ⟨hmode, htokens.trans hfeed.2⟩
  | @comment body t hbody ht _ =>
    have hmore : Text.newline ∉ (59 : UInt8) :: body := by
      rw [List.mem_cons, not_or]
      exact ⟨by decide, hbody⟩
    obtain ⟨hinside, htokens⟩ := foldl_feed_comment hl hmore
    obtain ⟨hclosed, htokens'⟩ := feed_newline_of_comment hinside
    obtain ⟨hmode, htokens''⟩ := foldl_feed_separators ht hclosed
    rw [← List.cons_append, List.foldl_append, List.foldl_cons]
    exact ⟨Or.inl hmode, htokens''.trans (htokens'.trans htokens)⟩

/-- The byte starts something new, whatever the lexer is in the middle of. -/
def StartsAt (l : Lexer) (b : UInt8) : Prop :=
  ∃ l' : Lexer, l'.tokens.toList.map (·.lexeme) = l.lexemes ∧ l.take b = l'.begin b

theorem startsAt_of_gap (hl : l.mode = .gap) (b : UInt8) : l.StartsAt b :=
  ⟨l, (lexemes_of_gap hl).symm, by rw [take, hl]⟩

/-- Where a text starts something new, its lexemes follow those that are there. -/
theorem lexemes_foldl_feed (hl : l.trouble? = none) (hstarts : ∀ b ∈ t.head?, l.StartsAt b) :
    (t.foldl feed l).lexemes = l.lexemes ++ (run t).lexemes ∧
      ((t.foldl feed l).trouble? = none ↔ (run t).trouble? = none) := by
  cases t with
  | nil =>
    have hempty : (run []).lexemes = [] := rfl
    exact ⟨by rw [hempty, List.append_nil, List.foldl_nil], iff_of_true hl rfl⟩
  | cons b t =>
    obtain ⟨l', htokens, htake⟩ := hstarts b rfl
    have htrails : Trails l.lexemes (l.feed b) (({} : Lexer).feed b) := by
      have hbegin : Trails l.lexemes (l'.begin b) (({} : Lexer).begin b) :=
        Trails.begin (by rw [htokens]; exact (List.append_nil _).symm) b
      rw [← htake] at hbegin
      exact ⟨hbegin.mode, hbegin.tokens⟩
    have hall := htrails.foldl_feed t
    refine ⟨hall.lexemes, ?_⟩
    have hcause := hall.trouble?
    rw [List.foldl_cons, run, List.foldl_cons, ← Option.map_eq_none_iff (f := (·.cause)), hcause,
      Option.map_eq_none_iff]

/-- Separators in front change nothing. -/
theorem lexemes_separators_append (hg : Separators g) (t : Text) :
    (run (g ++ t)).lexemes = (run t).lexemes ∧
      ((run (g ++ t)).trouble? = none ↔ (run t).trouble? = none) := by
  obtain ⟨hmode, htokens⟩ := foldl_feed_separators (l := {}) hg rfl
  have hnone : (run g).trouble? = none := by simp [run, trouble?, hmode]
  have hempty : (run g).lexemes = [] := by
    rw [run, lexemes_of_gap hmode, htokens]
    rfl
  obtain ⟨hlexemes, htrouble⟩ := lexemes_foldl_feed (t := t) hnone fun b _ =>
    startsAt_of_gap hmode b
  rw [run_append]
  exact ⟨by rw [hlexemes, hempty, List.nil_append], htrouble⟩

/-- Inside a string, what is written is collected as what it stands for. -/
theorem foldl_feed_quoted {recent : Text} (hl : l.mode = .string start recent false)
    (hbody : Quoted body content) :
    (body.foldl feed l).mode = .string start (content.reverse ++ recent) false ∧
      (body.foldl feed l).tokens = l.tokens := by
  induction hbody generalizing l recent with
  | nil => exact ⟨hl, rfl⟩
  | @plain b body content hquote hslash _ ih =>
    have hfeed : (l.feed b).mode = .string start (b :: recent) false ∧
        (l.feed b).tokens = l.tokens := by
      simp [feed, take, hl, hquote, hslash]
    obtain ⟨hmode, htokens⟩ := ih hfeed.1
    refine ⟨?_, htokens.trans hfeed.2⟩
    rw [List.foldl_cons, hmode, List.reverse_cons, List.append_assoc, List.singleton_append]
  | @escaped body content b _ ih =>
    have hfeed : ((l.feed 92).feed b).mode = .string start (unescape b :: recent) false ∧
        ((l.feed 92).feed b).tokens = l.tokens := by
      simp [feed, take, hl]
    obtain ⟨hmode, htokens⟩ := ih hfeed.1
    refine ⟨?_, htokens.trans hfeed.2⟩
    rw [List.foldl_cons, List.foldl_cons, hmode, List.reverse_cons, List.append_assoc,
      List.singleton_append]

theorem trouble?_of_atEdge (hl : l.AtEdge) : l.trouble? = none := by
  unfold trouble?
  rcases hl with hmode | ⟨_, _, _, hmode⟩ <;> simp [hmode]

/-- A token as it is written is one token, and ends where the next byte does not continue it. -/
theorem run_written (h : lexeme.WrittenAs t) : (run t).lexemes = [lexeme] ∧
    (run t).trouble? = none ∧ ∀ b, ¬ lexeme.Continues b → (run t).StartsAt b := by
  have hgap : ∀ l : Lexer, l.mode = .gap → l.lexemes = [lexeme] → l.lexemes = [lexeme] ∧
      l.trouble? = none ∧ ∀ b, ¬ lexeme.Continues b → l.StartsAt b := fun l hl hlexemes =>
    ⟨hlexemes, by simp [trouble?, hl], fun b _ => startsAt_of_gap hl b⟩
  have hedge : ({} : Lexer).AtEdge := Or.inl rfl
  cases h with
  | single hrole =>
    obtain ⟨hmode, hlexemes⟩ := feed_single hedge hrole
    exact hgap _ hmode hlexemes
  | unquote =>
    have hmode : (run [126]).mode = .tilde .start := by decide
    refine ⟨by decide, by decide, fun b hb => ?_⟩
    refine ⟨(run [126]).emit (.mark .unquote) .start, by decide, ?_⟩
    rw [take, hmode]
    exact if_neg hb
  | splice => exact hgap _ (by decide) (by decide)
  | @string body content hbody =>
    obtain ⟨start, hopen, htokens⟩ := feed_openQuote hedge
    obtain ⟨hinside, htokens'⟩ := foldl_feed_quoted hopen hbody
    obtain ⟨hmode, htokens''⟩ := feed_closeQuote hinside
    rw [run, List.foldl_cons, List.foldl_append]
    refine hgap _ hmode ?_
    rw [List.foldl_cons, List.foldl_nil, lexemes_of_gap hmode, htokens'', htokens', htokens]
    simp [finish, last?]
  | @word first rest hword =>
    obtain ⟨hedge', hlexemes⟩ := foldl_feed_word (l := {}) rfl hword
    refine ⟨hlexemes, trouble?_of_atEdge hedge', fun b hb => ?_⟩
    have hfirst : first ≠ 34 := ne_quote_of_isWord hword
    obtain ⟨l', _, htokens, htake⟩ := take_of_atEdge hedge' fun hplain => hb ⟨hfirst, hplain⟩
    exact ⟨l', by rw [htokens]; rfl, htake⟩

/-- A string that is closed ends at a quote that is not escaped. -/
theorem exists_quoted {recent : Text} (t : Text) :
    (∀ l : Lexer, l.mode = .string start recent false → (t.foldl feed l).trouble? = none →
      ∃ body content rest, Quoted body content ∧ t = body ++ 34 :: rest) ∧
    ∀ l : Lexer, l.mode = .string start recent true → (t.foldl feed l).trouble? = none →
      ∃ b body content rest, Quoted body content ∧ t = b :: (body ++ 34 :: rest) := by
  induction t generalizing recent with
  | nil =>
    refine ⟨fun l hl h => ?_, fun l hl h => ?_⟩
    · simp [trouble?, hl] at h
    · simp [trouble?, hl] at h
  | cons b t ih =>
    refine ⟨fun l hl h => ?_, fun l hl h => ?_⟩
    · by_cases hquote : b = 34
      · exact ⟨[], [], t, .nil, by rw [hquote, List.nil_append]⟩
      · by_cases hslash : b = 92
        · have hfeed : (l.feed b).mode = .string start recent true := by
            simp [feed, take, hl, hslash]
          obtain ⟨c, body, content, rest, hbody, rfl⟩ := ih.2 _ hfeed h
          exact ⟨_, _, rest, .escaped c hbody, by rw [hslash]; rfl⟩
        · have hfeed : (l.feed b).mode = .string start (b :: recent) false := by
            simp [feed, take, hl, hquote, hslash]
          obtain ⟨body, content, rest, hbody, rfl⟩ := ih.1 _ hfeed h
          exact ⟨_, _, rest, .plain hquote hslash hbody, rfl⟩
    · have hfeed : (l.feed b).mode = .string start (unescape b :: recent) false := by
        simp [feed, take, hl]
      obtain ⟨body, content, rest, hbody, rfl⟩ := ih.1 _ hfeed h
      exact ⟨b, body, content, rest, hbody, rfl⟩

theorem lexemes_written_append (h : lexeme.WrittenAs g) (hends : lexeme.EndsBefore t) :
    (run (g ++ t)).lexemes = lexeme :: (run t).lexemes ∧
      ((run (g ++ t)).trouble? = none ↔ (run t).trouble? = none) := by
  obtain ⟨hlexemes, hnone, hstarts⟩ := run_written h
  obtain ⟨hall, htrouble⟩ := lexemes_foldl_feed (t := t) hnone fun b hb => hstarts b (hends b hb)
  rw [run_append]
  exact ⟨by rw [hall, hlexemes, List.singleton_append], htrouble⟩

/-- What may stand at the end: a comment without its line break, and separators. -/
theorem lexemes_tail (ht : t = [] ∨ ∃ body, Text.newline ∉ body ∧ t = 59 :: body)
    (hg : Separators g) : (run (t ++ g)).lexemes = [] ∧ (run (t ++ g)).trouble? = none ∧
      ∀ b ∈ (t ++ g).head?, Role.of b = .blank ∨ Role.of b = .comment := by
  rcases ht with rfl | ⟨body, hbody, rfl⟩
  · obtain ⟨hlexemes, htrouble⟩ := lexemes_separators_append hg []
    rw [List.append_nil] at hlexemes htrouble
    exact ⟨hlexemes, htrouble.mpr rfl, hg.role_head⟩
  · obtain ⟨hinside, htokens⟩ := foldl_feed_comment (l := ({} : Lexer).feed 59) (by decide) hbody
    obtain ⟨hmode, htokens'⟩ := foldl_feed_separators_of_comment hg hinside
    have hrun : run (59 :: body ++ g) = g.foldl feed (body.foldl feed (({} : Lexer).feed 59)) := by
      rw [run, List.foldl_append, List.foldl_cons]
    rw [hrun, lexemes_eq, htokens', htokens]
    refine ⟨?_, ?_, ?_⟩
    · rcases hmode with hmode | hmode <;> simp [last?, hmode] <;> rfl
    · rcases hmode with hmode | hmode <;> simp [trouble?, hmode]
    · intro b hb
      cases hb
      exact Or.inr (by decide)

end Lexer

namespace Layout

variable {L : Layout} {front behind source : Text} {gaps : List Text} {pieces : List Piece}

/-- The separators can be put behind the token: they are those that are there, or not empty. -/
def Fits (p : Piece) (gap : Text) : Prop := gap = p.gap ∨ Separators gap ∧ gap ≠ []

theorem Fits.separators {p : Piece} {gap : Text} (h : Fits p gap) : Separators gap := by
  rcases h with rfl | h
  · exact p.separators
  · exact h.1

/-- The first byte of a token decides whether the token before it ends. -/
theorem endsBefore_append {l : Lexeme} {s t : Text} (hs : s ≠ []) :
    l.EndsBefore (s ++ t) ↔ l.EndsBefore s := by
  obtain ⟨b, s, rfl⟩ := List.exists_cons_of_ne_nil hs
  exact Iff.rfl

/-- The tokens are the same with any separators that fit. -/
theorem lexemes_pieces {rest : Text} (hgaps : List.Forall₂ Fits pieces gaps)
    (hapart : pieces.IsChain fun p q => p.gap = [] → p.lexeme.EndsBefore q.spelling)
    (hlexemes : (Lexer.run rest).lexemes = []) (htrouble : (Lexer.run rest).trouble? = none)
    (hrest : ∀ b ∈ rest.head?, Role.of b = .blank ∨ Role.of b = .comment) :
    let source := (List.zipWith (fun p gap => p.spelling ++ gap) pieces gaps).flatten ++ rest
    (Lexer.run source).lexemes = pieces.map (·.lexeme) ∧ (Lexer.run source).trouble? = none := by
  induction hgaps with
  | nil => exact ⟨hlexemes, htrouble⟩
  | @cons p gap pieces gaps hfits hgaps ih =>
    obtain ⟨hall, hnone⟩ := ih hapart.tail
    have hends : p.lexeme.EndsBefore (gap ++
        ((List.zipWith (fun p gap => p.spelling ++ gap) pieces gaps).flatten ++ rest)) := by
      by_cases hgap : gap = []
      · -- Nothing is put behind the token, so nothing was there before.
        have hempty : p.gap = [] := by
          rcases hfits with heq | hne
          · exact heq.symm.trans hgap
          · exact absurd hgap hne.2
        rw [hgap, List.nil_append]
        cases hgaps with
        | nil => exact Lexeme.endsBefore_of_role hrest _
        | @cons q gap' _ _ _ _ =>
          rw [List.zipWith_cons_cons, List.flatten_cons, List.append_assoc, List.append_assoc,
            endsBefore_append q.written.ne_nil]
          exact (List.isChain_cons_cons.mp hapart).1 hempty
      · rw [endsBefore_append hgap]
        exact Lexeme.endsBefore_of_role hfits.separators.role_head _
    obtain ⟨hseparators, hseparators'⟩ := Lexer.lexemes_separators_append hfits.separators
      ((List.zipWith (fun p gap => p.spelling ++ gap) pieces gaps).flatten ++ rest)
    obtain ⟨hwritten, hwritten'⟩ := Lexer.lexemes_written_append p.written hends
    simp only [List.zipWith_cons_cons, List.flatten_cons, List.append_assoc]
    refine ⟨?_, hwritten'.mpr (hseparators'.mpr hnone)⟩
    rw [hwritten, hseparators, hall, List.map_cons]

/-- A token can be put in front of a layout if it ends there. -/
theorem exists_cons {l : Lexeme} {s : Text} (hs : l.WrittenAs s) (hends : l.EndsBefore L.text) :
    ∃ L' : Layout, L'.text = s ++ L.text := by
  obtain ⟨front, pieces, tail, hfront, hapart, htail⟩ := L
  refine ⟨⟨[], ⟨l, s, front, hs, hfront⟩ :: pieces, tail, .nil, ?_, htail⟩, ?_⟩
  · cases pieces with
    | nil => exact List.isChain_singleton _
    | cons q pieces =>
      refine List.isChain_cons_cons.mpr ⟨fun hempty => ?_, hapart⟩
      obtain rfl : front = [] := hempty
      have hfirst : l.EndsBefore (q.spelling ++ (q.gap ++
          ((List.zipWith (fun p gap => p.spelling ++ gap) pieces (pieces.map (·.gap))).flatten ++
            tail))) := by
        simpa [text, textWith] using hends
      exact (endsBefore_append q.written.ne_nil).mp hfirst
  · simp [text, textWith]

theorem exists_separators {g : Text} (hg : Separators g) (L : Layout) :
    ∃ L' : Layout, L'.text = g ++ L.text :=
  ⟨⟨g ++ L.front, L.pieces, L.tail, hg.append L.separators, L.apart, L.comment⟩,
    by simp [text, textWith]⟩

/-- Every text without an open string has a layout. -/
theorem exists_layout (hsource : (Lexer.run source).trouble? = none) :
    ∃ L : Layout, L.text = source := by
  induction hlength : source.length using Nat.strong_induction_on generalizing source with
  | _ n ih =>
    have hwritten : ∀ {l : Lexeme} {s t : Text}, l.WrittenAs s → l.EndsBefore t →
        source = s ++ t → ∃ L : Layout, L.text = source := by
      rintro l s t hs hends rfl
      have hlt : t.length < n := by
        have hpos := List.length_pos_iff.mpr hs.ne_nil
        rw [List.length_append] at hlength
        omega
      have hnone := (Lexer.lexemes_written_append hs hends).2.mp hsource
      obtain ⟨L, rfl⟩ := ih t.length hlt hnone rfl
      exact exists_cons hs hends
    have hseparated : ∀ {g t : Text}, Separators g → g ≠ [] → source = g ++ t →
        ∃ L : Layout, L.text = source := by
      rintro g t hg hne rfl
      have hlt : t.length < n := by
        have hpos := List.length_pos_iff.mpr hne
        rw [List.length_append] at hlength
        omega
      have hnone := (Lexer.lexemes_separators_append hg t).2.mp hsource
      obtain ⟨L, rfl⟩ := ih t.length hlt hnone rfl
      exact exists_separators hg L
    cases source with
    | nil => exact ⟨⟨[], [], [], .nil, List.isChain_nil, Or.inl rfl⟩, rfl⟩
    | cons b t =>
      obtain ⟨hblank, hcomment, hquote, htilde⟩ := Role.bytes b
      cases hrole : Role.of b with
      | blank => exact hseparated (.blank (hblank hrole) .nil) (by simp) rfl
      | comment =>
        obtain rfl := hcomment hrole
        by_cases hmem : Text.newline ∈ t
        · obtain ⟨body, rest, rfl, hbody⟩ := List.eq_append_cons_of_mem hmem
          exact hseparated (t := rest) (.comment hbody .nil) (by simp) (by simp)
        · exact ⟨⟨[], [], 59 :: t, .nil, List.isChain_nil, Or.inr ⟨t, hmem, rfl⟩⟩,
            by simp [text, textWith]⟩
      | doubleQuote =>
        obtain rfl := hquote hrole
        have hopen : (({} : Lexer).feed 34).mode = .string .start [] false := by decide
        obtain ⟨body, content, rest, hbody, rfl⟩ := (Lexer.exists_quoted t).1 _ hopen hsource
        exact hwritten (t := rest) (.string hbody) (fun _ _ h => h.1 rfl) (by simp)
      | tilde =>
        obtain rfl := htilde hrole
        by_cases hat : t.head? = some 64
        · obtain ⟨rest, rfl⟩ := List.head?_eq_some_iff.mp hat
          exact hwritten .splice (fun _ _ h => h) rfl
        · refine hwritten (t := t) .unquote (fun c hc h => ?_) rfl
          obtain rfl : c = 64 := h
          exact hat hc
      | single l => exact hwritten (.single hrole) (fun _ _ => Role.not_continues hrole) rfl
      | plain =>
        have hword : IsWord (b :: t.takeWhile fun c => Role.of c = .plain) := by
          refine ⟨by simp, fun c hc => ?_⟩
          rcases List.mem_cons.mp hc with rfl | hc
          · exact hrole
          · simpa using List.mem_takeWhile_imp hc
        refine hwritten (t := t.dropWhile fun c => Role.of c = .plain) (.word hword) ?_ ?_
        · intro c hc hplain
          have hnot := List.head?_dropWhile_not (fun c => Role.of c = .plain) t
          rw [Option.mem_def.mp hc] at hnot
          exact of_decide_eq_false hnot hplain.2
        · rw [List.cons_append, List.takeWhile_append_dropWhile]

/-- The forms follow from the lexemes, wherever they stand. -/
theorem readAll_congr {source' : Text}
    (hlexemes : (Lexer.run source').lexemes = (Lexer.run source).lexemes)
    (htrouble : (Lexer.run source').trouble? = (Lexer.run source).trouble?) :
    (Datum.readAll source').1 = (Datum.readAll source).1 ∧
      (Datum.readAll source').2.map (·.cause) = (Datum.readAll source).2.map (·.cause) :=
  Reader.formsFrom_congr (congrArg (Option.map (·.cause)) htrouble)
    (Eq.refl (List.map Pending.unplaced [])) hlexemes

theorem lexemes_textWith (hfront : Separators front) (hgaps : List.Forall₂ Fits L.pieces gaps)
    (hbehind : Separators behind) :
    (Lexer.run (L.textWith front gaps behind)).lexemes = L.pieces.map (·.lexeme) ∧
      (Lexer.run (L.textWith front gaps behind)).trouble? = none := by
  obtain ⟨hlexemes, htrouble, hrole⟩ := Lexer.lexemes_tail L.comment hbehind
  obtain ⟨hpieces, hpieces'⟩ := lexemes_pieces hgaps L.apart hlexemes htrouble hrole
  obtain ⟨hall, hall'⟩ := Lexer.lexemes_separators_append hfront
    ((List.zipWith (fun p gap => p.spelling ++ gap) L.pieces gaps).flatten ++ (L.tail ++ behind))
  rw [textWith, List.append_assoc, List.append_assoc]
  exact ⟨hall.trans hpieces, hall'.mpr hpieces'⟩

theorem fits_gaps (pieces : List Piece) : List.Forall₂ Fits pieces (pieces.map (·.gap)) := by
  induction pieces with
  | nil => exact .nil
  | cons p pieces ih => exact .cons (Or.inl rfl) ih

/-- Every text without an open string has a layout; other separators between its tokens leave it the
same tokens, and so the same forms up to an error of the same cause. -/
theorem separators_do_not_matter :
    (∀ source, (Lexer.run source).trouble? = none → ∃ L : Layout, L.text = source) ∧
    ∀ L : Layout, (Lexer.run L.text).lexemes = L.pieces.map (·.lexeme) ∧
      ∀ front gaps behind, Separators front →
        List.Forall₂ (fun p gap => gap = p.gap ∨ Separators gap ∧ gap ≠ []) L.pieces gaps →
        Separators behind →
        (Lexer.run (L.textWith front gaps behind)).lexemes = (Lexer.run L.text).lexemes ∧
        (Lexer.run (L.textWith front gaps behind)).trouble? = none ∧
        (Datum.readAll (L.textWith front gaps behind)).1 = (Datum.readAll L.text).1 ∧
        (Datum.readAll (L.textWith front gaps behind)).2.map (·.cause) =
          (Datum.readAll L.text).2.map (·.cause) := by
  refine ⟨fun source hsource => exists_layout hsource, fun L => ?_⟩
  obtain ⟨hself, hself'⟩ := lexemes_textWith L.separators (fits_gaps L.pieces) .nil
  refine ⟨hself, fun front gaps behind hfront hgaps hbehind => ?_⟩
  obtain ⟨hlexemes, htrouble⟩ := lexemes_textWith hfront hgaps hbehind
  have hsame := hlexemes.trans hself.symm
  exact ⟨hsame, htrouble, readAll_congr hsame (htrouble.trans hself'.symm)⟩

/-- A quoted name and a string with nothing between them, a tilde apart from an at sign, and a
comment that the end of the text ends. -/
def specimen : Layout where
  front := []
  pieces := [⟨.mark .quote, [39], [], .single (by decide), .nil⟩,
    ⟨.word 97 [], [97], [], .word (by decide), .nil⟩,
    ⟨.string [98], [34, 98, 34], [32],
      @Lexeme.WrittenAs.string [98] [98] (.plain (by decide) (by decide) .nil),
      .blank (by decide) .nil⟩,
    ⟨.mark .unquote, [126], [32], .unquote, .blank (by decide) .nil⟩,
    ⟨.mark .deref, [64], [], .single (by decide), .nil⟩,
    ⟨.word 99 [], [99], [], .word (by decide), .nil⟩]
  tail := [59, 100]
  separators := .nil
  apart := by
    have hrole : Role.of 34 ≠ .plain := by decide
    simpa [Lexeme.EndsBefore, Lexeme.Continues] using hrole
  comment := Or.inr ⟨[100], by decide, rfl⟩

theorem separators_do_not_matter_specimen :
    let gaps : List Text := [[59, 120, 10], [32], [10], [9], [10], [44]]
    specimen.text = Text.of "'a\"b\" ~ @c;d" ∧
    specimen.textWith [32] gaps [10] = Text.of " ';x\na \"b\"\n~\t@\nc,;d\n" ∧
    (Lexer.run (specimen.textWith [32] gaps [10])).lexemes =
      [.mark .quote, .word 97 [], .string [98], .mark .unquote, .mark .deref, .word 99 []] ∧
    (Datum.readAll (specimen.textWith [32] gaps [10])).1 = (Datum.readAll specimen.text).1 := by
  intro gaps
  have hblank : ∀ b ∈ Text.of " \t\r\n,", Separators [b] ∧ [b] ≠ [] := fun b hb =>
    ⟨.blank hb .nil, by simp⟩
  have hcomment : Separators [59, 120, 10] := @Separators.comment [120] [] (by decide) .nil
  obtain ⟨hself, hall⟩ := separators_do_not_matter.2 specimen
  obtain ⟨hlexemes, _, hforms, _⟩ := hall [32] gaps [10] (hblank 32 (by decide)).1
    (.cons (Or.inr ⟨hcomment, by simp⟩) (.cons (Or.inr (hblank _ (by decide)))
      (.cons (Or.inr (hblank _ (by decide))) (.cons (Or.inr (hblank _ (by decide)))
        (.cons (Or.inr (hblank _ (by decide))) (.cons (Or.inr (hblank _ (by decide))) .nil))))))
    (hblank 10 (by decide)).1
  exact ⟨by decide, by decide, hlexemes.trans hself, hforms⟩

end Layout

end Lisp
