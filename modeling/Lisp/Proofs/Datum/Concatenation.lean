import Lisp.Proofs.Continuation
import Lisp.Proofs.Datum.Positions

/-!
Reading a text behind another one. The forms of a text do not depend on where the text stands: they
follow from the lexemes alone, and a lexer that stands in a gap finds the lexemes that it finds from
the start. So when a text reads without an error, the forms behind a line break are the forms of
what stands there, and an error there is the same error, so many lines further down.
-/
namespace Lisp

namespace Lexer

/-- The mode without the place where its token starts. -/
def Mode.unplaced : Mode → Mode
  | .gap => .gap
  | .comment => .comment
  | .tilde _ => .tilde .start
  | .word _ first recent => .word .start first recent
  | .string _ recent escaped => .string .start recent escaped

/-- The first lexer is in the middle of what the second is in the middle of, and has found the
lexemes in front besides. -/
structure Trails (front : List Lexeme) (l l' : Lexer) : Prop where
  mode : l.mode.unplaced = l'.mode.unplaced
  tokens : l.tokens.toList.map (·.lexeme) = front ++ l'.tokens.toList.map (·.lexeme)

variable {front : List Lexeme} {l l' : Lexer}

theorem Trails.emit (h : l.tokens.toList.map (·.lexeme) = front ++ l'.tokens.toList.map (·.lexeme))
    (lexeme : Lexeme) (start start' : Position) :
    Trails front (l.emit lexeme start) (l'.emit lexeme start') := by
  refine ⟨rfl, ?_⟩
  simp [Lexer.emit, h]

theorem Trails.begin (h : l.tokens.toList.map (·.lexeme) = front ++ l'.tokens.toList.map (·.lexeme))
    (b : UInt8) : Trails front (l.begin b) (l'.begin b) := by
  unfold Lexer.begin
  cases Role.of b with
  | single lexeme => exact Trails.emit h lexeme _ _
  | _ => exact ⟨rfl, h⟩

theorem Trails.take (h : Trails front l l') (b : UInt8) : Trails front (l.take b) (l'.take b) := by
  have hmode := h.mode
  unfold Lexer.take
  cases hl : l.mode <;> cases hl' : l'.mode <;> rw [hl, hl'] at hmode <;>
    simp only [Mode.unplaced, reduceCtorEq, Mode.word.injEq, Mode.string.injEq, true_and] at hmode
  case gap.gap => exact Trails.begin h.tokens b
  case comment.comment =>
    by_cases hb : b = Text.newline
    · simp only [if_pos hb]
      exact ⟨rfl, h.tokens⟩
    · simp only [if_neg hb]
      exact h
  case tilde.tilde start start' =>
    by_cases hb : b = 64
    · simp only [if_pos hb]
      exact Trails.emit h.tokens _ _ _
    · simp only [if_neg hb]
      exact Trails.begin (Trails.emit h.tokens _ _ _).tokens b
  case word.word start first recent start' first' recent' =>
    obtain ⟨rfl, rfl⟩ := hmode
    by_cases hb : Role.of b = .plain
    · simp only [if_pos hb]
      exact ⟨rfl, h.tokens⟩
    · simp only [if_neg hb]
      exact Trails.begin (Trails.emit h.tokens _ _ _).tokens b
  case string.string start recent escaped start' recent' escaped' =>
    obtain ⟨rfl, rfl⟩ := hmode
    cases escaped with
    | true => exact ⟨rfl, h.tokens⟩
    | false =>
      by_cases hquote : b = 34
      · simp only [if_pos hquote]
        exact Trails.emit h.tokens _ _ _
      · by_cases hslash : b = 92
        · simp only [if_neg hquote, if_pos hslash]
          exact ⟨rfl, h.tokens⟩
        · simp only [if_neg hquote, if_neg hslash]
          exact ⟨rfl, h.tokens⟩

theorem Trails.foldl_feed (h : Trails front l l') (t : Text) :
    Trails front (t.foldl feed l) (t.foldl feed l') := by
  induction t generalizing l l' with
  | nil => exact h
  | cons b t ih => exact ih ⟨(h.take b).mode, (h.take b).tokens⟩

theorem Trails.lexemes (h : Trails front l l') : l.lexemes = front ++ l'.lexemes := by
  have hlast : l.last?.map (·.lexeme) = l'.last?.map (·.lexeme) := by
    have hmode := h.mode
    unfold last?
    cases hl : l.mode <;> cases hl' : l'.mode <;> rw [hl, hl'] at hmode <;>
      simp_all [Mode.unplaced]
  rw [lexemes_eq, lexemes_eq, h.tokens, ← Option.toList_map, ← Option.toList_map, hlast,
    List.append_assoc]

theorem Trails.trouble? (h : Trails front l l') :
    l.trouble?.map (·.cause) = l'.trouble?.map (·.cause) := by
  have hmode := h.mode
  unfold Lexer.trouble?
  cases hl : l.mode <;> cases hl' : l'.mode <;> rw [hl, hl'] at hmode <;>
    simp_all [Mode.unplaced]

/-- A line break ends whatever is no string. -/
theorem mode_feed_newline (h : l.trouble? = none) : (l.feed Text.newline).mode = .gap := by
  rcases (feed_newline l).2 with ⟨_, hgap⟩ | ⟨start, recent, hstring⟩
  · exact hgap
  · have hrole : Role.of Text.newline = .blank := by decide
    have hat : Text.newline ≠ 64 := by decide
    cases hmode : l.mode <;> simp_all [Lexer.trouble?, feed, Lexer.take, Lexer.begin, Lexer.emit]

end Lexer

/-- The pending form without the place where it starts. -/
def Pending.unplaced : Pending → Pending
  | .group b _ recent => .group b .start recent
  | p => p

theorem Pending.unplaced_eq : unplaced = move fun _ => .start := by
  funext p
  cases p <;> rfl

namespace Advance

/-- What becomes of the stack, without places. -/
def unplaced : Advance → Advance
  | .more stack => .more (stack.map Pending.unplaced)
  | .form d => .form d
  | .error e used => .error ⟨.start, e.cause⟩ used

theorem unplaced_eq : unplaced = move fun _ => .start := by
  funext a
  cases a with
  | more stack => rw [unplaced, move, Pending.unplaced_eq]
  | form d => rfl
  | error e used => rfl

/-- A step depends on the lexeme and on the stack without places. -/
theorem step_congr {stack stack' : List Pending}
    (hstack : stack.map Pending.unplaced = stack'.map Pending.unplaced) {t t' : Token}
    (ht : t.lexeme = t'.lexeme) : (step stack t).unplaced = (step stack' t').unplaced := by
  rw [Pending.unplaced_eq] at hstack
  rw [unplaced_eq, ← step_move, ← step_move, hstack, Token.move, Token.move, ht]

end Advance

namespace Reader

/-- The error at the end of the text depends on its places in the place only. -/
theorem ended_congr {r r' : Reader}
    (htrouble : r.trouble.map (·.cause) = r'.trouble.map (·.cause)) {stack stack' : List Pending}
    (hstack : stack.map Pending.unplaced = stack'.map Pending.unplaced) :
    (r.ended stack).cause = (r'.ended stack').cause := by
  rw [Pending.unplaced_eq] at hstack
  unfold ended
  cases hr : r.trouble <;> cases hr' : r'.trouble <;> rw [hr, hr'] at htrouble
  · have hmissing : Pending.missing stack = Pending.missing stack' := by
      rw [← missing_move stack, hstack, missing_move]
    rw [Option.getD_none, Option.getD_none, hmissing]
  · cases htrouble
  · cases htrouble
  · exact Option.some.inj htrouble

/-- The forms and the cause of the error follow from the lexemes. -/
theorem formsFrom_congr {r r' : Reader}
    (htrouble : r.trouble.map (·.cause) = r'.trouble.map (·.cause)) {stack stack' : List Pending}
    (hstack : stack.map Pending.unplaced = stack'.map Pending.unplaced) {ts ts' : List Token}
    (hts : ts.map (·.lexeme) = ts'.map (·.lexeme)) :
    (r.formsFrom stack ts).1 = (r'.formsFrom stack' ts').1 ∧
      (r.formsFrom stack ts).2.1.map (·.cause) = (r'.formsFrom stack' ts').2.1.map (·.cause) := by
  induction ts generalizing ts' stack stack' with
  | nil =>
    cases List.map_eq_nil_iff.mp hts.symm
    cases stack with
    | nil =>
      cases List.map_eq_nil_iff.mp hstack.symm
      exact ⟨rfl, htrouble⟩
    | cons p outer =>
      cases stack' with
      | nil => cases hstack
      | cons p' outer' => exact ⟨rfl, congrArg some (ended_congr htrouble hstack)⟩
  | cons t rest ih =>
    obtain ⟨t', rest', rfl, ht, hrest⟩ := Datum.exists_of_map_cons hts.symm
    have hstep := Advance.step_congr hstack ht.symm
    rw [formsFrom_cons, formsFrom_cons]
    cases h : Advance.step stack t <;> cases h' : Advance.step stack' t' <;>
      rw [h, h'] at hstep <;>
      simp only [Advance.unplaced, Advance.more.injEq, Advance.form.injEq, Advance.error.injEq,
        ParseError.mk.injEq, true_and, reduceCtorEq] at hstep
    case more.more => exact ih hstep hrest.symm
    case form.form =>
      obtain ⟨hforms, herror⟩ := ih (Eq.refl (List.map Pending.unplaced [])) hrest.symm
      subst hstep
      exact ⟨congrArg (_ :: ·) hforms, herror⟩
    case error.error => exact ⟨rfl, congrArg some hstep.1⟩

/-- Nothing is left pending when there was no error. -/
theorem settle_of_formsFrom {r : Reader} {stack : List Pending} {ts : List Token}
    (h : (r.formsFrom stack ts).2.1 = none) :
    ts.foldl Progress.settle (some stack) = some [] ∧ r.trouble = none := by
  induction ts generalizing stack with
  | nil =>
    cases stack with
    | nil => exact ⟨rfl, h⟩
    | cons p outer => cases h
  | cons t rest ih =>
    rw [formsFrom_cons] at h
    rw [List.foldl_cons, Progress.settle]
    cases hstep : Advance.step stack t with
    | more stack' =>
      simp only [hstep] at h ⊢
      exact ih h
    | form d =>
      simp only [hstep] at h ⊢
      exact ih h
    | error e used =>
      simp only [hstep] at h
      cases h

end Reader

namespace Datum

/-- Behind a text without an open string and a line break, the lexer goes on as it starts, on a
line further down. -/
theorem run_newline_behind {source : Text} (h : (Lexer.run source).trouble? = none) (t : Text) :
    Lexer.run (source ++ Text.newline :: t) = (Lexer.run t).behind (Lexer.run source).finish.toArray
      (Position.below (1 + source.count Text.newline)) := by
  have hstart : (Lexer.run source).feed Text.newline =
      ({} : Lexer).behind (Lexer.run source).finish.toArray
        (Position.below (1 + source.count Text.newline)) := by
    have hmode := Lexer.mode_feed_newline h
    have htokens := (Lexer.feed_newline (Lexer.run source)).1
    have hposition : ((Lexer.run source).feed Text.newline).position =
        Position.start.below (1 + source.count Text.newline) := by
      change (⟨(Lexer.run source).position.line + 1, 1⟩ : Position) = _
      rw [Lexer.line_run, Nat.add_comm]
      rfl
    cases hfed : (Lexer.run source).feed Text.newline with
    | mk mode position tokens =>
      simp only [hfed] at hmode htokens hposition
      simp [Lexer.behind, Lexer.Mode.move, hmode, hposition, ← htokens]
  rw [Lexer.run_newline, hstart]
  exact Lexer.foldl_feed_behind (Position.after_below _) t

/-- Behind a text without error and a line break, a text is read as it is alone, on a line further
down. -/
theorem readAll_newline {source : Text} (h : (readAll source).2 = none) (t : Text) :
    (readAll (source ++ Text.newline :: t)).1 = (readAll source).1 ++ (readAll t).1 ∧
      (readAll (source ++ Text.newline :: t)).2 = (readAll t).2.map
        (ParseError.move (Position.below (1 + source.count Text.newline))) := by
  have hnone : ((Reader.ofText source).formsFrom [] (Lexer.run source).finish).2.1 = none := h
  obtain ⟨hsettle, htrouble⟩ := Reader.settle_of_formsFrom hnone
  have hrun := run_newline_behind htrouble t
  have hfinish := congrArg Lexer.finish hrun
  rw [Lexer.finish_behind, List.toList_toArray] at hfinish
  have htrouble' : (Reader.ofText (source ++ Text.newline :: t)).trouble =
      (Reader.ofText t).trouble.map
        (ParseError.move (Position.below (1 + source.count Text.newline))) :=
    (congrArg Lexer.trouble? hrun).trans Lexer.trouble?_behind
  have hstop : (Reader.ofText (source ++ Text.newline :: t)).stop =
      Position.below (1 + source.count Text.newline) (Reader.ofText t).stop :=
    congrArg Lexer.position hrun
  have hmoved := Reader.formsFrom_move htrouble' hstop [] (Lexer.run t).finish
  rw [readAll_eq (source ++ _), hfinish, Reader.formsFrom_append (Reader.ofText source) _ hsettle,
    readAll_eq t]
  exact ⟨congrArg ((readAll source).1 ++ ·) hmoved.1, hmoved.2⟩

/-- When a text reads without an error, what stands behind it and a line break adds its own forms,
and its own error if it has one: the cause and the column stay, and the line is counted on from the
lines in front. It is incomplete or not as it is alone. -/
theorem reading_adds_up {source : Text} (h : (readAll source).2 = none) (t : Text) :
    readAll (source ++ Text.newline :: t) =
      ((readAll source).1 ++ (readAll t).1, (readAll t).2.map fun e =>
        ⟨⟨e.position.line + (1 + source.count Text.newline), e.position.column⟩, e.cause⟩) ∧
    isIncomplete (source ++ Text.newline :: t) = isIncomplete t := by
  obtain ⟨hforms, herror⟩ := readAll_newline h t
  refine ⟨Prod.ext hforms herror, ?_⟩
  rw [isIncomplete, herror, isIncomplete, Option.any_map]
  rfl

/-- The first text ends in a comment behind a tilde that stands before a mark, and the second stops
inside a map on its second line. -/
theorem reading_adds_up_map :
    let source := Text.of "'a \"b\nc\"\n~ @d ; e"
    let t := Text.of "[1]\n \x7b:k"
    (readAll source).2 = none ∧
    (readAll (source ++ Text.newline :: t)).1 = (readAll source).1 ++ [.group .square [.int 1]] ∧
    (readAll (source ++ Text.newline :: t)).2 = some ⟨⟨5, 5⟩, .missingCloser .curly⟩ := by
  intro source t
  have hnone : (readAll source).2 = none := by decide +kernel
  have hsecond : (readAll t).2 = some ⟨⟨2, 5⟩, .missingCloser .curly⟩ := by decide +kernel
  have hcount : source.count Text.newline = 2 := by decide +kernel
  have hadds := (reading_adds_up hnone t).1
  refine ⟨hnone, ?_, ?_⟩
  · rw [hadds]
    rfl
  · rw [hadds, hsecond, hcount]
    rfl

end Datum

end Lisp
