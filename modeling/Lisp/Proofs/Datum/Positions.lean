import Lisp.Datum.Reader

/-!
Positions go along. The lexer notes where each token starts and the reader hands these places on to
errors, but neither decides anything by them. So to move the positions that go in moves those that
come out in the same way, and changes nothing else. The lexer also counts lines and columns, which
agrees with a move of all lines by one number.
-/
namespace Lisp

/-- The position so many lines further down. -/
def Position.below (lines : Nat) (p : Position) : Position := ⟨p.line + lines, p.column⟩

theorem Position.after_below (lines : Nat) (p : Position) (b : UInt8) :
    (p.below lines).after b = (p.after b).below lines := by
  unfold after below
  by_cases hb : b = Text.newline
  · simp only [if_pos hb, Position.mk.injEq, and_true]
    omega
  · simp only [if_neg hb]

def Token.move (f : Position → Position) (t : Token) : Token := ⟨t.lexeme, f t.position⟩

def ParseError.move (f : Position → Position) (e : ParseError) : ParseError :=
  ⟨f e.position, e.cause⟩

def Pending.move (f : Position → Position) : Pending → Pending
  | .mark m => .mark m
  | .metadata => .metadata
  | .annotated d => .annotated d
  | .group b start recent => .group b (f start) recent

namespace Lexer

def Mode.move (f : Position → Position) : Mode → Mode
  | .gap => .gap
  | .comment => .comment
  | .tilde start => .tilde (f start)
  | .word start first recent => .word (f start) first recent
  | .string start recent escaped => .string (f start) recent escaped

/-- The lexer with other tokens in front of its own and with its positions moved. -/
def behind (front : Array Token) (f : Position → Position) (l : Lexer) : Lexer :=
  ⟨l.mode.move f, f l.position, front ++ l.tokens.map (Token.move f)⟩

variable {front : Array Token} {f : Position → Position} {l : Lexer}

theorem emit_behind (lexeme : Lexeme) (start : Position) :
    (l.behind front f).emit lexeme (f start) = (l.emit lexeme start).behind front f := by
  simp [emit, behind, Mode.move, Token.move]

theorem begin_behind (b : UInt8) : (l.behind front f).begin b = (l.begin b).behind front f := by
  unfold begin
  cases Role.of b with
  | single lexeme => exact emit_behind lexeme l.position
  | _ => rfl

theorem mode_behind : (l.behind front f).mode = l.mode.move f := rfl

theorem take_behind (b : UInt8) : (l.behind front f).take b = (l.take b).behind front f := by
  unfold take
  rw [mode_behind]
  cases hmode : l.mode with
  | gap => exact begin_behind b
  | comment =>
    by_cases hb : b = Text.newline
    · simp only [Mode.move, if_pos hb]
      rfl
    · simp only [Mode.move, if_neg hb]
  | tilde start =>
    by_cases hb : b = 64
    · simp only [Mode.move, if_pos hb]
      exact emit_behind ..
    · simp only [Mode.move, if_neg hb]
      rw [emit_behind, begin_behind]
  | word start first recent =>
    by_cases hb : Role.of b = .plain
    · simp only [Mode.move, if_pos hb]
      rfl
    · simp only [Mode.move, if_neg hb]
      rw [emit_behind, begin_behind]
  | string start recent escaped =>
    cases escaped with
    | true => rfl
    | false =>
      by_cases hquote : b = 34
      · simp only [Mode.move, if_pos hquote]
        exact emit_behind ..
      · by_cases hslash : b = 92
        · simp only [Mode.move, if_neg hquote, if_pos hslash]
          rfl
        · simp only [Mode.move, if_neg hquote, if_neg hslash]
          rfl

section Feeding

variable (hf : ∀ p b, (f p).after b = f (p.after b))
include hf

theorem feed_behind (b : UInt8) : (l.behind front f).feed b = (l.feed b).behind front f := by
  unfold feed
  rw [take_behind]
  simp only [behind, hf]

theorem foldl_feed_behind (t : Text) :
    t.foldl feed (l.behind front f) = (t.foldl feed l).behind front f := by
  induction t generalizing l with
  | nil => rfl
  | cons b t ih => rw [List.foldl_cons, List.foldl_cons, feed_behind hf, ih]

end Feeding

theorem line_foldl_feed (t : Text) (l : Lexer) :
    (t.foldl feed l).position.line = l.position.line + t.count Text.newline := by
  induction t generalizing l with
  | nil => rfl
  | cons b t ih =>
    rw [List.foldl_cons, ih, List.count_cons]
    change (l.position.after b).line + _ = _
    unfold Position.after
    by_cases hb : b = Text.newline
    · simp only [hb, if_true, beq_self_eq_true]
      omega
    · simp [hb]

/-- The lines of a text are counted from one. -/
theorem line_run (t : Text) : (run t).position.line = 1 + t.count Text.newline :=
  line_foldl_feed t {}

theorem finish_behind :
    (l.behind front f).finish = front.toList ++ l.finish.map (Token.move f) := by
  have hlast : (l.behind front f).last? = l.last?.map (Token.move f) := by
    unfold last?
    rw [mode_behind]
    cases l.mode <;> rfl
  rw [finish_eq, finish_eq, hlast, List.map_append, ← List.append_assoc, Option.toList_map]
  simp [behind]

theorem trouble?_behind : (l.behind front f).trouble? = l.trouble?.map (ParseError.move f) := by
  unfold trouble?
  rw [mode_behind]
  cases l.mode <;> rfl

end Lexer

namespace Advance

variable {f : Position → Position}

def move (f : Position → Position) : Advance → Advance
  | .more stack => .more (stack.map (Pending.move f))
  | .form d => .form d
  | .error e used => .error (e.move f) used

theorem place_move (d : Datum) (stack : List Pending) :
    place d (stack.map (Pending.move f)) = (place d stack).move f := by
  induction stack generalizing d with
  | nil => rfl
  | cons p outer ih =>
    cases p with
    | mark m => exact ih _
    | metadata => rfl
    | annotated metadata => exact ih _
    | group b start recent => rfl

theorem close_move (b : Bracket) (position : Position) (stack : List Pending) :
    close b (f position) (stack.map (Pending.move f)) = (close b position stack).move f := by
  cases stack with
  | nil => rfl
  | cons p outer =>
    cases p with
    | group opened start recent =>
      simp only [List.map_cons, Pending.move, close]
      split
      · rfl
      · split
        · rfl
        · exact place_move _ outer
    | _ => rfl

/-- A step on a moved token, with moved forms pending, is the step moved. -/
theorem step_move (stack : List Pending) (t : Token) :
    step (stack.map (Pending.move f)) (t.move f) = (step stack t).move f := by
  unfold step Token.move
  cases t.lexeme with
  | opening b => rfl
  | closing b => exact close_move b t.position stack
  | mark m => rfl
  | caret => rfl
  | atom text =>
    simp only
    cases Datum.ofAtom text with
    | ok d => exact place_move d stack
    | error cause => rfl

end Advance

namespace Reader

variable {f : Position → Position} {r r' : Reader}

theorem missing_move (stack : List Pending) :
    Pending.missing (stack.map (Pending.move f)) = Pending.missing stack := by
  cases stack with
  | nil => rfl
  | cons p outer => cases p <;> rfl

/-- Where the end of the text and the open string are moved along with the tokens, the forms are the
same and the error is moved. -/
theorem formsFrom_move (htrouble : r'.trouble = r.trouble.map (ParseError.move f))
    (hstop : r'.stop = f r.stop) (stack : List Pending) (ts : List Token) :
    (r'.formsFrom (stack.map (Pending.move f)) (ts.map (Token.move f))).1 =
        (r.formsFrom stack ts).1 ∧
      (r'.formsFrom (stack.map (Pending.move f)) (ts.map (Token.move f))).2.1 =
        (r.formsFrom stack ts).2.1.map (ParseError.move f) := by
  induction ts generalizing stack with
  | nil =>
    cases stack with
    | nil => exact ⟨rfl, htrouble⟩
    | cons p outer =>
      have hended : r'.ended ((p :: outer).map (Pending.move f)) =
          (r.ended (p :: outer)).move f := by
        unfold ended
        rw [htrouble, hstop, missing_move]
        cases r.trouble <;> rfl
      exact ⟨rfl, congrArg some hended⟩
  | cons t rest ih =>
    rw [List.map_cons, formsFrom_cons, formsFrom_cons, Advance.step_move]
    cases Advance.step stack t with
    | more stack' => exact ih stack'
    | form d => exact ⟨congrArg (d :: ·) (ih []).1, (ih []).2⟩
    | error e used => exact ⟨rfl, rfl⟩

end Reader

end Lisp
