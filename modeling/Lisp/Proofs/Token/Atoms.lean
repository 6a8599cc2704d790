import Lisp.Failure
import Lisp.Proofs.Datum.Reading

/-!
Tokens are whole. The reader takes the first byte of an atom, and what stands between its quotes or
behind its colon, without looking whether they are there; they are, since the lexer emits strings in
their quotes and words of plain bytes only. So no text makes the reader crash.
-/
namespace Lisp

/-- The text of an atom is a string in its quotes or a word of plain bytes. -/
def Lexeme.IsWhole : Lexeme → Prop
  | .atom text => (∃ content, text = 34 :: (content ++ [34])) ∨ IsWord text
  | _ => True

namespace Lexer

/-- The tokens found so far are whole, and a word that is being collected has plain bytes only. -/
structure IsWhole (l : Lexer) : Prop where
  tokens : ∀ t ∈ l.tokens.toList, t.lexeme.IsWhole
  mode : ∀ start first recent, l.mode = .word start first recent →
    Role.of first = .plain ∧ ∀ b ∈ recent, Role.of b = .plain

theorem isWhole_of_single {b : UInt8} {lexeme : Lexeme} (h : Role.of b = .single lexeme) :
    lexeme.IsWhole := by
  have hmem := Role.mem_of_single h
  cases lexeme with
  | atom text => simp at hmem
  | _ => trivial

theorem isWhole_word {first : UInt8} {recent : Text} (hfirst : Role.of first = .plain)
    (hrecent : ∀ b ∈ recent, Role.of b = .plain) :
    (Lexeme.word first recent.reverse).IsWhole := by
  refine .inr ⟨List.cons_ne_nil _ _, List.forall_mem_cons.mpr ⟨hfirst, fun c hc => ?_⟩⟩
  exact hrecent c (List.mem_reverse.mp hc)

theorem isWhole_emit {l : Lexer} (h : ∀ t ∈ l.tokens.toList, t.lexeme.IsWhole) {lexeme : Lexeme}
    (hlexeme : lexeme.IsWhole) (start : Position) : (l.emit lexeme start).IsWhole := by
  refine ⟨?_, fun _ _ _ hmode => by cases hmode⟩
  intro t ht
  rw [emit, Array.toList_push, List.mem_append, List.mem_singleton] at ht
  rcases ht with ht | rfl
  · exact h t ht
  · exact hlexeme

theorem isWhole_begin {l : Lexer} (h : ∀ t ∈ l.tokens.toList, t.lexeme.IsWhole) (b : UInt8) :
    (l.begin b).IsWhole := by
  unfold begin
  split
  case h_5 lexeme hrole => exact isWhole_emit h (isWhole_of_single hrole) _
  case h_6 hrole =>
    refine ⟨h, fun start first recent hmode => ?_⟩
    cases hmode
    exact ⟨hrole, by simp⟩
  all_goals exact ⟨h, fun _ _ _ hmode => by cases hmode⟩

theorem isWhole_take {l : Lexer} (h : l.IsWhole) (b : UInt8) : (l.take b).IsWhole := by
  unfold take
  split
  · exact isWhole_begin h.tokens b
  · split
    · exact ⟨h.tokens, fun _ _ _ hmode => by cases hmode⟩
    · exact h
  · split
    · exact isWhole_emit h.tokens (by trivial) _
    · exact isWhole_begin (isWhole_emit h.tokens (by trivial) _).tokens b
  · rename_i start first recent hmode
    obtain ⟨hfirst, hrecent⟩ := h.mode start first recent hmode
    split
    · rename_i hb
      refine ⟨h.tokens, fun _ _ _ hword => ?_⟩
      cases hword
      exact ⟨hfirst, List.forall_mem_cons.mpr ⟨hb, hrecent⟩⟩
    · have hlexeme : (Lexeme.word first recent.reverse).IsWhole := isWhole_word hfirst hrecent
      exact isWhole_begin (isWhole_emit h.tokens hlexeme _).tokens b
  · exact ⟨h.tokens, fun _ _ _ hmode => by cases hmode⟩
  · split
    · rename_i start recent _ _
      have hlexeme : (Lexeme.string recent.reverse).IsWhole := Or.inl ⟨recent.reverse, rfl⟩
      exact isWhole_emit h.tokens hlexeme start
    · split
      · exact ⟨h.tokens, fun _ _ _ hmode => by cases hmode⟩
      · exact ⟨h.tokens, fun _ _ _ hmode => by cases hmode⟩

theorem isWhole_run (source : Text) : (run source).IsWhole := by
  have hfold : ∀ (t : Text) (l : Lexer), l.IsWhole → (t.foldl feed l).IsWhole := by
    intro t
    induction t with
    | nil => exact fun l hl => hl
    | cons b t ih =>
      intro l hl
      obtain ⟨htokens, hmode⟩ := isWhole_take hl b
      exact ih (l.feed b) ⟨htokens, hmode⟩
  exact hfold source {} ⟨by simp, fun _ _ _ hmode => by cases hmode⟩

/-- Every token of a text is whole. -/
theorem isWhole_finish (source : Text) : ∀ t ∈ (run source).finish, t.lexeme.IsWhole := by
  obtain ⟨htokens, hmode⟩ := isWhole_run source
  intro t ht
  rw [finish_eq, List.mem_append] at ht
  rcases ht with ht | ht
  · exact htokens t ht
  · unfold last? at ht
    split at ht
    · rename_i start _
      rw [Option.toList_some, List.mem_singleton] at ht
      subst ht
      trivial
    · rename_i start first recent hword
      rw [Option.toList_some, List.mem_singleton] at ht
      subst ht
      obtain ⟨hfirst, hrecent⟩ := hmode start first recent hword
      exact isWhole_word hfirst hrecent
    all_goals cases ht

end Lexer

/-- What is wrong is the text, not the reader. -/
def ParseError.IsProper (e : ParseError) : Prop := ∀ c, e.cause ≠ .crash c

namespace Datum

theorem ofWord_ne_crash (first : UInt8) (rest : Text) (c : Crash) :
    ofWord (first :: rest) ≠ .error (.crash c) := by
  rw [ofWord_cons, ofName_cons]
  split
  · split
    · exact nofun
    · exact nofun
    · split <;> exact nofun
  · exact nofun

theorem ofAtom_ne_crash {text : Text} (h : (Lexeme.atom text).IsWhole) (c : Crash) :
    ofAtom text ≠ .error (.crash c) := by
  rcases h with ⟨content, rfl⟩ | hword
  · rw [ofAtom_string]
    exact nofun
  · cases text with
    | nil => exact absurd rfl hword.1
    | cons first rest =>
      rw [ofAtom_of_isWord hword]
      exact ofWord_ne_crash first rest c

end Datum

theorem Advance.isProper_step {stack : List Pending} {t : Token} (ht : t.lexeme.IsWhole)
    {e : ParseError} {used : Bool} (h : step stack t = .error e used) : e.IsProper := by
  unfold step at h
  split at h
  · cases h
  · unfold close at h
    split at h
    · split at h
      · cases h
        exact nofun
      · split at h
        · cases h
          exact nofun
        · exact absurd h (Progress.place_ne_error _ _ _ _)
    · cases h
      exact nofun
  · cases h
  · cases h
  · rename_i text hlexeme
    rw [hlexeme] at ht
    split at h
    · exact absurd h (Progress.place_ne_error _ _ _ _)
    · rename_i cause hatom
      cases h
      intro c hc
      exact Datum.ofAtom_ne_crash ht c (hatom.trans (congrArg Except.error hc))

namespace Reader

variable {r : Reader} {stack : List Pending} {tokens : List Token} {e : ParseError}

theorem isProper_ended (htrouble : ∀ e, r.trouble = some e → e.IsProper) (stack : List Pending) :
    (r.ended stack).IsProper := by
  unfold ended
  cases h : r.trouble with
  | some e => exact htrouble e h
  | none =>
    unfold Pending.missing
    intro c
    dsimp only [Option.getD_none]
    split <;> exact nofun

theorem isProper_readFrom (htrouble : ∀ e, r.trouble = some e → e.IsProper)
    (htokens : ∀ t ∈ tokens, t.lexeme.IsWhole) (h : (r.readFrom stack tokens).1 = .error e) :
    e.IsProper := by
  induction tokens generalizing stack with
  | nil =>
    rw [readFrom] at h
    cases h
    exact isProper_ended htrouble stack
  | cons t rest ih =>
    obtain ⟨ht, hrest⟩ := List.forall_mem_cons.mp htokens
    rw [readFrom] at h
    split at h
    · exact ih hrest h
    · cases h
    · rename_i hstep
      cases h
      exact Advance.isProper_step ht hstep

theorem isProper_formsFrom (htrouble : ∀ e, r.trouble = some e → e.IsProper)
    (htokens : ∀ t ∈ tokens, t.lexeme.IsWhole) (h : (r.formsFrom stack tokens).2.1 = some e) :
    e.IsProper := by
  induction tokens generalizing stack with
  | nil =>
    cases stack with
    | nil => exact htrouble e h
    | cons p outer =>
      cases h
      exact isProper_ended htrouble (p :: outer)
  | cons t rest ih =>
    obtain ⟨ht, hrest⟩ := List.forall_mem_cons.mp htokens
    rw [formsFrom_cons] at h
    split at h
    · exact ih hrest h
    · exact ih hrest h
    · rename_i hstep
      cases h
      exact Advance.isProper_step ht hstep

theorem isProper_trouble {source : Text} (h : (ofText source).trouble = some e) : e.IsProper := by
  change (Lexer.run source).trouble? = some e at h
  unfold Lexer.trouble? at h
  split at h <;> cases h
  exact nofun

end Reader

namespace Datum

variable {source : Text} {e : ParseError}

/-- No text makes the reader crash. -/
theorem isProper_read (h : read source = .error e) : e.IsProper := by
  unfold read Reader.next at h
  split at h
  · cases h
  · rename_i result hresult
    split at hresult
    · cases htrouble : (Reader.ofText source).trouble with
      | none =>
        rw [htrouble] at hresult
        cases hresult
      | some e' =>
        rw [htrouble] at hresult
        cases hresult
        cases h
        exact Reader.isProper_trouble htrouble
    · cases hresult
      exact Reader.isProper_readFrom (fun _ => Reader.isProper_trouble)
        (Lexer.isWhole_finish source) h

theorem isProper_readAll (h : (readAll source).2 = some e) : e.IsProper :=
  Reader.isProper_formsFrom (fun _ => Reader.isProper_trouble) (Lexer.isWhole_finish source) h

end Datum

theorem Failure.ofParse_eq {e : ParseError} (h : e.IsProper) : ofParse e = .parse e := by
  unfold ofParse
  split
  · rename_i c hc
    exact absurd hc (h c)
  · rfl

end Lisp
