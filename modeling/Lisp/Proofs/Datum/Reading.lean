import Lisp.Datum.Progress
import Lisp.Proofs.Token.Lexing

/-!
Reading the text of a datum. The tokens of a datum, read on any stack, hand the datum to the
innermost pending form, provided that each of its words reads as the leaf it stands for. A word that
does not read ends the reading with its error, wherever in the datum it is.
-/
namespace Lisp

/-- A closing bracket hands the group to the form around it, unless a map is left odd. -/
theorem Advance.step_closing {t : Token} {b : Bracket} (ht : t.lexeme = .closing b)
    {recent : List Datum} (heven : b = .curly → recent.length % 2 = 0) (start : Position)
    (outer : List Pending) :
    step (.group b start recent :: outer) t = place (.group b recent.reverse) outer := by
  rw [step, ht]
  simp only [close, ne_eq, not_true, if_false]
  rw [if_neg]
  rintro ⟨hcurly, hodd⟩
  exact hodd (heven hcurly)

theorem Advance.step_string {t : Token} {content : Text} (ht : t.lexeme = .string content)
    (stack : List Pending) : step stack t = place (.string content) stack := by
  rw [step, ht]
  simp only [Datum.ofAtom_string]

namespace Reader

/-- How the reading goes on after a step. -/
def after (r : Reader) (rest : List Token) : Advance → Except ParseError Datum × List Token
  | .more stack => r.readFrom stack rest
  | .form d => (.ok d, rest)
  | .error e _ => (.error e, rest)

theorem readFrom_of_step {r : Reader} {stack : List Pending} {t : Token} {d : Datum}
    {outer : List Pending} (hstep : Advance.step stack t = Advance.place d outer)
    (rest : List Token) : r.readFrom stack (t :: rest) = r.after rest (Advance.place d outer) := by
  rw [readFrom, hstep]
  cases hplace : Advance.place d outer with
  | more stack => rfl
  | form d => rfl
  | error e used => exact absurd hplace (Progress.place_ne_error d outer e used)

end Reader

namespace Datum

theorem ofAtom_of_isWord {first : UInt8} {rest : Text} (h : IsWord (first :: rest)) :
    ofAtom (first :: rest) = ofWord (first :: rest) :=
  ofAtom_word (ne_quote_of_isWord h) rest

/-- The leaf is what its word stands for, and the group can be closed. -/
def IsReadable : Datum → Prop
  | .string _ => True
  | .group b items => b = .curly → items.length % 2 = 0
  | d => ∃ first rest, d.text = first :: rest ∧ ofAtom (first :: rest) = .ok d

/-- The word `nil` reads as nil. -/
theorem nil_isReadable : nil.IsSpelled ∧ nil.IsReadable :=
  ⟨show IsWord (Text.of "nil") by decide, 110, Text.of "il", rfl, rfl⟩

/-- A token with the given lexeme stands in front. -/
theorem exists_of_map_cons {ts : List Token} {lexeme : Lexeme} {ls : List Lexeme}
    (h : ts.map (·.lexeme) = lexeme :: ls) :
    ∃ t more, ts = t :: more ∧ t.lexeme = lexeme ∧ more.map (·.lexeme) = ls := by
  cases ts with
  | nil => cases h
  | cons t more =>
    rw [List.map_cons, List.cons.injEq] at h
    exact ⟨t, more, rfl, h.1, h.2⟩

theorem readFrom_leaf {d : Datum} (hd : d.IsReadable) (hleaf : d.IsLeaf) {ts : List Token}
    (hts : ts.map (·.lexeme) = d.lexemes) (r : Reader) (stack : List Pending)
    (rest : List Token) : r.readFrom stack (ts ++ rest) = r.after rest (Advance.place d stack) := by
  have hstep : ∃ t, ts = [t] ∧ Advance.step stack t = Advance.place d stack := by
    cases d with
    | group b items => exact absurd rfl (hleaf b items)
    | string s =>
      obtain ⟨t, more, rfl, ht, hmore⟩ := exists_of_map_cons hts
      cases List.map_eq_nil_iff.mp hmore
      exact ⟨t, rfl, Advance.step_string ht stack⟩
    | _ =>
      obtain ⟨first, rest, htext, hword⟩ := hd
      rw [lexemes_word hleaf (by simp), htext, wordLexeme] at hts
      obtain ⟨t, more, rfl, ht, hmore⟩ := exists_of_map_cons hts
      cases List.map_eq_nil_iff.mp hmore
      exact ⟨t, rfl, by rw [Advance.step, ht]; simp only [hword]⟩
  obtain ⟨t, rfl, hstep⟩ := hstep
  exact Reader.readFrom_of_step hstep rest

/-- Items are collected by the group around them, last first. -/
theorem readFrom_items {items : List Datum}
    (h : ∀ d ∈ items, ∀ ts : List Token, ts.map (·.lexeme) = d.lexemes →
      ∀ (r : Reader) stack rest, r.readFrom stack (ts ++ rest) =
        r.after rest (Advance.place d stack))
    {ts : List Token} (hts : ts.map (·.lexeme) = lexemesOf items) (r : Reader) (b : Bracket)
    (start : Position) (recent : List Datum) (outer : List Pending) (rest : List Token) :
    r.readFrom (.group b start recent :: outer) (ts ++ rest) =
      r.readFrom (.group b start (items.reverse ++ recent) :: outer) rest := by
  induction items generalizing ts recent with
  | nil =>
    cases List.map_eq_nil_iff.mp hts
    rfl
  | cons d more ih =>
    rw [lexemesOf] at hts
    obtain ⟨front, back, rfl, hfront, hback⟩ := List.map_eq_append_iff.mp hts
    rw [List.append_assoc, h d List.mem_cons_self front hfront, Advance.place, Reader.after,
      ih (fun e he => h e (List.mem_cons_of_mem d he)) hback, List.reverse_cons,
      List.append_assoc, List.singleton_append]

/-- The tokens of a datum hand it to the innermost pending form. -/
theorem readFrom_lexemes {d : Datum} (hd : d.Each IsReadable) {ts : List Token}
    (hts : ts.map (·.lexeme) = d.lexemes) (r : Reader) (stack : List Pending)
    (rest : List Token) : r.readFrom stack (ts ++ rest) = r.after rest (Advance.place d stack) := by
  induction d generalizing ts r stack rest with
  | group b items ih =>
    obtain ⟨hself, hitems⟩ := each_group.mp hd
    rw [lexemes] at hts
    obtain ⟨t, more, rfl, ht, hmore⟩ := exists_of_map_cons hts
    obtain ⟨body, last, rfl, hbody, hlast⟩ := List.map_eq_append_iff.mp hmore
    obtain ⟨c, none, rfl, hc, hnone⟩ := exists_of_map_cons hlast
    cases List.map_eq_nil_iff.mp hnone
    have hopen : Advance.step stack t = .more (.group b t.position [] :: stack) := by
      rw [Advance.step, ht]
    have hclose : Advance.step (.group b t.position (items.reverse ++ []) :: stack) c =
        Advance.place (.group b items) stack := by
      rw [List.append_nil, Advance.step_closing hc (by rwa [List.length_reverse]),
        List.reverse_reverse]
    rw [List.cons_append, Reader.readFrom, hopen]
    simp only
    rw [List.append_assoc, readFrom_items (fun d hd _ hts r stack rest =>
      ih d hd (hitems d hd) hts r stack rest) hbody]
    exact Reader.readFrom_of_step hclose rest
  | _ => exact readFrom_leaf hd.self (by simp [IsLeaf]) hts r stack rest

/-- The word of the leaf is an error. -/
def IsRefused (d : Datum) : Prop :=
  d.IsLeaf ∧ (∀ s, d ≠ .string s) ∧
    ∃ first rest cause, d.text = first :: rest ∧ ofAtom (first :: rest) = .error cause

theorem IsRefused.not_isReadable {d : Datum} (h : d.IsRefused) : ¬ d.IsReadable := by
  obtain ⟨hleaf, hstring, first, rest, cause, htext, hword⟩ := h
  intro hread
  have hreads : ∃ c t, d.text = c :: t ∧ ofAtom (c :: t) = .ok d := by
    cases d with
    | string s => exact absurd rfl (hstring s)
    | group b items => exact absurd rfl (hleaf b items)
    | _ => exact hread
  obtain ⟨c, t, htext', hword'⟩ := hreads
  rw [htext] at htext'
  cases htext'
  rw [hword] at hword'
  cases hword'

/-- Reading the tokens of a datum with a refused word in it ends in an error. -/
theorem readFrom_refused {d : Datum} (hd : d.Each fun d => d.IsReadable ∨ d.IsRefused)
    (hbad : ¬ d.Each IsReadable) {ts : List Token} (hts : ts.map (·.lexeme) = d.lexemes)
    (r : Reader) (stack : List Pending) (rest : List Token) :
    ∃ e, (r.readFrom stack (ts ++ rest)).1 = .error e := by
  induction d generalizing ts r stack rest with
  | group b items ih =>
    obtain ⟨hself, hitems⟩ := each_group.mp hd
    have hreadable : (group b items).IsReadable := by
      rcases hself with hself | ⟨hleaf, _⟩
      · exact hself
      · exact absurd rfl (hleaf b items)
    have hsome : ¬ ∀ d ∈ items, d.Each IsReadable := fun hall =>
      hbad (each_group.mpr ⟨hreadable, hall⟩)
    rw [lexemes] at hts
    obtain ⟨t, more, rfl, ht, hmore⟩ := exists_of_map_cons hts
    obtain ⟨body, last, rfl, hbody, _⟩ := List.map_eq_append_iff.mp hmore
    have hopen : Advance.step stack t = .more (.group b t.position [] :: stack) := by
      rw [Advance.step, ht]
    rw [List.cons_append, Reader.readFrom, hopen]
    simp only [List.append_assoc]
    generalize ([] : List Datum) = recent
    clear hbad hts hmore hself hreadable hd hopen ht
    -- The items before the first bad one are collected, and that one ends the reading.
    induction items generalizing body recent with
    | nil => simp at hsome
    | cons d items ihs =>
      rw [lexemesOf] at hbody
      obtain ⟨front, back, rfl, hfront, hback⟩ := List.map_eq_append_iff.mp hbody
      rw [List.append_assoc]
      by_cases hgood : d.Each IsReadable
      · rw [readFrom_lexemes hgood hfront, Advance.place, Reader.after]
        refine ihs (fun e he => ih e (List.mem_cons_of_mem d he))
          (fun e he => hitems e (List.mem_cons_of_mem d he)) ?_ back hback (d :: recent)
        intro hall
        exact hsome (List.forall_mem_cons.mpr ⟨hgood, hall⟩)
      · exact ih d List.mem_cons_self (hitems d List.mem_cons_self) hgood hfront r _ _
  | string s => exact absurd trivial hbad
  | _ =>
    rcases hd.self with hgood | ⟨hleaf, hstring, first, more, cause, htext, hword⟩
    · exact absurd hgood hbad
    · rw [lexemes_word hleaf hstring, htext, wordLexeme] at hts
      obtain ⟨t, none, rfl, ht, hnone⟩ := exists_of_map_cons hts
      cases List.map_eq_nil_iff.mp hnone
      have hstep : Advance.step stack t = .error ⟨t.position, cause⟩ true := by
        rw [Advance.step, ht]
        simp only [hword]
      exact ⟨⟨t.position, cause⟩, by rw [List.singleton_append, Reader.readFrom, hstep]⟩

theorem lexemes_ne_nil {d : Datum} (h : d.IsSpelled) : d.lexemes ≠ [] := by
  cases d with
  | string s => simp [lexemes]
  | group b items => simp [lexemes]
  | _ =>
    obtain ⟨hne, _⟩ := h
    rw [lexemes_word (by simp [IsLeaf]) (by simp)]
    revert hne
    cases text _ <;> simp [wordLexeme]

/-- The tokens of the text of a datum. -/
theorem ofText_text {d : Datum} (h : d.Each IsSpelled) :
    (Reader.ofText d.text).rest.map (·.lexeme) = d.lexemes ∧
      (Reader.ofText d.text).trouble = none := by
  obtain ⟨hedge, hlexemes⟩ := yields_text h {} rfl
  constructor
  · exact hlexemes
  · change (Lexer.run d.text).trouble? = none
    rcases hedge with hgap | ⟨start, first, recent, hword⟩
    · simp [Lexer.run, Lexer.trouble?, hgap]
    · simp [Lexer.run, Lexer.trouble?, hword]

theorem next_eq_readFrom {r : Reader} (h : r.rest ≠ []) :
    r.next = (some (r.readFrom [] r.rest).1, { r with rest := (r.readFrom [] r.rest).2 }) := by
  unfold Reader.next
  split
  · contradiction
  · rfl

/-- The text of a datum is read as that datum, and nothing is left. -/
theorem next_ofText_text {d : Datum} (hspelled : d.Each IsSpelled) (hread : d.Each IsReadable) :
    ∃ r, (Reader.ofText d.text).next = (some (.ok d), r) ∧ r.next.1 = none := by
  obtain ⟨htokens, htrouble⟩ := ofText_text hspelled
  have hne : (Reader.ofText d.text).rest ≠ [] := by
    intro hnil
    rw [hnil] at htokens
    exact lexemes_ne_nil hspelled.self htokens.symm
  have hfrom := readFrom_lexemes hread htokens (Reader.ofText d.text) [] []
  rw [List.append_nil, Advance.place, Reader.after] at hfrom
  refine ⟨{ Reader.ofText d.text with rest := [] }, ?_, ?_⟩
  · rw [next_eq_readFrom hne, hfrom]
  · rw [Reader.next]
    simp [htrouble]

/-- A word alone is read as what it stands for. -/
theorem read_word {first : UInt8} {rest : Text} (hword : IsWord (first :: rest)) {d : Datum}
    (h : ofAtom (first :: rest) = .ok d) : read (first :: rest) = .ok d := by
  obtain ⟨_, hlexemes⟩ := Lexer.foldl_feed_word (l := {}) rfl hword
  have htokens : (Reader.ofText (first :: rest)).rest.map (·.lexeme) = [.word first rest] :=
    hlexemes
  obtain ⟨t, more, hrest, ht, hmore⟩ := exists_of_map_cons htokens
  have hstep : Advance.step [] t = .form d := by
    rw [Advance.step, ht]
    simp only [h, Advance.place]
  rw [read, next_eq_readFrom (by rw [hrest]; exact List.cons_ne_nil t more), hrest, Reader.readFrom,
    hstep]

/-- A text with a refused word in it is not read. -/
theorem read_text_refused {d : Datum} (hspelled : d.Each IsSpelled)
    (hd : d.Each fun d => d.IsReadable ∨ d.IsRefused) (hbad : ¬ d.Each IsReadable) :
    ∃ e, read d.text = .error e := by
  obtain ⟨htokens, _⟩ := ofText_text hspelled
  have hne : (Reader.ofText d.text).rest ≠ [] := by
    intro hnil
    rw [hnil] at htokens
    exact lexemes_ne_nil hspelled.self htokens.symm
  obtain ⟨e, he⟩ := readFrom_refused hd hbad htokens (Reader.ofText d.text) [] []
  rw [List.append_nil] at he
  refine ⟨e, ?_⟩
  rw [read, next_eq_readFrom hne]
  exact he

end Datum

end Lisp
