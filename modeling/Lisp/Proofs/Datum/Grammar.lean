import Lisp.Proofs.Datum.ParseTree

/-!
The grammar of data. The reader accepts exactly the runs of tokens that have a parse tree: what it
reads, once built, is the meaning of the tree over the tokens it used up.
-/
namespace Lisp

namespace Reader

/-- What the reader reads is the form that the tokens begin with. -/
theorem exists_tree {r : Reader} {ts rest : List Token} {e : Datum}
    (h : r.readFrom [] ts = (.ok e, rest)) :
    ∃ tree : ParseTree, tree.Means e.settled ∧ e.Each Datum.IsNumber ∧
      ts = tree.tokens ++ rest := by
  rcases (ParseTree.begins_or_fails r ts).1 [] with
    ⟨tree, d, left, htree, rfl⟩ | ⟨error, hfails⟩ | hclosed
  · obtain ⟨e', rfl, hnumber, hhands⟩ := htree.hasReading
    rw [hhands, Advance.place, after] at h
    cases h
    exact ⟨tree, htree, hnumber, rfl⟩
  · rw [h] at hfails
    cases hfails
  · have hstack : ∀ b start recent outer, ([] : List Pending) ≠ .group b start recent :: outer :=
      by simp
    obtain ⟨error, hfails⟩ := hclosed.fails hstack r
    rw [h] at hfails
    cases hfails

theorem length_lt_of_readFrom {r : Reader} {ts rest : List Token} {e : Datum}
    (h : r.readFrom [] ts = (.ok e, rest)) : rest.length < ts.length := by
  obtain ⟨tree, htree, _, rfl⟩ := exists_tree h
  obtain ⟨t, more, htokens, _⟩ := htree.isHeaded.exists_cons
  simp [htokens]

/-- Taking one form after the other, until there is none or one is an error. -/
inductive Drains : Reader → List (Except ParseError Datum) → Reader → Prop
  | stop {r r' : Reader} (h : r.next = (none, r')) : Drains r [] r'
  | fail {r r' : Reader} {e : ParseError} (h : r.next = (some (.error e), r')) :
    Drains r [.error e] r'
  | item {r r' last : Reader} {d : Datum} {items : List (Except ParseError Datum)}
    (h : r.next = (some (.ok d), r')) (hrest : Drains r' items last) :
    Drains r (.ok d :: items) last

end Reader

namespace Advance

theorem ne_nil_of_place {d : Datum} {stack stack' : List Pending}
    (h : place d stack = .more stack') : stack' ≠ [] := by
  induction stack generalizing d with
  | nil => cases h
  | cons p outer ih =>
    cases p with
    | mark m => exact ih h
    | metadata => cases h; exact List.cons_ne_nil _ _
    | annotated metadata => exact ih h
    | group b start recent => cases h; exact List.cons_ne_nil _ _

/-- A step that asks for more leaves something pending. -/
theorem ne_nil_of_step {stack stack' : List Pending} {t : Token}
    (h : step stack t = .more stack') : stack' ≠ [] := by
  unfold step at h
  split at h
  · cases h
    exact List.cons_ne_nil _ _
  · unfold close at h
    split at h
    · split at h
      · cases h
      · split at h
        · cases h
        · exact ne_nil_of_place h
    · cases h
  · cases h
    exact List.cons_ne_nil _ _
  · cases h
    exact List.cons_ne_nil _ _
  · split at h
    · exact ne_nil_of_place h
    · cases h

end Advance

namespace Reader

/-- An error ends the forms. -/
theorem formsFrom_of_error {r : Reader} {stack : List Pending} {ts rest : List Token}
    {e : ParseError} (hne : stack ≠ [] ∨ ts ≠ []) (h : r.readFrom stack ts = (.error e, rest)) :
    r.formsFrom stack ts = ([], some e, rest) := by
  induction ts generalizing stack with
  | nil =>
    cases h
    cases stack with
    | nil => simp at hne
    | cons p outer => rfl
  | cons t more ih =>
    rw [readFrom] at h
    rw [formsFrom_cons]
    cases hstep : Advance.step stack t with
    | more stack' =>
      simp only [hstep] at h ⊢
      exact ih (Or.inl (Advance.ne_nil_of_step hstep)) h
    | form d =>
      simp only [hstep] at h
      cases h
    | error e' used =>
      simp only [hstep] at h ⊢
      cases h
      rfl

/-- The place of the reader is of no account. -/
theorem formsFrom_with_rest (r : Reader) (rest : List Token) (stack : List Pending)
    (ts : List Token) : ({ r with rest } : Reader).formsFrom stack ts = r.formsFrom stack ts := by
  induction ts generalizing stack with
  | nil => cases stack <;> rfl
  | cons t more ih =>
    rw [formsFrom_cons, formsFrom_cons]
    cases Advance.step stack t with
    | more stack' => exact ih stack'
    | form d => simp only [ih]
    | error e used => rfl

theorem forms_eq (r : Reader) : r.forms = ((r.formsFrom [] r.rest).1, (r.formsFrom [] r.rest).2.1,
    { r with rest := (r.formsFrom [] r.rest).2.2 }) :=
  rfl

/-- The loop over the forms comes to its end, and what it met are all forms and the error. -/
theorem drains_forms (r : Reader) :
    r.Drains (r.forms.1.map .ok ++ (r.forms.2.1.map .error).toList) r.forms.2.2 ∧
      r.forms.1.length ≤ r.rest.length := by
  induction hn : r.rest.length using Nat.strong_induction_on generalizing r with
  | _ n ih =>
    subst hn
    by_cases hnone : r.rest = []
    · have hnext : r.next = (r.trouble.map .error, r) := by rw [next, hnone]
      have hforms : r.forms = ([], r.trouble, r) := by
        rw [forms, hnone, formsFrom, ← hnone]
      rw [hforms]
      refine ⟨?_, Nat.zero_le _⟩
      cases htrouble : r.trouble with
      | none =>
        rw [htrouble] at hnext
        exact .stop hnext
      | some e =>
        rw [htrouble] at hnext
        exact .fail hnext
    · have hnext := Datum.next_eq_readFrom hnone
      cases hread : r.readFrom [] r.rest with
      | mk result rest =>
        rw [hread] at hnext
        cases result with
        | error e =>
          have hforms : r.forms = ([], some e, { r with rest }) := by
            rw [forms, formsFrom_of_error (Or.inr hnone) hread]
          rw [hforms]
          exact ⟨.fail hnext, Nat.zero_le _⟩
        | ok d =>
          have hless := length_lt_of_readFrom hread
          obtain ⟨hdrains, hlength⟩ := ih rest.length hless { r with rest } rfl
          have hforms : r.forms = (d :: ({ r with rest } : Reader).forms.1,
              ({ r with rest } : Reader).forms.2) := by
            have hrest := formsFrom_with_rest r rest [] rest
            simp only [forms_eq, formsFrom_of_readFrom hread, hrest]
          rw [hforms]
          refine ⟨.item hnext hdrains, ?_⟩
          rw [List.length_cons]
          omega

/-- The reader accepts exactly the grammar. It reads a form with a meaning and leaves a rest exactly
when the tokens before the rest are derived with that meaning; the derivation and the rest are the
only ones; a form takes up at least one token, so the loop over the forms comes to its end. -/
theorem readFrom_iff_derivable (r : Reader) :
    (∀ (d : Datum) (rest : List Token),
      (∃ e, r.readFrom [] r.rest = (.ok e, rest) ∧
          ∀ h : Heap, (h.build e).2.Unfolds (h.build e).1 d) ↔
        ∃ tree : ParseTree, tree.Means d ∧ r.rest = tree.tokens ++ rest) ∧
    (∀ (tree tree' : ParseTree) (d d' : Datum) (rest rest' : List Token), tree.Means d →
      tree'.Means d' → r.rest = tree.tokens ++ rest → r.rest = tree'.tokens ++ rest' →
      tree = tree' ∧ d = d' ∧ rest = rest') ∧
    (∀ (e : Datum) (rest : List Token), r.readFrom [] r.rest = (.ok e, rest) →
      rest.length < r.rest.length) ∧
    r.Drains (r.forms.1.map .ok ++ (r.forms.2.1.map .error).toList) r.forms.2.2 ∧
      r.forms.1.length ≤ r.rest.length := by
  have hbuilds : ∀ (tree : ParseTree) (d : Datum) (rest : List Token), tree.Means d →
      r.rest = tree.tokens ++ rest → ∃ e, r.readFrom [] r.rest = (.ok e, rest) ∧
        e.settled = d ∧ ∀ h : Heap, (h.build e).2.Unfolds (h.build e).1 d := by
    intro tree d rest htree hrest
    obtain ⟨e, rfl, hnumber, hhands⟩ := htree.hasReading
    exact ⟨e, by rw [hrest]; exact hhands r [] rest, rfl, fun h => (h.build_spec hnumber).2⟩
  refine ⟨fun d rest => ⟨?_, ?_⟩, ?_, fun e rest h => length_lt_of_readFrom h, drains_forms r⟩
  · rintro ⟨e, hread, hunfolds⟩
    obtain ⟨tree, htree, hnumber, hrest⟩ := exists_tree hread
    have hd : d = e.settled := (hunfolds {}).unique (Heap.build_spec hnumber {}).2
    exact ⟨tree, hd ▸ htree, hrest⟩
  · rintro ⟨tree, htree, hrest⟩
    obtain ⟨e, hread, -, hunfolds⟩ := hbuilds tree d rest htree hrest
    exact ⟨e, hread, hunfolds⟩
  · intro tree tree' d d' rest rest' htree htree' hrest hrest'
    obtain ⟨rfl, rfl⟩ := htree.tokens_append_inj htree' (hrest.symm.trans hrest')
    obtain ⟨e, hread, rfl, -⟩ := hbuilds tree d rest htree hrest
    obtain ⟨e', hread', rfl, -⟩ := hbuilds tree d' rest htree' hrest
    rw [hread] at hread'
    cases hread'
    exact ⟨rfl, rfl, rfl⟩

/-- A map with one key twice, a marked value and a form behind it: the later value wins, the form
behind is left, and the tree found by hand is the only one. -/
theorem readFrom_iff_derivable_map :
    ∃ tree : ParseTree,
      tree.Means (.group .curly [.symbol (Text.of "a"), .call Mark.quote.name [.int 2]]) ∧
      (ofText (Text.of "\x7ba 1 a '2\x7d b")).rest = tree.tokens ++ [⟨.word 98 [], ⟨1, 12⟩⟩] ∧
      (∃ e, (ofText (Text.of "\x7ba 1 a '2\x7d b")).readFrom []
          (ofText (Text.of "\x7ba 1 a '2\x7d b")).rest = (.ok e, [⟨.word 98 [], ⟨1, 12⟩⟩]) ∧
        ∀ h : Heap, (h.build e).2.Unfolds (h.build e).1
          (.group .curly [.symbol (Text.of "a"), .call Mark.quote.name [.int 2]])) ∧
      ∀ (tree' : ParseTree) (d' : Datum) (rest' : List Token), tree'.Means d' →
        (ofText (Text.of "\x7ba 1 a '2\x7d b")).rest = tree'.tokens ++ rest' → tree = tree' := by
  let tree : ParseTree := .group ⟨.opening .curly, ⟨1, 1⟩⟩
    [.atom ⟨.word 97 [], ⟨1, 2⟩⟩, .atom ⟨.word 49 [], ⟨1, 4⟩⟩, .atom ⟨.word 97 [], ⟨1, 6⟩⟩,
      .marked ⟨.mark .quote, ⟨1, 8⟩⟩ (.atom ⟨.word 50 [], ⟨1, 9⟩⟩)] ⟨.closing .curly, ⟨1, 10⟩⟩
  have hentries : alternate (Datum.keepLast [(.symbol [97], .int 1),
      (.symbol [97], .call Mark.quote.name [.int 2])]) =
        [.symbol [97], .call Mark.quote.name [.int 2]] := by
    simp [Datum.keepLast, Datum.latest, Datum.others, Datum.same]
  have hmeans : tree.Means
      (.group .curly [.symbol [97], .call Mark.quote.name [.int 2]]) := by
    rw [← hentries]
    have hatom {t : Token} {text : Text} {d : Datum} (ht : t.lexeme = .atom text)
        (h : Datum.ofAtom text = .ok d) : (ParseTree.atom t).Means d := ParseTree.means_atom ht h
    exact .map rfl rfl (.cons (hatom rfl rfl) (.cons (hatom rfl rfl) (.cons (hatom rfl rfl)
      (.cons (.marked rfl (hatom rfl rfl)) .nil))))
  have hrest : (ofText (Text.of "\x7ba 1 a '2\x7d b")).rest =
      tree.tokens ++ [⟨.word 98 [], ⟨1, 12⟩⟩] := by decide +kernel
  obtain ⟨hiff, hunique, -⟩ := readFrom_iff_derivable (ofText (Text.of "\x7ba 1 a '2\x7d b"))
  refine ⟨tree, hmeans, hrest, (hiff _ _).mpr ⟨tree, hmeans, hrest⟩, ?_⟩
  intro tree' d' rest' hmeans' hrest'
  exact (hunique tree tree' _ d' _ rest' hmeans hmeans' hrest hrest').1

end Reader

end Lisp
