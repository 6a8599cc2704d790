import Lisp.Proofs.Continuation
import Lisp.Proofs.Datum.Origin
import Lisp.Proofs.Heap.Building

/-!
Parse trees. A parse tree says how a run of tokens is derived from the grammar of data, and the
grammar gives each derivable tree its meaning. A reader that comes to the tokens of a tree takes up
what the tree means. No run of tokens has a second tree, not even together with what follows it.
-/
namespace Lisp

namespace Datum

/-- The value that the last of the entries gives a key, if any of them does. -/
def latest (key value : Datum) (later : List (Datum × Datum)) : Datum :=
  later.foldl (fun value entry => if same key entry.1 then entry.2 else value) value

/-- The entries under other keys. -/
def others (key : Datum) (entries : List (Datum × Datum)) : List (Datum × Datum) :=
  entries.filter fun entry => !same key entry.1

/-- One entry for each key, at the first place of the key and with its last value. -/
def keepLast : List (Datum × Datum) → List (Datum × Datum)
  | [] => []
  | (key, value) :: later => (key, latest key value later) :: keepLast (others key later)
termination_by entries => entries.length
decreasing_by
  rw [List.length_cons, Nat.lt_succ_iff]
  exact List.length_filter_le ..

theorem put_cons (entry : Datum × Datum) (entries : List (Datum × Datum)) (key value : Datum) :
    put (entry :: entries) key value =
      if same entry.1 key then (entry.1, value) :: entries else entry :: put entries key value := by
  unfold put
  rw [List.findIdx?_cons]
  by_cases hsame : same entry.1 key = true
  · simp [hsame]
  · rw [if_neg hsame, if_neg hsame]
    cases entries.findIdx? fun entry => same entry.1 key <;> simp

/-- The first entry takes up what is put under its key, the others the rest. -/
theorem assoc_cons (key value : Datum) (entries later : List (Datum × Datum)) :
    assoc ((key, value) :: entries) (alternate later) =
      (key, latest key value later) ::
        assoc entries (alternate (others key later)) := by
  induction later generalizing value entries with
  | nil => rfl
  | cons entry later ih =>
    obtain ⟨k, v⟩ := entry
    rw [alternate_cons, assoc, put_cons]
    by_cases hsame : same key k = true
    · have hothers : others key ((k, v) :: later) = others key later :=
        List.filter_cons_of_neg (by simp [hsame])
      rw [if_pos hsame, ih, hothers, latest, latest, List.foldl_cons, if_pos hsame]
    · have hothers : others key ((k, v) :: later) = (k, v) :: others key later :=
        List.filter_cons_of_pos (by simp [hsame])
      rw [if_neg hsame, ih, hothers, alternate_cons, assoc, latest, latest, List.foldl_cons,
        if_neg hsame]

theorem assoc_eq_keepLast (entries : List (Datum × Datum)) :
    assoc [] (alternate entries) = keepLast entries := by
  induction entries using keepLast.induct with
  | case1 => rw [keepLast]; rfl
  | case2 key value later ih =>
    rw [keepLast, alternate_cons, assoc, ← ih]
    exact assoc_cons key value [] later

end Datum

/-- A derivation of a form, with the tokens it is made of. -/
inductive ParseTree
  | atom (t : Token)
  | marked (t : Token) (form : ParseTree)
  | annotated (t : Token) (metadata form : ParseTree)
  | group (opener : Token) (items : List ParseTree) (closer : Token)

namespace ParseTree

/-- Induction over a tree: what holds of all items of a group carries over to the group. -/
@[induction_eliminator]
theorem induct {motive : ParseTree → Prop} (atom : ∀ t, motive (.atom t))
    (marked : ∀ t form, motive form → motive (.marked t form))
    (annotated : ∀ t metadata form, motive metadata → motive form →
      motive (.annotated t metadata form))
    (group : ∀ opener items closer, (∀ tree ∈ items, motive tree) →
      motive (.group opener items closer)) (tree : ParseTree) : motive tree := by
  refine @ParseTree.rec motive (fun items => ∀ tree ∈ items, motive tree) atom marked annotated
    (fun opener items closer => group opener items closer) ?_ ?_ tree
  · intro tree htree
    cases htree
  · intro tree items htree hitems other hother
    rcases List.mem_cons.mp hother with rfl | hother
    · exact htree
    · exact hitems other hother

mutual

/-- The tokens of a tree from left to right. -/
def tokens : ParseTree → List Token
  | .atom t => [t]
  | .marked t form => t :: tokens form
  | .annotated t metadata form => t :: (tokens metadata ++ tokens form)
  | .group opener items closer => opener :: (tokensOf items ++ [closer])

def tokensOf : List ParseTree → List Token
  | [] => []
  | tree :: rest => tokens tree ++ tokensOf rest

end

/-- The grammar, one rule for each kind of form, with what the form means. A string stands between
the first and the last byte of its token, which in a text are its quotes. -/
inductive Means : ParseTree → Datum → Prop
  | string {t : Token} {content : Text} {last : UInt8}
    (ht : t.lexeme = .atom (34 :: (content ++ [last]))) : Means (.atom t) (.string content)
  | word {t : Token} {first : UInt8} {rest : Text} {d : Datum} (hfirst : first ≠ 34)
    (ht : t.lexeme = .word first rest) (hd : Datum.ofWord (first :: rest) = .ok d) :
    Means (.atom t) d
  | marked {t : Token} {m : Mark} {form : ParseTree} {d : Datum} (ht : t.lexeme = .mark m)
    (hform : Means form d) : Means (.marked t form) (.call m.name [d])
  | annotated {t : Token} {metadata form : ParseTree} {d e : Datum} (ht : t.lexeme = .caret)
    (hmetadata : Means metadata d) (hform : Means form e) :
    Means (.annotated t metadata form) (.call (Text.of "with-meta") [e, d])
  | list {opener closer : Token} {items : List ParseTree} {ds : List Datum}
    (hopener : opener.lexeme = .opening .round) (hcloser : closer.lexeme = .closing .round)
    (hitems : List.Forall₂ Means items ds) : Means (.group opener items closer) (.group .round ds)
  | vector {opener closer : Token} {items : List ParseTree} {ds : List Datum}
    (hopener : opener.lexeme = .opening .square) (hcloser : closer.lexeme = .closing .square)
    (hitems : List.Forall₂ Means items ds) : Means (.group opener items closer) (.group .square ds)
  | map {opener closer : Token} {items : List ParseTree} {entries : List (Datum × Datum)}
    (hopener : opener.lexeme = .opening .curly) (hcloser : closer.lexeme = .closing .curly)
    (hitems : List.Forall₂ Means items (alternate entries)) :
    Means (.group opener items closer) (.group .curly (alternate (Datum.keepLast entries)))

/-- Whatever an atom is read as, it means. -/
theorem means_atom {t : Token} {text : Text} (ht : t.lexeme = .atom text) {d : Datum}
    (h : Datum.ofAtom text = .ok d) : Means (.atom t) d := by
  cases text with
  | nil => cases h
  | cons first rest =>
    by_cases hquote : first = 34
    · subst hquote
      rcases List.eq_nil_or_concat' rest with rfl | ⟨content, last, rfl⟩
      · cases h
      · rw [Datum.ofAtom_string] at h
        cases h
        exact .string ht
    · rw [Datum.ofAtom_word hquote] at h
      exact .word hquote ht h

/-- Items that all mean something make a group that does, unless a map is left odd. -/
theorem means_group {opener closer : Token} {b : Bracket} (hopener : opener.lexeme = .opening b)
    (hcloser : closer.lexeme = .closing b) {items : List ParseTree} {ds : List Datum}
    (hitems : List.Forall₂ Means items ds) (heven : b = .curly → ds.length % 2 = 0) :
    ∃ d, Means (.group opener items closer) d := by
  cases b with
  | round => exact ⟨_, .list hopener hcloser hitems⟩
  | square => exact ⟨_, .vector hopener hcloser hitems⟩
  | curly =>
    rw [← alternate_pairs (heven rfl)] at hitems
    exact ⟨_, .map hopener hcloser hitems⟩

/-- How a group comes to mean something. -/
theorem Means.of_group {opener closer : Token} {items : List ParseTree} {d : Datum}
    (h : Means (.group opener items closer) d) :
    ∃ b ds, opener.lexeme = .opening b ∧ closer.lexeme = .closing b ∧
      List.Forall₂ Means items ds ∧ (b = .curly → ds.length % 2 = 0) ∧
      ∀ es : List Datum, es.map Datum.settled = ds → (Datum.group b es).settled = d := by
  cases h with
  | list hopener hcloser hitems =>
    refine ⟨.round, _, hopener, hcloser, hitems, by simp, ?_⟩
    rintro es rfl
    exact Datum.settled_sequence (by simp) es
  | vector hopener hcloser hitems =>
    refine ⟨.square, _, hopener, hcloser, hitems, by simp, ?_⟩
    rintro es rfl
    exact Datum.settled_sequence (by simp) es
  | map hopener hcloser hitems =>
    refine ⟨.curly, _, hopener, hcloser, hitems, fun _ => ?_, fun es hes => ?_⟩
    · rw [length_alternate]
      omega
    · rw [Datum.settled_map, hes, Datum.assoc_eq_keepLast]

/-- The first token fits the kind of form. -/
def IsHeaded : ParseTree → Prop
  | .atom t => ∃ text, t.lexeme = .atom text
  | .marked t _ => ∃ m, t.lexeme = .mark m
  | .annotated t _ _ => t.lexeme = .caret
  | .group opener _ _ => ∃ b, opener.lexeme = .opening b

theorem Means.isHeaded {tree : ParseTree} {d : Datum} (h : tree.Means d) : tree.IsHeaded := by
  cases h with
  | string ht => exact ⟨_, ht⟩
  | word _ ht => exact ⟨_, ht⟩
  | marked ht => exact ⟨_, ht⟩
  | annotated ht => exact ht
  | list hopener => exact ⟨_, hopener⟩
  | vector hopener => exact ⟨_, hopener⟩
  | map hopener => exact ⟨_, hopener⟩

/-- A form has a first token, and it closes nothing. -/
theorem IsHeaded.exists_cons {tree : ParseTree} (h : tree.IsHeaded) :
    ∃ t more, tree.tokens = t :: more ∧ ∀ b, t.lexeme ≠ .closing b := by
  cases tree with
  | atom t => exact ⟨t, _, rfl, by obtain ⟨_, ht⟩ := h; simp [ht]⟩
  | marked t form => exact ⟨t, _, rfl, by obtain ⟨_, ht⟩ := h; simp [ht]⟩
  | annotated t metadata form => exact ⟨t, _, rfl, by simp [show t.lexeme = .caret from h]⟩
  | group opener items closer => exact ⟨opener, _, rfl, by obtain ⟨_, ht⟩ := h; simp [ht]⟩

section Completeness

/-- The tokens, read on any stack, hand the datum to the innermost pending form. -/
def Hands (ts : List Token) (e : Datum) : Prop :=
  ∀ (r : Reader) (stack : List Pending) (rest : List Token),
    r.readFrom stack (ts ++ rest) = r.after rest (Advance.place e stack)

theorem Hands.marked {t : Token} {m : Mark} (ht : t.lexeme = .mark m) {ts : List Token} {e : Datum}
    (h : Hands ts e) : Hands (t :: ts) (.call m.name [e]) := by
  intro r stack rest
  have hstep : Advance.step stack t = .more (.mark m :: stack) := by rw [Advance.step, ht]
  rw [List.cons_append, Reader.readFrom, hstep]
  exact h r (.mark m :: stack) rest

theorem Hands.annotated {t : Token} (ht : t.lexeme = .caret) {ts us : List Token} {d e : Datum}
    (hd : Hands ts d) (he : Hands us e) :
    Hands (t :: (ts ++ us)) (.call (Text.of "with-meta") [e, d]) := by
  intro r stack rest
  have hstep : Advance.step stack t = .more (.metadata :: stack) := by rw [Advance.step, ht]
  rw [List.cons_append, Reader.readFrom, hstep, List.append_assoc]
  exact (hd r (.metadata :: stack) (us ++ rest)).trans (he r (.annotated d :: stack) rest)

/-- The tokens, read inside a group, hand it the items. -/
def HandsAll (ts : List Token) (es : List Datum) : Prop :=
  ∀ (r : Reader) (b : Bracket) (start : Position) (recent : List Datum) (outer : List Pending)
    (rest : List Token), r.readFrom (.group b start recent :: outer) (ts ++ rest) =
      r.readFrom (.group b start (es.reverse ++ recent) :: outer) rest

theorem handsAll_nil : HandsAll [] [] := fun _ _ _ _ _ _ => rfl

theorem Hands.cons {ts us : List Token} {e : Datum} {es : List Datum} (he : Hands ts e)
    (hes : HandsAll us es) : HandsAll (ts ++ us) (e :: es) := by
  intro r b start recent outer rest
  rw [List.append_assoc, he, Advance.place, Reader.after, hes, List.reverse_cons,
    List.append_assoc, List.singleton_append]

theorem HandsAll.group {opener closer : Token} {b : Bracket} (hopener : opener.lexeme = .opening b)
    (hcloser : closer.lexeme = .closing b) {ts : List Token} {es : List Datum}
    (hes : HandsAll ts es) (heven : b = .curly → es.length % 2 = 0) :
    Hands (opener :: (ts ++ [closer])) (.group b es) := by
  intro r stack rest
  have hopen : Advance.step stack opener = .more (.group b opener.position [] :: stack) := by
    rw [Advance.step, hopener]
  have hclose : Advance.step (.group b opener.position (es.reverse ++ []) :: stack) closer =
      Advance.place (.group b es) stack := by
    rw [List.append_nil, Advance.step_closing hcloser (by rwa [List.length_reverse]),
      List.reverse_reverse]
  rw [List.cons_append, Reader.readFrom, hopen, List.append_assoc]
  exact (hes r b opener.position [] stack _).trans (Reader.readFrom_of_step hclose rest)

theorem isNumber_ofName {first : UInt8} {rest : Text} {d : Datum}
    (h : Datum.ofName (first :: rest) = .ok d) : d.IsLeaf ∧ d.IsNumber := by
  rw [Datum.ofName_cons, Except.ok.injEq] at h
  subst h
  repeat' split
  all_goals exact ⟨by simp [Datum.IsLeaf], trivial⟩

theorem isNumber_ofWord {first : UInt8} {rest : Text} {d : Datum}
    (h : Datum.ofWord (first :: rest) = .ok d) : d.IsLeaf ∧ d.IsNumber := by
  rw [Datum.ofWord_cons] at h
  split at h
  · split at h
    · cases h
      exact ⟨by simp [Datum.IsLeaf], trivial⟩
    · cases h
    · split at h
      · rename_i x hscan
        cases h
        have hle : Number.magnitude x ≤ Number.infinityCode :=
          le_of_lt (Datum.magnitude_of_scanDouble hscan)
        exact ⟨by simp [Datum.IsLeaf], by simp [Datum.IsNumber, Number.same, hle]⟩
      · cases h
      · exact isNumber_ofName h
  · exact isNumber_ofName h

/-- A datum to hand over that settles to the meaning of the tree. -/
def HasReading (tree : ParseTree) (d : Datum) : Prop :=
  ∃ e : Datum, e.settled = d ∧ e.Each Datum.IsNumber ∧ Hands tree.tokens e

theorem hasReading_word {t : Token} {first : UInt8} {rest : Text} {d : Datum} (hfirst : first ≠ 34)
    (ht : t.lexeme = .word first rest) (hd : Datum.ofWord (first :: rest) = .ok d) :
    HasReading (.atom t) d := by
  obtain ⟨hleaf, hnumber⟩ := isNumber_ofWord hd
  have hself : d.settled = d ∧ d.Each Datum.IsNumber := by
    cases d with
    | group b items => exact absurd rfl (hleaf b items)
    | _ => exact ⟨rfl, hnumber⟩
  refine ⟨d, hself.1, hself.2, fun r stack more => ?_⟩
  have hstep : Advance.step stack t = Advance.place d stack := by
    rw [Advance.step, ht]
    simp only [Datum.ofAtom_word hfirst, hd]
  exact Reader.readFrom_of_step hstep more

theorem isNumber_call {head : Text} {forms : List Datum}
    (h : ∀ d ∈ forms, d.Each Datum.IsNumber) : (Datum.call head forms).Each Datum.IsNumber :=
  Datum.each_group.mpr ⟨trivial, List.forall_mem_cons.mpr ⟨trivial, h⟩⟩

theorem settled_call (head : Text) (forms : List Datum) :
    (Datum.call head forms).settled = .call head (forms.map Datum.settled) :=
  Datum.settled_sequence (by simp) _

theorem exists_handsAll {items : List ParseTree} {ds : List Datum}
    (h : List.Forall₂ HasReading items ds) :
    ∃ es : List Datum, es.map Datum.settled = ds ∧ (∀ e ∈ es, e.Each Datum.IsNumber) ∧
      HandsAll (tokensOf items) es := by
  induction h with
  | nil => exact ⟨[], rfl, by simp, handsAll_nil⟩
  | cons htree _ ih =>
    obtain ⟨e, rfl, hnumber, hhands⟩ := htree
    obtain ⟨es, rfl, hnumbers, hall⟩ := ih
    exact ⟨e :: es, rfl, List.forall_mem_cons.mpr ⟨hnumber, hnumbers⟩, hhands.cons hall⟩

/-- The reader reads every form of the grammar, on any stack and before any tokens. -/
theorem Means.hasReading {tree : ParseTree} {d : Datum} (h : tree.Means d) : tree.HasReading d := by
  induction tree generalizing d with
  | atom t =>
    cases h with
    | string ht =>
      refine ⟨.string _, rfl, trivial, fun r stack rest => Reader.readFrom_of_step ?_ rest⟩
      rw [Advance.step, ht]
      simp only [Datum.ofAtom_string]
    | word hfirst ht hd => exact hasReading_word hfirst ht hd
  | marked t form ih =>
    cases h with
    | marked ht hform =>
      obtain ⟨e, rfl, hnumber, hhands⟩ := ih hform
      exact ⟨_, settled_call _ _, isNumber_call (by simpa using hnumber), hhands.marked ht⟩
  | annotated t metadata form ihm ihf =>
    cases h with
    | annotated ht hmetadata hform =>
      obtain ⟨d, rfl, hd, hmeta⟩ := ihm hmetadata
      obtain ⟨e, rfl, he, hhands⟩ := ihf hform
      exact ⟨_, settled_call _ _, isNumber_call (by simp [hd, he]), .annotated ht hmeta hhands⟩
  | group opener items closer ih =>
    obtain ⟨b, ds, hopener, hcloser, hitems, heven, hsettled⟩ := h.of_group
    have hreadings : List.Forall₂ HasReading items ds :=
      List.forall₂_iff_get.mpr ⟨hitems.length_eq, fun i hi hi' =>
        ih _ (List.get_mem items ⟨i, hi⟩) (hitems.get hi hi')⟩
    obtain ⟨es, rfl, hnumbers, hall⟩ := exists_handsAll hreadings
    rw [List.length_map] at heven
    exact ⟨_, hsettled es rfl, Datum.each_group.mpr ⟨trivial, hnumbers⟩,
      hall.group hopener hcloser heven⟩

end Completeness

section Soundness

/-- The tokens begin with a form of the grammar. -/
def Begins (ts : List Token) : Prop :=
  ∃ (tree : ParseTree) (d : Datum) (rest : List Token), tree.Means d ∧ ts = tree.tokens ++ rest

/-- The tokens begin with the items of a group and the bracket that closes it. -/
def Closes (b : Bracket) (known : Nat) (ts : List Token) : Prop :=
  ∃ (items : List ParseTree) (ds : List Datum) (closer : Token) (rest : List Token),
    List.Forall₂ Means items ds ∧ (b = .curly → (ds.length + known) % 2 = 0) ∧
      closer.lexeme = .closing b ∧ ts = tokensOf items ++ closer :: rest

/-- Reading ends in an error. -/
def Fails (r : Reader) (stack : List Pending) (ts : List Token) : Prop :=
  ∃ e, (r.readFrom stack ts).1 = .error e

/-- A closing bracket where a form is wanted. -/
def IsClosed (ts : List Token) : Prop := ∃ t rest b, ts = t :: rest ∧ t.lexeme = .closing b

theorem IsClosed.fails {ts : List Token} (h : IsClosed ts) {stack : List Pending}
    (hstack : ∀ b start recent outer, stack ≠ .group b start recent :: outer) (r : Reader) :
    Fails r stack ts := by
  obtain ⟨t, rest, b, rfl, ht⟩ := h
  have hstep : Advance.step stack t = .error ⟨t.position, .unexpectedCloser b⟩ false := by
    rw [Advance.step, ht]
    cases stack with
    | nil => rfl
    | cons p outer =>
      cases p with
      | group b start recent => exact absurd rfl (hstack b start recent outer)
      | _ => rfl
  exact ⟨_, by rw [Reader.readFrom, hstep]⟩

theorem IsClosed.closes_or_fails {ts : List Token} (h : IsClosed ts) (r : Reader) (b : Bracket)
    (start : Position) (recent : List Datum) (outer : List Pending) :
    Closes b recent.length ts ∨ Fails r (.group b start recent :: outer) ts := by
  obtain ⟨t, rest, c, rfl, ht⟩ := h
  have hstep : Advance.step (.group b start recent :: outer) t =
      Advance.close c t.position (.group b start recent :: outer) := by rw [Advance.step, ht]
  by_cases hbracket : c = b
  · subst hbracket
    by_cases hodd : c = .curly ∧ recent.length % 2 ≠ 0
    · right
      refine ⟨⟨start, .oddMap⟩, ?_⟩
      rw [Reader.readFrom, hstep]
      simp [Advance.close, hodd]
    · left
      refine ⟨[], [], t, rest, .nil, fun hcurly => ?_, ht, rfl⟩
      rw [List.length_nil, Nat.zero_add]
      exact Decidable.not_not.mp fun hne => hodd ⟨hcurly, hne⟩
  · right
    refine ⟨⟨t.position, .wrongCloser c b⟩, ?_⟩
    rw [Reader.readFrom, hstep]
    simp [Advance.close, hbracket]

/-- One item more in front. -/
theorem Means.closes {tree : ParseTree} {d : Datum} (h : tree.Means d) {b : Bracket}
    {known : Nat} {ts : List Token} (hts : Closes b (known + 1) ts) :
    Closes b known (tree.tokens ++ ts) := by
  obtain ⟨items, ds, closer, rest, hitems, heven, hcloser, rfl⟩ := hts
  refine ⟨tree :: items, d :: ds, closer, rest, .cons h hitems, fun hcurly => ?_, hcloser, ?_⟩
  · have hsum := heven hcurly
    rw [List.length_cons]
    omega
  · rw [tokensOf, List.append_assoc]

/-- Whatever is not an error is a form of the grammar. The induction is on the number of tokens and
takes a form and the rest of a group together: each is read in terms of shorter runs of tokens. -/
theorem begins_or_fails (r : Reader) (ts : List Token) :
    (∀ stack, Begins ts ∨ Fails r stack ts ∨ IsClosed ts) ∧
    ∀ b start recent outer, Closes b recent.length ts ∨
      Fails r (.group b start recent :: outer) ts := by
  induction hn : ts.length using Nat.strong_induction_on generalizing ts with
  | _ n ih =>
    subst hn
    have hform : ∀ stack, Begins ts ∨ Fails r stack ts ∨ IsClosed ts := by
      intro stack
      cases ts with
      | nil => exact Or.inr (Or.inl ⟨_, rfl⟩)
      | cons t rest =>
        obtain ⟨hrest, hgroup⟩ := ih rest.length (by simp) rest rfl
        cases ht : t.lexeme with
        | closing b => exact Or.inr (Or.inr ⟨t, rest, b, rfl, ht⟩)
        | atom text =>
          cases hatom : Datum.ofAtom text with
          | ok d => exact Or.inl ⟨.atom t, d, rest, means_atom ht hatom, rfl⟩
          | error cause =>
            have hstep : Advance.step stack t = .error ⟨t.position, cause⟩ true := by
              rw [Advance.step, ht]
              simp only [hatom]
            exact Or.inr (Or.inl ⟨_, by rw [Reader.readFrom, hstep]⟩)
        | mark m =>
          have hstep : Advance.step stack t = .more (.mark m :: stack) := by
            rw [Advance.step, ht]
          have hread : r.readFrom stack (t :: rest) = r.readFrom (.mark m :: stack) rest := by
            rw [Reader.readFrom, hstep]
          rw [Fails, hread]
          rcases hrest (.mark m :: stack) with ⟨tree, d, left, htree, rfl⟩ | hfails | hclosed
          · exact Or.inl ⟨.marked t tree, _, left, .marked ht htree, rfl⟩
          · exact Or.inr (Or.inl hfails)
          · exact Or.inr (Or.inl (hclosed.fails (by simp) r))
        | caret =>
          have hstep : Advance.step stack t = .more (.metadata :: stack) := by
            rw [Advance.step, ht]
          have hread : r.readFrom stack (t :: rest) = r.readFrom (.metadata :: stack) rest := by
            rw [Reader.readFrom, hstep]
          rw [Fails, hread]
          rcases hrest (.metadata :: stack) with ⟨metadata, d, left, hmeta, rfl⟩ | hfails | hclosed
          · obtain ⟨e, -, -, hhands⟩ := hmeta.hasReading
            obtain ⟨hleft, -⟩ := ih left.length (by simp) left rfl
            rw [hhands, Advance.place, Reader.after]
            rcases hleft (.annotated e :: stack) with ⟨tree, f, last, htree, rfl⟩ | hfails | hclosed
            · exact Or.inl ⟨.annotated t metadata tree, _, last, .annotated ht hmeta htree,
                by simp [tokens]⟩
            · exact Or.inr (Or.inl hfails)
            · exact Or.inr (Or.inl (hclosed.fails (by simp) r))
          · exact Or.inr (Or.inl hfails)
          · exact Or.inr (Or.inl (hclosed.fails (by simp) r))
        | opening b =>
          have hstep : Advance.step stack t = .more (.group b t.position [] :: stack) := by
            rw [Advance.step, ht]
          rcases hgroup b t.position [] stack with
            ⟨items, ds, closer, last, hitems, heven, hcloser, rfl⟩ | hfails
          · obtain ⟨d, hd⟩ := means_group ht hcloser hitems heven
            exact Or.inl ⟨.group t items closer, d, last, hd, by simp [tokens]⟩
          · exact Or.inr (Or.inl (by rwa [Fails, Reader.readFrom, hstep]))
    refine ⟨hform, fun b start recent outer => ?_⟩
    rcases hform (.group b start recent :: outer) with
      ⟨tree, d, rest, htree, rfl⟩ | hfails | hclosed
    · obtain ⟨e, -, -, hhands⟩ := htree.hasReading
      obtain ⟨t, more, htokens, -⟩ := htree.isHeaded.exists_cons
      have hshorter : rest.length < (tree.tokens ++ rest).length := by simp [htokens]
      obtain ⟨-, hrest⟩ := ih rest.length hshorter rest rfl
      rw [Fails, hhands, Advance.place, Reader.after]
      rcases hrest b start (e :: recent) outer with hcloses | hfails
      · exact Or.inl (htree.closes hcloses)
      · exact Or.inr hfails
    · exact Or.inr hfails
    · exact hclosed.closes_or_fails r b start recent outer

end Soundness

section Uniqueness

/-- Two groups with the same tokens have the same items: no item starts with a closing bracket. -/
theorem tokensOf_append_inj {items items' : List ParseTree} {ds ds' : List Datum}
    (ih : ∀ tree ∈ items, ∀ (tree' : ParseTree) (d d' : Datum) (s s' : List Token), tree.Means d →
      tree'.Means d' → tree.tokens ++ s = tree'.tokens ++ s' → tree = tree' ∧ s = s')
    (h : List.Forall₂ Means items ds) (h' : List.Forall₂ Means items' ds')
    {closer closer' : Token} {b b' : Bracket} (hcloser : closer.lexeme = .closing b)
    (hcloser' : closer'.lexeme = .closing b')
    {s s' : List Token} (heq : tokensOf items ++ closer :: s = tokensOf items' ++ closer' :: s') :
    items = items' ∧ closer = closer' ∧ s = s' := by
  induction h generalizing items' ds' with
  | nil =>
    cases h' with
    | nil => simpa [tokensOf] using heq
    | cons htree' _ =>
      obtain ⟨t, more, htokens, hnot⟩ := htree'.isHeaded.exists_cons
      rw [tokensOf, tokensOf, htokens] at heq
      cases (List.cons.inj heq).1
      exact absurd hcloser (hnot b)
  | cons htree _ ihs =>
    cases h' with
    | nil =>
      obtain ⟨t, more, htokens, hnot⟩ := htree.isHeaded.exists_cons
      rw [tokensOf, tokensOf, htokens] at heq
      cases (List.cons.inj heq).1
      exact absurd hcloser' (hnot b')
    | cons htree' hitems' =>
      rw [tokensOf, tokensOf, List.append_assoc, List.append_assoc] at heq
      obtain ⟨rfl, hrest⟩ := ih _ List.mem_cons_self _ _ _ _ _ htree htree' heq
      obtain ⟨rfl, rfl, rfl⟩ := ihs (fun tree htree => ih tree (List.mem_cons_of_mem _ htree))
        hitems' hrest
      exact ⟨rfl, rfl, rfl⟩

/-- No two forms begin the same tokens. -/
theorem Means.tokens_append_inj {tree tree' : ParseTree} {d d' : Datum} {s s' : List Token}
    (h : tree.Means d) (h' : tree'.Means d') (heq : tree.tokens ++ s = tree'.tokens ++ s') :
    tree = tree' ∧ s = s' := by
  have hhead := h.isHeaded
  have hhead' := h'.isHeaded
  -- The first token decides the kind of form, so only trees of one kind are left to compare.
  induction tree generalizing tree' d d' s s' with
  | atom t =>
    cases tree' with
    | atom t' => simpa [tokens] using heq
    | _ => grind [tokens, IsHeaded]
  | marked t form ih =>
    cases tree' with
    | marked t' form' =>
      obtain ⟨rfl, hforms⟩ := List.cons.inj heq
      cases h with
      | marked _ hform =>
        cases h' with
        | marked _ hform' =>
          obtain ⟨rfl, rfl⟩ := ih hform hform' hforms hform.isHeaded hform'.isHeaded
          exact ⟨rfl, rfl⟩
    | _ => grind [tokens, IsHeaded]
  | annotated t metadata form ihm ihf =>
    cases tree' with
    | annotated t' metadata' form' =>
      obtain ⟨rfl, hforms⟩ := List.cons.inj heq
      rw [List.append_eq, List.append_eq, List.append_assoc, List.append_assoc] at hforms
      cases h with
      | annotated _ hmetadata hform =>
        cases h' with
        | annotated _ hmetadata' hform' =>
          obtain ⟨rfl, hrest⟩ :=
            ihm hmetadata hmetadata' hforms hmetadata.isHeaded hmetadata'.isHeaded
          obtain ⟨rfl, rfl⟩ := ihf hform hform' hrest hform.isHeaded hform'.isHeaded
          exact ⟨rfl, rfl⟩
    | _ => grind [tokens, IsHeaded]
  | group opener items closer ih =>
    cases tree' with
    | group opener' items' closer' =>
      obtain ⟨rfl, hitems⟩ := List.cons.inj heq
      rw [List.append_eq, List.append_eq, List.append_assoc, List.append_assoc] at hitems
      obtain ⟨b, ds, _, hcloser, hmeans, _⟩ := h.of_group
      obtain ⟨b', ds', _, hcloser', hmeans', _⟩ := h'.of_group
      have heach : ∀ tree ∈ items, ∀ (tree' : ParseTree) (d d' : Datum) (s s' : List Token),
          tree.Means d → tree'.Means d' → tree.tokens ++ s = tree'.tokens ++ s' →
          tree = tree' ∧ s = s' := fun tree htree tree' d d' s s' hd hd' heq =>
        ih tree htree hd hd' heq hd.isHeaded hd'.isHeaded
      obtain ⟨rfl, rfl, rfl⟩ := tokensOf_append_inj heach hmeans hmeans' hcloser hcloser' hitems
      exact ⟨rfl, rfl⟩
    | _ => grind [tokens, IsHeaded]

end Uniqueness

end ParseTree

end Lisp
