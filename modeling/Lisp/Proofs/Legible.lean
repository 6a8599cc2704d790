import Lisp.Proofs.Heap.Building
import Lisp.Proofs.Heap.Rendering
import Lisp.Proofs.Number.Digits

/-!
Values that survive being written and read. Nil, booleans, integers, strings of any bytes, keywords
and symbols whose names are words of their own kind, and the lists, vectors and maps of such values
unfold to data that are tidy, spelled and readable. Their readable text is therefore read as one
form, with nothing left behind it, and what is built of the form equals the value.
-/
namespace Lisp

/-- Names that are read as the symbol and not as a constant, a keyword or a number. -/
def IsSymbolName (name : Text) : Prop :=
  IsWord name ∧ name ≠ Text.of "nil" ∧ name ≠ Text.of "true" ∧ name ≠ Text.of "false" ∧
    name.head? ≠ some 58 ∧ Number.looksNumeric name = false

namespace Heap

/-- A finite value without doubles, in which every name can be read and no map has a key twice. Its
parts may be shared. -/
inductive Legible (h : Heap) : Value → Prop
  | nil {v : Value} (hv : h.content? v = some .nil) : Legible h v
  | bool {v : Value} {b : Bool} (hv : h.content? v = some (.bool b)) : Legible h v
  | int {v : Value} {n : Int64} (hv : h.content? v = some (.int n)) : Legible h v
  | string {v : Value} {s : Rope} (hv : h.content? v = some (.string s)) : Legible h v
  | keyword {v : Value} {name : Text} (hv : h.content? v = some (.keyword name))
      (hname : ∀ b ∈ name, Role.of b = .plain) : Legible h v
  | symbol {v : Value} {name : Text} (hv : h.content? v = some (.symbol name))
      (hname : IsSymbolName name) : Legible h v
  | list {v : Value} {cell : CellId} {items : Sequence Value}
      (hv : h.content? v = some (.list cell)) (hcell : h.cells[cell]? = some items)
      (hitems : ∀ u ∈ items.toList, Legible h u) : Legible h v
  | vector {v : Value} {cell : CellId} {items : Sequence Value}
      (hv : h.content? v = some (.vector cell)) (hcell : h.cells[cell]? = some items)
      (hitems : ∀ u ∈ items.toList, Legible h u) : Legible h v
  | map {v : Value} {entries : Entries} (hv : h.content? v = some (.map entries))
      (hkeys : ∀ entry ∈ entries.toList, Legible h entry.1)
      (hvalues : ∀ entry ∈ entries.toList, Legible h entry.2)
      (hdistinct : entries.toList.Pairwise fun entry later => h.equal entry.1 later.1 = false) :
      Legible h v

end Heap

namespace Datum

/-- What is kept through writing and reading. -/
structure IsLegible (d : Datum) : Prop where
  tidy : d.IsTidy
  spelled : d.IsSpelled
  readable : d.IsReadable

theorem isLegible_int (n : Int64) : (int n).IsLegible :=
  ⟨trivial, (int_isReadable n).1, (int_isReadable n).2⟩

theorem isLegible_bool (b : Bool) : (bool b).IsLegible := by
  cases b with
  | false =>
    exact ⟨trivial, show IsWord (Text.of "false") by decide, 102, Text.of "alse", rfl, rfl⟩
  | true => exact ⟨trivial, show IsWord (Text.of "true") by decide, 116, Text.of "rue", rfl, rfl⟩

theorem isLegible_keyword {name : Text} (h : ∀ b ∈ name, Role.of b = .plain) :
    (keyword name).IsLegible := by
  have hword : IsWord (58 :: name) := by
    refine ⟨List.cons_ne_nil 58 name, fun b hb => ?_⟩
    rcases List.mem_cons.mp hb with rfl | hb
    · decide
    · exact h b hb
  have hnumeric : Number.looksNumeric (58 :: name) = false := by
    simp [Number.looksNumeric, Number.takeSign, Text.isDigit]
  refine ⟨trivial, hword, 58, name, rfl, ?_⟩
  rw [ofAtom_of_isWord hword, ofWord_cons, hnumeric, ofName_cons]
  rfl

theorem isLegible_symbol {name : Text} (h : IsSymbolName name) : (symbol name).IsLegible := by
  obtain ⟨hword, hnil, htrue, hfalse, hcolon, hnumeric⟩ := h
  cases name with
  | nil => exact absurd rfl hword.1
  | cons first rest =>
    have hfirst : first ≠ 58 := by
      rintro rfl
      exact hcolon rfl
    refine ⟨trivial, hword, first, rest, rfl, ?_⟩
    rw [ofAtom_of_isWord hword, ofWord_cons, hnumeric, ofName_cons]
    simp [hfirst, hnil, htrue, hfalse]

end Datum

namespace Heap

theorem exists_unfoldings {h : Heap} {p : Datum → Prop} {vs : List Value}
    (hvs : ∀ v ∈ vs, ∃ d, h.Unfolds v d ∧ d.Each p) :
    ∃ items, List.Forall₂ h.Unfolds vs items ∧ ∀ d ∈ items, d.Each p := by
  induction vs with
  | nil => exact ⟨[], List.Forall₂.nil, by simp⟩
  | cons v vs ih =>
    obtain ⟨d, hv, hd⟩ := hvs v List.mem_cons_self
    obtain ⟨items, hitems, heach⟩ := ih fun u hu => hvs u (List.mem_cons_of_mem v hu)
    exact ⟨d :: items, List.Forall₂.cons hv hitems, List.forall_mem_cons.mpr ⟨hd, heach⟩⟩

/-- A collection unfolds when all that it holds does. -/
theorem exists_unfolding_group {h : Heap} {p : Datum → Prop} {v : Value} {b : Bracket}
    {vs : List Value} (hparts : h.parts? v = some (b, vs))
    (hvs : ∀ u ∈ vs, ∃ d, h.Unfolds u d ∧ d.Each p)
    (hself : ∀ items, List.Forall₂ h.Unfolds vs items → (∀ d ∈ items, d.Each p) →
      p (.group b items)) :
    ∃ d, h.Unfolds v d ∧ d.Each p := by
  obtain ⟨items, hitems, heach⟩ := exists_unfoldings hvs
  refine ⟨.group b items, unfolds_group.mpr ⟨vs, hparts, hitems⟩, ?_⟩
  exact Datum.each_group.mpr ⟨hself items hitems heach, heach⟩

/-- Keys that are not equal unfold to keys that are not the same. -/
theorem distinct_of_pairwise {h : Heap} {entries : List (Value × Value)}
    {pairs : List (Datum × Datum)} (hentries : List.Forall₂ (UnfoldsEntry h) entries pairs)
    (htidy : ∀ pair ∈ pairs, pair.1.Each Datum.IsTidy)
    (hdistinct : entries.Pairwise fun entry later => h.equal entry.1 later.1 = false) :
    Datum.Distinct pairs := by
  induction hentries with
  | nil => exact List.Pairwise.nil
  | cons hentry hrest ih =>
    obtain ⟨hfirst, hlater⟩ := List.pairwise_cons.mp hdistinct
    obtain ⟨htidyFirst, htidyRest⟩ := List.forall_mem_cons.mp htidy
    refine List.pairwise_cons.mpr ⟨?_, ih htidyRest hlater⟩
    intro pair hpair
    obtain ⟨entry, hmem, hunfolds⟩ := exists_of_mem_right hrest hpair
    rw [← equal_eq_same hentry.1 hunfolds.1 htidyFirst (htidyRest pair hpair)]
    exact hfirst entry hmem

/-- A legible value unfolds to a legible datum. -/
theorem Legible.unfolds {h : Heap} {v : Value} (hv : h.Legible v) :
    ∃ d, h.Unfolds v d ∧ d.Each Datum.IsLegible := by
  induction hv with
  | nil hv => exact ⟨.nil, hv, trivial, Datum.nil_isReadable.1, Datum.nil_isReadable.2⟩
  | bool hv => exact ⟨.bool _, hv, Datum.isLegible_bool _⟩
  | int hv => exact ⟨.int _, hv, Datum.isLegible_int _⟩
  | string hv => exact ⟨.string _, ⟨_, hv, rfl⟩, trivial, trivial, trivial⟩
  | keyword hv hname => exact ⟨.keyword _, hv, Datum.isLegible_keyword hname⟩
  | symbol hv hname => exact ⟨.symbol _, hv, Datum.isLegible_symbol hname⟩
  | @list v cell items hv hcell _ ih =>
    have hparts : h.parts? v = some (.round, items.toList) := by simp [parts?, hv, hcell]
    refine exists_unfolding_group hparts ih fun ds _ _ => ⟨trivial, trivial, ?_⟩
    simp [Datum.IsReadable]
  | @vector v cell items hv hcell _ ih =>
    have hparts : h.parts? v = some (.square, items.toList) := by simp [parts?, hv, hcell]
    refine exists_unfolding_group hparts ih fun ds _ _ => ⟨trivial, trivial, ?_⟩
    simp [Datum.IsReadable]
  | @map v entries hv _ _ hdistinct ihkeys ihvalues =>
    have hparts : h.parts? v = some (.curly, alternate entries.toList) := by simp [parts?, hv]
    refine exists_unfolding_group hparts ?_ ?_
    · intro u hu
      obtain ⟨entry, hentry, rfl | rfl⟩ := mem_alternate.mp hu
      · exact ihkeys entry hentry
      · exact ihvalues entry hentry
    · intro ds hitems heach
      have heven : ds.length % 2 = 0 := by
        rw [← hitems.length_eq, length_alternate]
        omega
      have hkeys : Datum.Distinct (pairs ds) := by
        refine distinct_of_pairwise (forall₂_pairs hitems) (fun pair hpair => ?_) hdistinct
        exact (heach pair.1 (mem_of_mem_pairs hpair).1).imp fun _ hd => hd.tidy
      exact ⟨⟨heven, hkeys⟩, trivial, fun _ => heven⟩

end Heap

/-- Writing a legible value and reading the text gives an equal value: the text is one form and
nothing is left behind it. -/
theorem Heap.Legible.reads_back {h : Heap} {v : Value} (hv : h.Legible v) :
    ∃ d r, Datum.read (h.render .readable v) = .ok d ∧
      (Reader.ofText (h.render .readable v)).next = (some (.ok d), r) ∧ r.next.1 = none ∧
      (h.build d).2.equal v (h.build d).1 = true ∧ (h.build d).2.equal (h.build d).1 v = true := by
  obtain ⟨d, hunfolds, hlegible⟩ := hv.unfolds
  have htidy : d.Each Datum.IsTidy := hlegible.imp fun _ hd => hd.tidy
  have hnumber : d.Each Datum.IsNumber := htidy.imp fun e he => by
    cases e with
    | float x => exact he
    | _ => trivial
  obtain ⟨r, hnext, hend⟩ := Datum.next_ofText_text (hlegible.imp fun _ hd => hd.spelled)
    (hlegible.imp fun _ hd => hd.readable)
  obtain ⟨hgrows, hbuilt⟩ := h.build_spec hnumber
  rw [Datum.settled_eq_self htidy] at hbuilt
  have hold := hgrows.unfolds hunfolds
  rw [render_eq_text hunfolds]
  refine ⟨d, r, ?_, hnext, hend, ?_, ?_⟩
  · rw [Datum.read, hnext]
  · rw [equal_eq_same hold hbuilt htidy htidy, Datum.same_self htidy]
  · rw [equal_eq_same hbuilt hold htidy htidy, Datum.same_self htidy]

/-- A map with the empty keyword, a string of awkward bytes and a list as keys. The list holds the
least integer and the symbol `-`; it is shared, and so is the vector that holds it twice. -/
def Heap.specimen : Heap where
  objects := #[⟨.int (-9223372036854775808), none⟩, ⟨.string (.ofList [34, 92, 10, 255]), none⟩,
    ⟨.keyword [], none⟩, ⟨.list 0, none⟩, ⟨.vector 1, none⟩,
    ⟨.map (.ofList [(.object 2, .object 4), (.object 1, .object 3), (.object 3, .object 4)]), none⟩]
  cells := #[.ofList [.object 0, .symbol [45]], .ofList [.object 3, .object 3, .nil, .bool true]]

theorem Heap.specimen_reads_back :
    specimen.Legible (.object 5) ∧
    ∃ d r, Datum.read (specimen.render .readable (.object 5)) = .ok d ∧
      (Reader.ofText (specimen.render .readable (.object 5))).next = (some (.ok d), r) ∧
      r.next.1 = none ∧ (specimen.build d).2.equal (.object 5) (specimen.build d).1 = true ∧
      (specimen.build d).2.equal (specimen.build d).1 (.object 5) = true := by
  have hint : specimen.Legible (.object 0) := .int rfl
  have hstring : specimen.Legible (.object 1) := .string rfl
  have hkeyword : specimen.Legible (.object 2) := .keyword rfl (by simp)
  have hsymbol : specimen.Legible (.symbol [45]) := by
    refine .symbol rfl ⟨by decide, ?_⟩
    decide
  have hlist : specimen.Legible (.object 3) := by
    refine .list rfl rfl ?_
    intro u hu
    rcases List.mem_cons.mp hu with rfl | hu
    · exact hint
    · rw [List.mem_singleton.mp hu]
      exact hsymbol
  have hvector : specimen.Legible (.object 4) := by
    refine .vector rfl rfl (List.forall_mem_cons.mpr ⟨hlist, List.forall_mem_cons.mpr ⟨hlist, ?_⟩⟩)
    exact List.forall_mem_cons.mpr ⟨.nil rfl, List.forall_mem_singleton.mpr (.bool rfl)⟩
  have hmap : specimen.Legible (.object 5) := by
    refine .map rfl ?_ ?_ (by decide +kernel)
    · exact List.forall_mem_cons.mpr ⟨hkeyword,
        List.forall_mem_cons.mpr ⟨hstring, List.forall_mem_singleton.mpr hlist⟩⟩
    · exact List.forall_mem_cons.mpr ⟨hvector,
        List.forall_mem_cons.mpr ⟨hlist, List.forall_mem_singleton.mpr hvector⟩⟩
  exact ⟨hmap, hmap.reads_back⟩

end Lisp
