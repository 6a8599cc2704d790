import Lisp.Proofs.Datum.Basic

/-!
Equality of data, and data in which no map has a key twice. A datum settles when in every map each
key keeps its first place and its last value; that is what becomes of it when it is built. Settled
data without NaN are equal to themselves, and settling leaves them as they are.
-/
namespace Lisp.Datum

theorem sizeOf_lt_of_mem_pairs {items : List Datum} {entry : Datum × Datum}
    (h : entry ∈ pairs items) : sizeOf entry.1 < sizeOf items ∧ sizeOf entry.2 < sizeOf items := by
  obtain ⟨hkey, hvalue⟩ := mem_of_mem_pairs h
  exact ⟨List.sizeOf_lt_of_mem hkey, List.sizeOf_lt_of_mem hvalue⟩

/-- Groups of one shape are compared item by item, but maps by their entries: each entry of the
first is compared with the first entry of the second whose key is equal. -/
def same : Datum → Datum → Bool
  | .nil, .nil => true
  | .bool p, .bool q => p == q
  | .int m, .int n => m == n
  | .float x, .float y => Number.same x y
  | .string s, .string t => s == t
  | .symbol s, .symbol t => s == t
  | .keyword s, .keyword t => s == t
  | .group b xs, .group c ys =>
    if b ≠ c then false
    else if b = .curly then
      (pairs xs).length == (pairs ys).length &&
        (pairs xs).attach.all fun ⟨entry, _⟩ =>
          match (pairs ys).attach.find? fun ⟨other, _⟩ => same other.1 entry.1 with
          | some ⟨other, _⟩ => same entry.2 other.2
          | none => false
    else xs.length == ys.length && (xs.zip ys).attach.all fun ⟨pair, _⟩ => same pair.1 pair.2
  | _, _ => false
termination_by d e => sizeOf d + sizeOf e
decreasing_by
  · have hentry := sizeOf_lt_of_mem_pairs ‹entry ∈ pairs xs›
    have hother := sizeOf_lt_of_mem_pairs ‹other ∈ pairs ys›
    simp only [Datum.group.sizeOf_spec]
    omega
  · have hentry := sizeOf_lt_of_mem_pairs ‹entry ∈ pairs xs›
    have hother := sizeOf_lt_of_mem_pairs ‹other ∈ pairs ys›
    simp only [Datum.group.sizeOf_spec]
    omega
  · have hpair := List.of_mem_zip ‹(pair.1, pair.2) ∈ xs.zip ys›
    have hx := List.sizeOf_lt_of_mem hpair.1
    have hy := List.sizeOf_lt_of_mem hpair.2
    simp only [Datum.group.sizeOf_spec]
    omega

theorem same_maps (xs ys : List Datum) :
    same (.group .curly xs) (.group .curly ys) =
      ((pairs xs).length == (pairs ys).length &&
        (pairs xs).all fun entry =>
          match (pairs ys).find? fun other => same other.1 entry.1 with
          | some other => same entry.2 other.2
          | none => false) := by
  rw [same]
  simp only [ne_eq, not_true, if_false, if_true]
  congr 1
  rw [List.all_subtype (g := fun entry =>
    match (pairs ys).find? fun other => same other.1 entry.1 with
    | some other => same entry.2 other.2
    | none => false), List.unattach_attach]
  intro entry _
  have hfind := List.find?_subtype (l := (pairs ys).attach) (f := fun x => same x.1.1 entry.1)
    (g := fun other => same other.1 entry.1) (fun _ _ => rfl)
  rw [List.unattach_attach] at hfind
  rw [← hfind]
  cases List.find? (fun x => same x.1.1 entry.1) (pairs ys).attach <;> rfl

theorem same_sequences {b : Bracket} (hb : b ≠ .curly) (xs ys : List Datum) :
    same (.group b xs) (.group b ys) =
      (xs.length == ys.length && (xs.zip ys).all fun pair => same pair.1 pair.2) := by
  rw [same]
  simp only [ne_eq, not_true, if_false, if_neg hb]
  rw [List.all_subtype (g := fun pair => same pair.1 pair.2) (fun _ _ => rfl),
    List.unattach_attach]

theorem same_group_of_ne {b c : Bracket} (h : b ≠ c) (xs ys : List Datum) :
    same (.group b xs) (.group c ys) = false := by
  rw [same, if_pos h]

theorem same_group_leaf {d : Datum} (hd : d.IsLeaf) (b : Bracket) (items : List Datum) :
    same (.group b items) d = false ∧ same d (.group b items) = false := by
  cases d with
  | group c others => exact absurd rfl (hd c others)
  | _ => simp [same]

/-- No key equals an earlier one. -/
def Distinct (entries : List (Datum × Datum)) : Prop :=
  entries.Pairwise fun entry later => same entry.1 later.1 = false

/-- What a datum must not hold to be equal to itself: NaN, or a key twice in one map. -/
def IsTidy : Datum → Prop
  | .float x => Number.same x x = true
  | .group .curly items => items.length % 2 = 0 ∧ Distinct (pairs items)
  | _ => True

/-- In a map with distinct keys the first entry with the key of an entry is that entry. -/
theorem find?_eq_of_distinct {entries : List (Datum × Datum)} (hdistinct : Distinct entries)
    {entry : Datum × Datum} (hmem : entry ∈ entries) (hself : same entry.1 entry.1 = true) :
    entries.find? (fun other => same other.1 entry.1) = some entry := by
  induction entries with
  | nil => cases hmem
  | cons first rest ih =>
    obtain ⟨hfirst, hrest⟩ := List.pairwise_cons.mp hdistinct
    rcases List.mem_cons.mp hmem with rfl | hmem
    · simp only [List.find?_cons, hself]
    · simp only [List.find?_cons, hfirst entry hmem]
      exact ih hrest hmem

theorem same_self {d : Datum} (h : d.Each IsTidy) : same d d = true := by
  induction d with
  | nil => rw [same]
  | bool b => simp [same]
  | int n => simp [same]
  | float x =>
    rw [same]
    exact h
  | string s => simp [same]
  | symbol name => simp [same]
  | keyword name => simp [same]
  | group b items ih =>
    obtain ⟨hself, hitems⟩ := each_group.mp h
    by_cases hb : b = .curly
    · subst hb
      rw [same_maps]
      simp only [beq_self_eq_true, Bool.true_and, List.all_eq_true]
      intro entry hentry
      obtain ⟨hkey, hvalue⟩ := mem_of_mem_pairs hentry
      rw [find?_eq_of_distinct hself.2 hentry (ih entry.1 hkey (hitems entry.1 hkey))]
      exact ih entry.2 hvalue (hitems entry.2 hvalue)
    · rw [same_sequences hb]
      simp only [beq_self_eq_true, Bool.true_and, List.all_eq_true]
      intro pair hpair
      rw [List.zip_eq_zipWith, List.zipWith_self] at hpair
      obtain ⟨d, hd, rfl⟩ := List.mem_map.mp hpair
      exact ih d hd (hitems d hd)

/-- Replaces the value of the first entry with an equal key, or adds an entry at the end. -/
def put (entries : List (Datum × Datum)) (key value : Datum) : List (Datum × Datum) :=
  match entries.findIdx? fun entry => same entry.1 key with
  | some i => entries.modify i fun entry => (entry.1, value)
  | none => entries ++ [(key, value)]

/-- Puts keys and values in turn. -/
def assoc (entries : List (Datum × Datum)) : List Datum → List (Datum × Datum)
  | key :: value :: more => assoc (put entries key value) more
  | _ => entries

mutual

/-- The datum with its maps reduced to one entry for each key. -/
def settled : Datum → Datum
  | .group b items =>
    let items := settledAll items
    .group b (if b = .curly then alternate (assoc [] items) else items)
  | d => d

def settledAll : List Datum → List Datum
  | [] => []
  | d :: rest => settled d :: settledAll rest

end

theorem settledAll_eq (items : List Datum) : settledAll items = items.map settled := by
  induction items with
  | nil => rfl
  | cons d rest ih => rw [settledAll, ih, List.map_cons]

theorem settled_map (items : List Datum) :
    (group .curly items).settled = .group .curly (alternate (assoc [] (items.map settled))) := by
  rw [settled, settledAll_eq, if_pos rfl]

theorem settled_sequence {b : Bracket} (hb : b ≠ .curly) (items : List Datum) :
    (group b items).settled = .group b (items.map settled) := by
  rw [settled, settledAll_eq, if_neg hb]

/-- Nothing gets into a map but the key and the value that are put. -/
theorem forall_put {p : Datum → Prop} {entries : List (Datum × Datum)} {key value : Datum}
    (hentries : ∀ entry ∈ entries, p entry.1 ∧ p entry.2) (hkey : p key) (hvalue : p value) :
    ∀ entry ∈ put entries key value, p entry.1 ∧ p entry.2 := by
  intro entry hentry
  unfold put at hentry
  split at hentry
  · obtain ⟨j, hj⟩ := List.mem_iff_getElem?.mp hentry
    rw [List.getElem?_modify] at hj
    obtain ⟨old, hold, heq⟩ := Option.map_eq_some_iff.mp hj
    have hmem : old ∈ entries := List.mem_of_getElem? hold
    split at heq
    · subst heq
      exact ⟨(hentries old hmem).1, hvalue⟩
    · subst heq
      exact hentries _ hmem
  · rcases List.mem_append.mp hentry with hmem | hnew
    · exact hentries entry hmem
    · rw [List.mem_singleton] at hnew
      subst hnew
      exact ⟨hkey, hvalue⟩

/-- A new key goes to the end only when no key before it is equal. -/
theorem distinct_put {entries : List (Datum × Datum)} (h : Distinct entries) (key value : Datum) :
    Distinct (put entries key value) := by
  unfold put
  split
  · rename_i i hi
    have hpairwise : (entries.map (·.1)).Pairwise fun k l => same k l = false :=
      List.pairwise_map.mpr h
    rw [← map_fst_modify entries i value] at hpairwise
    exact List.pairwise_map.mp hpairwise
  · rename_i hnone
    have hfresh := List.findIdx?_eq_none_iff.mp hnone
    refine List.pairwise_append.mpr ⟨h, List.pairwise_singleton .., ?_⟩
    intro entry hentry new hnew
    rw [List.mem_singleton] at hnew
    subst hnew
    exact hfresh entry hentry

theorem distinct_assoc {entries : List (Datum × Datum)} (h : Distinct entries)
    (items : List Datum) : Distinct (assoc entries items) := by
  induction entries, items using assoc.induct with
  | case1 entries key value more ih =>
    rw [assoc]
    exact ih (distinct_put h key value)
  | case2 entries items hshort =>
    rw [assoc]
    · exact h
    · exact hshort

theorem forall_assoc {p : Datum → Prop} {entries : List (Datum × Datum)} {items : List Datum}
    (hentries : ∀ entry ∈ entries, p entry.1 ∧ p entry.2) (hitems : ∀ d ∈ items, p d) :
    ∀ entry ∈ assoc entries items, p entry.1 ∧ p entry.2 := by
  induction entries, items using assoc.induct with
  | case1 entries key value more ih =>
    rw [assoc]
    exact ih (forall_put hentries (hitems key (by simp)) (hitems value (by simp)))
      fun d hd => hitems d (by simp [hd])
  | case2 entries items hshort =>
    rw [assoc]
    · exact hentries
    · exact hshort

/-- The items of a settled group are settled items of the group. -/
theorem each_settled_group {p : Datum → Prop} {b : Bracket} {items : List Datum}
    (hself : p (group b items).settled) (hitems : ∀ d ∈ items, d.settled.Each p) :
    (group b items).settled.Each p := by
  have hparts : ∀ d ∈ items.map settled, d.Each p := by
    intro d hd
    obtain ⟨e, he, rfl⟩ := List.mem_map.mp hd
    exact hitems e he
  by_cases hb : b = .curly
  · subst hb
    rw [settled_map] at hself ⊢
    refine each_group.mpr ⟨hself, fun d hd => ?_⟩
    have hnone : ∀ entry ∈ ([] : List (Datum × Datum)), entry.1.Each p ∧ entry.2.Each p := by
      intro entry hentry
      cases hentry
    have hentries := forall_assoc hnone hparts
    obtain ⟨entry, hentry, hd⟩ := mem_alternate.mp hd
    rcases hd with rfl | rfl
    · exact (hentries entry hentry).1
    · exact (hentries entry hentry).2
  · rw [settled_sequence hb] at hself ⊢
    exact each_group.mpr ⟨hself, hparts⟩

/-- Settling keeps every property that does not depend on which entries a map has. -/
theorem Each.settled {p : Datum → Prop}
    (hgroup : ∀ b xs ys, p (.group b xs) → (b = .curly → ys.length % 2 = 0) → p (.group b ys))
    {d : Datum} (h : d.Each p) : d.settled.Each p := by
  induction d with
  | group b items ih =>
    obtain ⟨hself, hitems⟩ := each_group.mp h
    refine each_settled_group ?_ fun d hd => ih d hd (hitems d hd)
    rw [Datum.settled]
    refine hgroup _ _ _ hself fun hcurly => ?_
    rw [if_pos hcurly, length_alternate]
    omega
  | _ => exact h

/-- Doubles that equal themselves, which all but NaN do. -/
def IsNumber : Datum → Prop
  | .float x => Number.same x x = true
  | _ => True

theorem tidy_settled {d : Datum} (h : d.Each IsNumber) : d.settled.Each IsTidy := by
  induction d with
  | group b items ih =>
    obtain ⟨_, hitems⟩ := each_group.mp h
    refine each_settled_group ?_ fun d hd => ih d hd (hitems d hd)
    cases b with
    | round => trivial
    | square => trivial
    | curly =>
      rw [settled_map]
      constructor
      · rw [length_alternate]
        omega
      · rw [pairs_alternate]
        exact distinct_assoc List.Pairwise.nil _
  | float x => exact h
  | _ => trivial

/-- Entries with distinct keys are put one behind the other. -/
theorem assoc_alternate {entries more : List (Datum × Datum)} (h : Distinct (entries ++ more)) :
    assoc entries (alternate more) = entries ++ more := by
  induction more generalizing entries with
  | nil => simp [assoc]
  | cons entry more ih =>
    obtain ⟨key, value⟩ := entry
    have hfresh : entries.findIdx? (fun entry => same entry.1 key) = none := by
      rw [List.findIdx?_eq_none_iff]
      intro entry hentry
      exact (List.pairwise_append.mp h).2.2 entry hentry (key, value) List.mem_cons_self
    have hput : put entries key value = entries ++ [(key, value)] := by
      rw [put, hfresh]
    rw [alternate_cons, assoc, hput, ih (by simpa using h), List.append_assoc,
      List.singleton_append]

theorem settled_eq_self {d : Datum} (h : d.Each IsTidy) : d.settled = d := by
  induction d with
  | group b items ih =>
    obtain ⟨hself, hitems⟩ := each_group.mp h
    have hparts : items.map Datum.settled = items := by
      calc
        items.map Datum.settled = items.map id :=
          List.map_congr_left fun d hd => ih d hd (hitems d hd)
        _ = items := List.map_id items
    by_cases hb : b = .curly
    · subst hb
      rw [settled_map, hparts]
      have hassoc : assoc [] (alternate (pairs items)) = [] ++ pairs items :=
        assoc_alternate hself.2
      rw [alternate_pairs hself.1] at hassoc
      rw [hassoc, List.nil_append, alternate_pairs hself.1]
    · rw [settled_sequence hb, hparts]
  | _ => rfl

end Lisp.Datum
