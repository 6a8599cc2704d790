import Lisp.Proofs.Number.Literal
import Lisp.Proofs.Token.Atoms

/-!
Data that come from text. A word is a run of plain bytes, so every leaf that is read is a string, a
finite double, or written as a word that reads as the leaf; and a map that is read has a value for
each key. These facts hold of each token, then of the forms pending after each step, then of the
datum that the reading ends with.
-/
namespace Lisp

namespace Datum

/-- What holds of every datum that is read: its leaves but doubles are words that read as them. -/
def IsRead : Datum → Prop
  | .float x => Number.magnitude x < Number.infinityCode
  | d => d.IsSpelled ∧ d.IsReadable

theorem text_ofName {first : UInt8} {rest : Text} {d : Datum}
    (h : ofName (first :: rest) = .ok d) : d.text = first :: rest := by
  rw [ofName_cons, Except.ok.injEq] at h
  subst h
  split
  · rename_i hcolon
    rw [hcolon]
    rfl
  · repeat' split
    all_goals simp_all [text]

theorem isRead_ofName {first : UInt8} {rest : Text} {d : Datum} (hword : IsWord (first :: rest))
    (hname : ofName (first :: rest) = .ok d) (h : ofAtom (first :: rest) = .ok d) :
    d.Each IsRead := by
  have htext := text_ofName hname
  have hreads : ∃ c t, d.text = c :: t ∧ ofAtom (c :: t) = .ok d := ⟨first, rest, htext, h⟩
  rw [← htext] at hword
  cases d with
  | float x | string s | group b items =>
    exfalso
    rw [ofName_cons] at hname
    repeat' split at hname
    all_goals cases hname
  | _ => exact ⟨hword, hreads⟩

open Float.Model Float.Model.UnpackedFloat in
/-- The bits of a finite double are the bits it was made of. -/
theorem toBits_ofBits {u : UInt64} (h : u.toNat % Number.signBit < Number.infinityCode) :
    (Float.ofBits u).toBits = u := by
  have hexponent : @unpackExponent Format.binary64 u.toBitVec ≠ -1#11 := by
    intro heq
    have hfield : u.toNat / 2 ^ 52 % 2 ^ 11 = 2047 := by
      have hnat := congrArg BitVec.toNat heq
      rw [unpackExponent, BitVec.toNat_cast, BitVec.extractLsb_toNat, Nat.shiftRight_eq_div_pow]
        at hnat
      exact hnat
    rw [Number.signBit, Number.infinityCode, Number.octave] at h
    omega
  apply UInt64.toBitVec_inj.mp
  exact pack_unpack_of_valid ⟨fun hones => absurd hones hexponent⟩

/-- A double that is scanned is finite. -/
theorem magnitude_of_scanDouble {word : Text} {x : Float}
    (h : Number.scanDouble word = .value x) : Number.magnitude x < Number.infinityCode := by
  have hbits : ∀ n : Nat, n % Number.signBit < Number.infinityCode → n < 2 * Number.signBit →
      Number.magnitude (Float.ofBits n.toUInt64) < Number.infinityCode := by
    intro n hfinite hlt
    have hn : n.toUInt64.toNat = n := Nat.mod_eq_of_lt hlt
    rw [Number.magnitude, toBits_ofBits (by rwa [hn]), hn]
    exact hfinite
  unfold Number.scanDouble at h
  split at h
  · cases h
  · simp only at h
    split at h
    · cases h
    · rename_i code _
      split at h
      · cases h
      · rename_i hfinite
        have hsmall : code < Number.signBit := by
          have hle : Number.infinityCode < Number.signBit := by decide
          omega
        split at h
        · cases h
          refine hbits code ?_ (by omega)
          rw [Nat.mod_eq_of_lt hsmall]
          omega
        · cases h
          refine hbits (code + Number.signBit) ?_ (by omega)
          rw [Nat.add_mod_right, Nat.mod_eq_of_lt hsmall]
          omega

theorem isRead_ofWord {first : UInt8} {rest : Text} (hword : IsWord (first :: rest)) {d : Datum}
    (h : ofAtom (first :: rest) = .ok d) : d.Each IsRead := by
  have hname : ofName (first :: rest) = .ok d → d.Each IsRead := fun hname =>
    isRead_ofName hword hname h
  rw [ofAtom_of_isWord hword, ofWord_cons] at h
  split at h
  · split at h
    · cases h
      exact int_isReadable _
    · cases h
    · split at h
      · rename_i hscan
        cases h
        exact magnitude_of_scanDouble hscan
      · cases h
      · exact hname h
  · exact hname h

theorem isRead_ofAtom {text : Text} (htext : (Lexeme.atom text).IsWhole) {d : Datum}
    (h : ofAtom text = .ok d) : d.Each IsRead := by
  rcases htext with ⟨content, rfl⟩ | hword
  · rw [ofAtom_string] at h
    cases h
    exact ⟨trivial, trivial⟩
  · cases text with
    | nil => exact absurd rfl hword.1
    | cons first rest => exact isRead_ofWord hword h

end Datum

namespace Pending

/-- The data inside a pending form were read. -/
def IsRead : Pending → Prop
  | .mark _ | .metadata => True
  | .annotated d => d.Each Datum.IsRead
  | .group _ _ recent => ∀ d ∈ recent, d.Each Datum.IsRead

end Pending

namespace Advance

/-- The data that a step leaves were read. -/
def IsRead : Advance → Prop
  | .more stack => ∀ p ∈ stack, p.IsRead
  | .form d => d.Each Datum.IsRead
  | .error .. => True

theorem isRead_call {head : Text} (hhead : (Datum.symbol head).IsRead) {forms : List Datum}
    (hforms : ∀ d ∈ forms, d.Each Datum.IsRead) : (Datum.call head forms).Each Datum.IsRead := by
  refine Datum.each_group.mpr ⟨⟨trivial, fun hcurly => by cases hcurly⟩, ?_⟩
  exact List.forall_mem_cons.mpr ⟨hhead, hforms⟩

theorem isRead_name (m : Mark) : (Datum.symbol m.name).IsRead := by
  cases m
  all_goals exact ⟨show IsWord _ by decide, _, _, rfl, rfl⟩

theorem isRead_place {d : Datum} (hd : d.Each Datum.IsRead) {stack : List Pending}
    (hstack : ∀ p ∈ stack, p.IsRead) : (place d stack).IsRead := by
  induction stack generalizing d with
  | nil => exact hd
  | cons p outer ih =>
    obtain ⟨hp, houter⟩ := List.forall_mem_cons.mp hstack
    cases p with
    | mark m => exact ih (isRead_call (isRead_name m) (List.forall_mem_singleton.mpr hd)) houter
    | metadata => exact List.forall_mem_cons.mpr ⟨hd, houter⟩
    | annotated metadata =>
      have hname : (Datum.symbol (Text.of "with-meta")).IsRead :=
        ⟨show IsWord _ by decide, _, _, rfl, rfl⟩
      refine ih (isRead_call hname ?_) houter
      exact List.forall_mem_cons.mpr ⟨hd, List.forall_mem_singleton.mpr hp⟩
    | group b start recent =>
      exact List.forall_mem_cons.mpr ⟨List.forall_mem_cons.mpr ⟨hd, hp⟩, houter⟩

theorem isRead_close {b : Bracket} {position : Position} {stack : List Pending}
    (hstack : ∀ p ∈ stack, p.IsRead) : (close b position stack).IsRead := by
  unfold close
  split
  · rename_i opened start recent outer
    obtain ⟨hrecent, houter⟩ := List.forall_mem_cons.mp hstack
    split
    · trivial
    · split
      · trivial
      · rename_i heven
        refine isRead_place (Datum.each_group.mpr ⟨⟨trivial, ?_⟩, ?_⟩) houter
        · intro hcurly
          rw [List.length_reverse]
          by_contra hodd
          exact heven ⟨hcurly, hodd⟩
        · exact fun d hd => hrecent d (List.mem_reverse.mp hd)
  · trivial

theorem isRead_step {stack : List Pending} (hstack : ∀ p ∈ stack, p.IsRead) {t : Token}
    (ht : t.lexeme.IsWhole) : (step stack t).IsRead := by
  unfold step
  split
  · refine List.forall_mem_cons.mpr ⟨?_, hstack⟩
    intro d hd
    cases hd
  · exact isRead_close hstack
  · exact List.forall_mem_cons.mpr ⟨trivial, hstack⟩
  · exact List.forall_mem_cons.mpr ⟨trivial, hstack⟩
  · rename_i text hlexeme
    rw [hlexeme] at ht
    split
    · rename_i d hatom
      exact isRead_place (Datum.isRead_ofAtom ht hatom) hstack
    · trivial

end Advance

/-- Whatever is read from whole tokens was read part by part. -/
theorem Reader.isRead_readFrom {r : Reader} {stack : List Pending}
    (hstack : ∀ p ∈ stack, p.IsRead) {tokens : List Token}
    (htokens : ∀ t ∈ tokens, t.lexeme.IsWhole) {d : Datum}
    (h : (r.readFrom stack tokens).1 = .ok d) : d.Each Datum.IsRead := by
  induction tokens generalizing stack with
  | nil => cases h
  | cons t rest ih =>
    obtain ⟨ht, hrest⟩ := List.forall_mem_cons.mp htokens
    have hstep := Advance.isRead_step hstack ht
    rw [readFrom] at h
    split at h
    · rename_i next hnext
      rw [hnext] at hstep
      exact ih hstep hrest h
    · rename_i form hform
      rw [hform] at hstep
      cases h
      exact hstep
    · cases h

/-- What reading a text gives was read part by part. -/
theorem Datum.each_isRead {source : Text} {d : Datum} (h : read source = .ok d) :
    d.Each IsRead := by
  have htokens : ∀ t ∈ (Reader.ofText source).rest, t.lexeme.IsWhole :=
    Lexer.isWhole_finish source
  unfold read at h
  by_cases hnone : (Reader.ofText source).rest = []
  · have hnext : (Reader.ofText source).next.1 = (Reader.ofText source).trouble.map .error := by
      rw [Reader.next, hnone]
    rw [hnext] at h
    cases htrouble : (Reader.ofText source).trouble with
    | none =>
      rw [htrouble] at h
      cases h
      exact nil_isReadable
    | some e =>
      rw [htrouble] at h
      cases h
  · rw [next_eq_readFrom hnone] at h
    refine Reader.isRead_readFrom ?_ htokens h
    intro p hp
    cases hp

end Lisp
