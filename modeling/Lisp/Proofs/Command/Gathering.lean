import Lisp.Command.Shell
import Lisp.Proofs.Datum.Concatenation

/-!
Lines gathered at the shell. Lines are taken until they make complete forms, and then taken anew.
When all lines together read without an error, none is left over, every part that is taken reads
without an error, and the forms of the parts are the forms of the whole, in order.
-/
namespace Lisp

/-- Lines joined as they stand in a text. -/
def Text.ofLines (lines : List Text) : Text := Text.join [Text.newline] lines

namespace Text

@[simp] theorem ofLines_nil : ofLines [] = [] := rfl

@[simp] theorem ofLines_singleton (line : Text) : ofLines [line] = line := by
  simp [ofLines, join]

theorem ofLines_append {front back : List Text} (hfront : front ≠ []) (hback : back ≠ []) :
    ofLines (front ++ back) = ofLines front ++ newline :: ofLines back := by
  obtain ⟨first, more, rfl⟩ := List.exists_cons_of_ne_nil hback
  induction front with
  | nil => exact absurd rfl hfront
  | cons line front ih =>
    cases front with
    | nil => simp [ofLines, join, List.intercalate]
    | cons next front =>
      have hrest := ih (List.cons_ne_nil next front)
      simp only [ofLines, join, List.intercalate, List.cons_append] at hrest ⊢
      simp [hrest]

end Text

namespace Intake

/-- Takes lines until the text is complete; gives the lines taken and those left. -/
def gather (i : Intake) : List Text → Option (List Text × List Text)
  | [] => none
  | line :: rest =>
    if (i.addLine line).isIncomplete then
      ((i.addLine line).gather rest).map fun (part, left) => (line :: part, left)
    else some ([line], rest)

/-- Gathering again and again, until no line is left. -/
inductive Gathers : List Text → List (List Text) → Prop
  | done : Gathers [] []
  | part {lines part left : List Text} {parts : List (List Text)}
    (hpart : empty.gather lines = some (part, left)) (hleft : Gathers left parts) :
    Gathers lines (part :: parts)

/-- The intake holds these lines. An empty text stands for no lines. -/
structure Holds (i : Intake) (taken : List Text) : Prop where
  text : i.text.toList = Text.ofLines taken
  isEmpty : i.isEmpty = taken.isEmpty

theorem holds_empty : empty.Holds [] := ⟨rfl, rfl⟩

theorem text_addLine {i : Intake} {taken : List Text} (h : i.Holds taken) (line : Text) :
    (i.addLine line).text.toList = Text.ofLines (taken ++ [line]) := by
  rw [addLine, text_add, h.text, h.isEmpty]
  cases taken with
  | nil => simp
  | cons first taken =>
    rw [Text.ofLines_append (List.cons_ne_nil first taken) (List.cons_ne_nil line [])]
    simp

/-- What is incomplete is not empty, so the next line goes behind a line break. -/
theorem holds_addLine {i : Intake} {taken : List Text} (h : i.Holds taken) {line : Text}
    (hline : (i.addLine line).isIncomplete = true) : (i.addLine line).Holds (taken ++ [line]) := by
  refine ⟨text_addLine h line, ?_⟩
  have hsize : (i.addLine line).text.size ≠ 0 := by
    intro hzero
    rw [isIncomplete_eq, Sequence.toList_eq_nil hzero] at hline
    exact absurd hline (by decide)
  have hempty : (i.addLine line).isEmpty = false := beq_eq_false_iff_ne.mpr hsize
  simp [hempty]

theorem ne_nil_of_gather {i : Intake} {lines part left : List Text}
    (h : i.gather lines = some (part, left)) : part ≠ [] := by
  cases lines with
  | nil => cases h
  | cons line rest =>
    rw [gather] at h
    split at h
    · obtain ⟨_, _, heq⟩ := Option.map_eq_some_iff.mp h
      cases heq
      exact List.cons_ne_nil _ _
    · cases h
      exact List.cons_ne_nil _ _

/-- Lines that make a text without error go on until such a text is reached: an error that is made
before would stay. -/
theorem exists_gather {i : Intake} {taken lines : List Text} (hi : i.Holds taken)
    (hlines : lines ≠ []) (h : (Datum.readAll (Text.ofLines (taken ++ lines))).2 = none) :
    ∃ part left, i.gather lines = some (part, left) ∧ lines = part ++ left ∧
      (Datum.readAll (Text.ofLines (taken ++ part))).2 = none := by
  induction lines generalizing i taken with
  | nil => exact absurd rfl hlines
  | cons line rest ih =>
    have htext := text_addLine hi line
    have hsplit : taken ++ line :: rest = taken ++ [line] ++ rest := by simp
    rw [hsplit] at h
    rw [gather]
    by_cases hmore : (i.addLine line).isIncomplete = true
    · have hrest : rest ≠ [] := by
        rintro rfl
        rw [List.append_nil] at h
        rw [isIncomplete_eq, htext, Datum.isIncomplete, h] at hmore
        cases hmore
      obtain ⟨part, left, hgather, rfl, hread⟩ := ih (holds_addLine hi hmore) hrest h
      refine ⟨line :: part, left, ?_, rfl, by simpa using hread⟩
      rw [if_pos hmore, hgather]
      rfl
    · refine ⟨[line], rest, if_neg hmore, rfl, ?_⟩
      cases hread : (Datum.readAll (Text.ofLines (taken ++ [line]))).2 with
      | none => rfl
      | some e =>
        exfalso
        rw [isIncomplete_eq, htext, Datum.isIncomplete, hread, Option.any_some] at hmore
        rcases Datum.error_cases hread with ⟨_, hsettle⟩ | ⟨htrue, _⟩
        · by_cases hrest : rest = []
          · rw [hrest, List.append_nil, hread] at h
            cases h
          · rw [Text.ofLines_append (by simp) hrest, Datum.readAll_of_settle_eq_none hsettle,
              hread] at h
            cases h
        · exact hmore htrue

/-- Line by line, a text without error is taken whole. -/
theorem exists_gathers {lines : List Text} (h : (Datum.readAll (Text.ofLines lines)).2 = none) :
    ∃ parts, Gathers lines parts ∧ parts.flatten = lines ∧
      (∀ part ∈ parts, (Datum.readAll (Text.ofLines part)).2 = none) ∧
      parts.flatMap (fun part => (Datum.readAll (Text.ofLines part)).1) =
        (Datum.readAll (Text.ofLines lines)).1 := by
  induction hn : lines.length using Nat.strongRecOn generalizing lines with
  | ind n ih =>
    subst hn
    by_cases hlines : lines = []
    · subst hlines
      exact ⟨[], .done, rfl, by simp, rfl⟩
    · obtain ⟨part, left, hgather, rfl, hread⟩ := exists_gather holds_empty hlines h
      rw [List.nil_append] at hread
      have hpart := ne_nil_of_gather hgather
      by_cases hleft : left = []
      · subst hleft
        rw [List.append_nil] at hgather ⊢
        exact ⟨[part], .part hgather .done, by simp, by simpa using hread, by simp⟩
      · obtain ⟨hforms, herror⟩ := Datum.readAll_newline hread (Text.ofLines left)
        rw [Text.ofLines_append hpart hleft] at h
        rw [h] at herror
        have hshorter : left.length < (part ++ left).length := by
          rw [List.length_append]
          have := List.length_pos_iff.mpr hpart
          omega
        obtain ⟨parts, hgathers, hflat, hreads, hall⟩ :=
          ih left.length hshorter (Option.map_eq_none_iff.mp herror.symm) rfl
        refine ⟨part :: parts, .part hgather hgathers, by simp [hflat],
          List.forall_mem_cons.mpr ⟨hread, hreads⟩, ?_⟩
        rw [List.flatMap_cons, hall, Text.ofLines_append hpart hleft]
        exact hforms.symm

end Intake

namespace Command.Shell

/-- The terminal after each line of a part was asked for. -/
def askedFor (t : Terminal) (part : List Text) : Terminal :=
  part.tail.foldl (fun t _ => t.print (Text.of "  ... ")) (t.print (Text.of "user> "))

/-- Obeys the parts one after the other, until they end or one of them ends the shell. -/
def runParts (s : Shell) : List (List Text) → Shell
  | [] => s.ask.leave
  | part :: rest =>
    let result := obey { s with terminal := askedFor s.terminal part } (Text.ofLines part)
    if result.1 then runParts result.2 rest else result.2

theorem runLines_cons (s : Shell) (line : Text) (rest : List Text) :
    s.runLines (line :: rest) =
      if (s.ask.accept line).1 then (s.ask.accept line).2.runLines rest
      else (s.ask.accept line).2 := by
  rw [runLines]
  cases haccept : s.ask.accept line with
  | mk goesOn s' => cases goesOn <;> rfl

theorem accept_eq (s : Shell) (line : Text) :
    s.accept line =
      if (s.buffer.addLine line).isIncomplete then
        (true, { s with buffer := s.buffer.addLine line })
      else obey { s with buffer := .empty } (s.buffer.addLine line).text.toList := by
  cases s
  rfl

theorem buffer_obey (s : Shell) (source : Text) : (s.obey source).2.buffer = s.buffer := by
  unfold obey
  simp only
  repeat' split
  all_goals rfl

/-- The lines of a part are obeyed together, after a prompt for each. -/
theorem runLines_of_gather {s : Shell} {taken lines part left : List Text}
    (hs : s.buffer.Holds taken) (h : s.buffer.gather lines = some (part, left)) :
    s.runLines lines =
      let result := obey ⟨part.tail.foldl (fun t _ => t.print (Text.of "  ... "))
        (s.terminal.print s.prompt), s.history, .empty⟩ (Text.ofLines (taken ++ part))
      if result.1 then result.2.runLines left else result.2 := by
  induction lines generalizing s taken part with
  | nil => cases h
  | cons line rest ih =>
    have htext := Intake.text_addLine hs line
    have haccept := accept_eq s.ask line
    have hbuffer : s.ask.buffer = s.buffer := rfl
    rw [runLines_cons]
    rw [Intake.gather] at h
    by_cases hmore : (s.buffer.addLine line).isIncomplete = true
    · rw [if_pos hmore] at h
      obtain ⟨⟨more, left'⟩, hgather, heq⟩ := Option.map_eq_some_iff.mp h
      cases heq
      obtain ⟨next, more, rfl⟩ := List.exists_cons_of_ne_nil (Intake.ne_nil_of_gather hgather)
      rw [hbuffer, if_pos hmore] at haccept
      have hholds := Intake.holds_addLine hs hmore
      have hprompt : ({ s.ask with buffer := s.buffer.addLine line } : Shell).prompt =
          Text.of "  ... " := by
        simp [prompt, hholds.isEmpty]
      have hrest := ih (s := { s.ask with buffer := s.buffer.addLine line }) hholds hgather
      rw [hprompt, List.append_assoc, List.singleton_append] at hrest
      rw [haccept]
      exact hrest
    · rw [if_neg hmore] at h
      cases h
      rw [hbuffer, if_neg hmore, htext] at haccept
      rw [haccept]
      rfl

theorem runLines_of_gathers {lines : List Text} {parts : List (List Text)}
    (h : Intake.Gathers lines parts) {s : Shell} (hs : s.buffer = .empty) :
    s.runLines lines = s.runParts parts := by
  induction h generalizing s with
  | done => rfl
  | @part lines part left parts hpart _ ih =>
    have hholds : s.buffer.Holds [] := by
      rw [hs]
      exact Intake.holds_empty
    have hprompt : s.prompt = Text.of "user> " := by
      rw [prompt, hs]
      rfl
    have hshell := runLines_of_gather hholds (by rwa [hs])
    have hnext := ih ((buffer_obey { s with terminal := askedFor s.terminal part }
      (Text.ofLines part)).trans hs)
    rw [hprompt, ← hs, List.nil_append] at hshell
    rw [hshell, runParts]
    simp only
    rw [← hnext]
    rfl

end Command.Shell

/-- Line by line nothing is lost and nothing is changed. When the lines together read without an
error, gathering them again and again takes up every line, each part reads without an error, and the
forms of the parts in order are the forms of the whole. The shell obeys just these parts. -/
theorem Intake.gathers_whole {lines : List Text}
    (h : (Datum.readAll (Text.ofLines lines)).2 = none) :
    ∃ parts, Gathers lines parts ∧ parts.flatten = lines ∧
      (∀ part ∈ parts, (Datum.readAll (Text.ofLines part)).2 = none) ∧
      parts.flatMap (fun part => (Datum.readAll (Text.ofLines part)).1) =
        (Datum.readAll (Text.ofLines lines)).1 ∧
      ∀ s : Command.Shell, s.buffer = .empty → s.runLines lines = s.runParts parts := by
  obtain ⟨parts, hgathers, hflat, hreads, hforms⟩ := exists_gathers h
  exact ⟨parts, hgathers, hflat, hreads, hforms, fun s hs =>
    Command.Shell.runLines_of_gathers hgathers hs⟩

/-- A form over three lines with a string and a comment across them, a line without a form, and two
forms on one line. -/
theorem Intake.gathers_whole_sample :
    (Datum.readAll (Text.ofLines [Text.of "(def! s \"a", Text.of ") b\" ; open (",
      Text.of ")", [], Text.of "1 'x"])).2 = none ∧
    ∃ parts, Gathers [Text.of "(def! s \"a", Text.of ") b\" ; open (",
        Text.of ")", [], Text.of "1 'x"] parts ∧
      parts.flatten = [Text.of "(def! s \"a", Text.of ") b\" ; open (",
        Text.of ")", [], Text.of "1 'x"] ∧
      parts.flatMap (fun part => (Datum.readAll (Text.ofLines part)).1) =
        (Datum.readAll (Text.ofLines [Text.of "(def! s \"a", Text.of ") b\" ; open (",
          Text.of ")", [], Text.of "1 'x"])).1 := by
  have hread : (Datum.readAll (Text.ofLines [Text.of "(def! s \"a", Text.of ") b\" ; open (",
      Text.of ")", [], Text.of "1 'x"])).2 = none := by decide +kernel
  obtain ⟨parts, hgathers, hflat, _, hforms, _⟩ := gathers_whole hread
  exact ⟨hread, parts, hgathers, hflat, hforms⟩

end Lisp
