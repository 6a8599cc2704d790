import Lisp.Evaluator.Eval
import Lisp.Proofs.Operation.Conduct

/-!
Natives that fail change nothing. A native settles its answer from the heap as it is, and only then
acts on the state; of the replies that act, those that can fail do so before they change anything.
What fails for its arguments is told apart by arity, type or index.
-/
namespace Lisp

/-- The native calls functions or evaluates forms. -/
def Native.CallsBack : Native → Prop
  | .apply | .map | .swap | .eval => True
  | .operation _ | .inert _ => False

/-- The number of arguments is wrong, or the kind of one of them, or an index. -/
def Fault.IsMisuse (f : Fault) : Prop := f.kind = .arity ∨ f.kind = .type ∨ f.kind = .index

/-- The failures that are a native's own. Beside faults these are texts that cannot be read, raised
values and output that is closed; or else the host has yet to look for a file. -/
def Failure.IsOwn : Failure → Prop
  | .fault f => f.IsMisuse
  | .parse _ | .thrown _ | .unread _ => True
  | .host detail => detail = Text.of "output closed"
  | .loading _ _ | .crash _ | .exhausted => False

namespace World

/-- All that was there is as it was. -/
structure Untouched (w u : World) : Prop where
  scopes : u.scopes = w.scopes
  object : ∀ v, w.heap.Has v → u.heap.object v = w.heap.object v
  elements : ∀ v, w.heap.Has v → u.heap.elements? v = w.heap.elements? v
  cells : u.heap.cells = w.heap.cells
  atoms : u.heap.atoms = w.heap.atoms
  closures : u.heap.closures = w.heap.closures
  natives : u.heap.natives = w.heap.natives
  generated : u.generated = w.generated
  console : u.console = w.console
  log : u.log = w.log
  host : u.host = w.host

theorem untouched_refl (w : World) : w.Untouched w := by
  constructor <;> intros <;> rfl

/-- A new text is only added. -/
theorem untouched_makeString (w : World) (s : Text) :
    w.Untouched { w with heap := (w.heap.makeString s).2 } := by
  have hobject : ∀ v, w.heap.Has v → (w.heap.makeString s).2.object v = w.heap.object v := by
    intro v hv
    rw [Heap.makeString, Heap.make, Heap.object_alloc, if_neg]
    rintro rfl
    exact Nat.lt_irrefl _ hv
  constructor
  case object => exact hobject
  case elements =>
    intro v hv
    unfold Heap.elements? Heap.sequence? Heap.content
    rw [hobject v hv]
    rfl
  all_goals rfl

end World

/-- A reply that fails leaves the world as it was, but for the text that it raises, and the failure
is one of a native. -/
theorem Reply.perform_error {reply : Reply} {S grow : Value → Prop} {w u : World} {e : Failure}
    (hreply : reply.IsFor S grow w.heap) (hfails : reply.perform w = .error e u) :
    e.IsOwn ∧ (u = w ∨ ∃ s, e = .thrown (.object w.heap.objects.size) ∧
      u = { w with heap := (w.heap.makeString s).2 }) := by
  cases reply with
  | print line =>
    unfold Reply.perform at hfails
    dsimp only at hfails
    split at hfails
    · cases hfails
    · cases hfails
      exact ⟨rfl, .inl rfl⟩
  | raiseText s =>
    cases hfails
    exact ⟨trivial, .inr ⟨s, rfl, rfl⟩⟩
  | unreadable error =>
    rw [Reply.perform, Failure.ofParse_eq hreply] at hfails
    cases hfails
    exact ⟨trivial, .inl rfl⟩
  | raise v | want path =>
    cases hfails
    exact ⟨trivial, .inl rfl⟩
  | crash error => cases hreply
  | _ => cases hfails

section Misuse

variable {α β : Type} {h : Heap} {name : Text} {args : List Value}

/-- What is refused is refused for its arguments. -/
def Misused (x : Except Fault α) : Prop := ∀ f, x = .error f → f.IsMisuse

theorem misused_ok (a : α) : Misused (.ok a) := by
  rintro f ⟨⟩

theorem misused_error {f : Fault} (hf : f.IsMisuse) : Misused (.error f : Except Fault α) := by
  rintro _ ⟨⟩
  exact hf

theorem misused_refuse (wanted : String) (got : Value) :
    Misused (Answer.refuse name h wanted got : Except Fault α) :=
  misused_error (.inr (.inl rfl))

theorem misused_bind {x : Except Fault α} {k : α → Except Fault β} (hx : Misused x)
    (hk : ∀ a, Misused (k a)) : Misused (x >>= k) := by
  cases x with
  | error f => exact misused_error (hx f rfl)
  | ok a => exact hk a

theorem misused_mapM {f : α → Except Fault β} (hf : ∀ a, Misused (f a)) (as : List α) :
    Misused (as.mapM f) := by
  induction as with
  | nil => exact misused_ok _
  | cons a as ih =>
    rw [List.mapM_cons]
    exact misused_bind (hf a) fun b => misused_bind ih fun bs => misused_ok _

/-- What a partial operation gives is gone on with, and where it gives nothing nothing is refused.
-/
theorem misused_check {found : Except Crash α} {answer : α → Answer}
    (hanswer : ∀ a, Misused (answer a)) : Misused (Answer.check found answer) := by
  cases found with
  | error c => exact misused_ok _
  | ok a => exact hanswer a

theorem misused_unary {answer : Value → Answer} (hanswer : ∀ x, Misused (answer x)) :
    Misused (Answer.unary name args answer) := by
  rw [Answer.unary_eq]
  split
  · exact hanswer _
  · exact misused_error (.inl rfl)

theorem misused_binary {answer : Value → Value → Answer} (hanswer : ∀ x y, Misused (answer x y)) :
    Misused (Answer.binary name args answer) := by
  rw [Answer.binary_eq]
  split
  · exact hanswer _ _
  · exact misused_error (.inl rfl)

theorem misused_variadic {answer : Value → List Value → Answer}
    (hanswer : ∀ x more, Misused (answer x more)) :
    Misused (Answer.variadic name args answer) := by
  rw [Answer.variadic_eq]
  split
  · exact hanswer _ _
  · exact misused_error (.inl rfl)

theorem misused_string {wanted : String} {v : Value} {answer : Text → Answer}
    (hanswer : ∀ s, Misused (answer s)) : Misused (Answer.string name h wanted v answer) := by
  unfold Answer.string
  split
  · exact hanswer _
  · exact misused_refuse _ _

theorem misused_atom {v : Value} {answer : AtomId → Answer}
    (hanswer : ∀ cell, Misused (answer cell)) : Misused (Answer.atom name h v answer) := by
  unfold Answer.atom
  split
  · exact hanswer _
  · exact misused_refuse _ _

theorem misused_numerals : Misused (Arithmetic.numerals name h args) := by
  refine misused_mapM (fun v => ?_) args
  split
  · exact misused_ok _
  · exact misused_refuse _ _

theorem misused_sequence (v : Value) : Misused (Collection.sequence name h v) := by
  unfold Collection.sequence
  split
  · exact misused_ok _
  · exact misused_ok _
  · exact misused_ok _
  · exact misused_refuse _ _

theorem misused_entries (v : Value) : Misused (Collection.entries name h v) := by
  unfold Collection.entries
  split
  · exact misused_ok _
  · exact misused_ok _
  · exact misused_refuse _ _

theorem misused_size (v : Value) : Misused (Collection.size name h v) := by
  unfold Collection.size
  split
  · exact misused_ok _
  · exact misused_ok _
  · exact misused_ok _
  · exact misused_ok _
  · exact misused_ok _
  · exact misused_refuse _ _

theorem misused_total {empty : Int64} {int : Int64 → Int64 → Int64}
    {float : Float → Float → Float} : Misused (Arithmetic.total name h empty int float args) := by
  rw [Arithmetic.total_eq]
  refine misused_bind misused_numerals fun numbers => ?_
  split <;> exact misused_ok _

theorem misused_difference {unit : Int64} {int : Int64 → Int64 → Except Arithmetic.Break Int64}
    {float : Float → Float → Float} :
    Misused (Arithmetic.difference name h unit int float args) := by
  rw [Arithmetic.difference_eq]
  refine misused_bind misused_numerals fun numbers => ?_
  split
  · exact misused_error (.inl rfl)
  · exact misused_ok _
  · exact misused_ok _

theorem misused_modulo (x y : Value) : Misused (Arithmetic.modulo name h x y) := by
  unfold Arithmetic.modulo
  split
  · exact misused_ok _
  · exact misused_refuse _ _
  · exact misused_refuse _ _

theorem misused_conj (coll : Value) (vs : List Value) :
    Misused (Collection.conj name h coll vs) := by
  unfold Collection.conj
  split
  · exact misused_ok _
  · exact misused_ok _
  · exact misused_ok _
  · exact misused_refuse _ _

theorem misused_nth (coll index : Value) : Misused (Collection.nth name h coll index) := by
  unfold Collection.nth
  split
  · exact misused_refuse _ _
  · split
    · refine misused_check fun found => ?_
      split
      · exact misused_ok _
      · exact misused_error (.inr (.inr rfl))
    · exact misused_refuse _ _

theorem misused_rest (coll : Value) : Misused (Collection.rest name h coll) := by
  refine misused_bind (misused_sequence coll) fun items => ?_
  split
  · exact misused_ok _
  · exact misused_check fun _ => misused_ok _

theorem misused_assoc (coll : Value) (more : List Value) :
    Misused (Collection.assoc name h coll more) := by
  unfold Collection.assoc
  split
  · exact misused_error (.inl rfl)
  · exact misused_bind (misused_entries coll) fun _ => misused_ok _

theorem misused_get : Misused (Collection.get name h args) := by
  rw [Collection.get_eq]
  dsimp only
  split
  · exact misused_bind (misused_entries _) fun _ => misused_ok _
  · exact misused_bind (misused_entries _) fun _ => misused_ok _
  · exact misused_error (.inl rfl)

theorem misused_keyword (v : Value) : Misused (Answer.keyword name h v) := by
  unfold Answer.keyword
  split
  · exact misused_ok _
  · split <;> exact misused_ok _
  · exact misused_refuse _ _

theorem misused_gensym : Misused (Answer.gensym name h args) := by
  rw [Answer.gensym_eq]
  split
  · exact misused_ok _
  · exact misused_string fun stem => misused_ok _
  · exact misused_error (.inl rfl)

theorem misused_errorValue (v : Value) : Misused (Answer.errorValue name h v) := by
  unfold Answer.errorValue
  split
  · exact misused_ok _
  · exact misused_refuse _ _

/-- Every operation that refuses its arguments does so for their number, a kind or an index. -/
theorem Operation.misused_answer (op : Operation) (host : Host) (h : Heap) (args : List Value) :
    Misused (op.answer host h args) := by
  cases op with
  | add | multiply => exact misused_total
  | subtract | divide => exact misused_difference
  | modulo => exact misused_binary misused_modulo
  | equal => exact misused_variadic fun _ _ => misused_ok _
  | compare c =>
    exact misused_variadic fun _ _ => misused_bind misused_numerals fun _ => misused_ok _
  | deref => exact misused_unary fun _ => misused_atom fun _ => misused_ok _
  | reset => exact misused_binary fun _ _ => misused_atom fun _ => misused_ok _
  | readString | slurp | symbol => exact misused_unary fun _ => misused_string fun _ => misused_ok _
  | list | vector => exact misused_ok _
  | printReadably | printJoined | writeReadably | writeDisplayed =>
    exact misused_check fun _ => misused_ok _
  | isEmpty | count =>
    exact misused_unary fun v => misused_bind (misused_size v) fun _ => misused_ok _
  | cons =>
    exact misused_binary fun _ coll => misused_bind (misused_sequence coll) fun _ => misused_ok _
  | concat => exact misused_bind (misused_mapM misused_sequence args) fun _ => misused_ok _
  | conj => exact misused_variadic misused_conj
  | nth => exact misused_binary misused_nth
  | first =>
    refine misused_unary fun coll => misused_bind (misused_sequence coll) fun _ => ?_
    exact misused_check fun _ => misused_ok _
  | vec =>
    exact misused_unary fun coll => misused_bind (misused_sequence coll) fun _ => misused_ok _
  | rest => exact misused_unary misused_rest
  | hashMap =>
    unfold answer
    dsimp only
    split
    · exact misused_error (.inl rfl)
    · exact misused_ok _
  | assoc => exact misused_variadic misused_assoc
  | dissoc =>
    exact misused_variadic fun coll _ => misused_bind (misused_entries coll) fun _ => misused_ok _
  | get => exact misused_get
  | contains =>
    exact misused_binary fun coll _ => misused_bind (misused_entries coll) fun _ => misused_ok _
  | keys | vals =>
    exact misused_unary fun coll => misused_bind (misused_entries coll) fun _ => misused_ok _
  | keyword => exact misused_unary misused_keyword
  | gensym => exact misused_gensym
  | withMetadata => exact misused_binary fun _ _ => misused_ok _
  | errorValue => exact misused_unary misused_errorValue
  | clock =>
    unfold answer
    dsimp only
    split
    · exact misused_error (.inl rfl)
    · exact misused_ok _
  | atom | isSequential | isKind k | isTrue | isFalse | isNumber | isFunction | isMacro | metadata
  | throw | error => exact misused_unary fun _ => misused_ok _

end Misuse

/-- A call of an operation that fails, with what is left and why. -/
theorem Operation.call_error {op : Operation} {args : List Value} {w u : World} {e : Failure}
    (hfails : op.call args w = .error e u) :
    e.IsOwn ∧ (u = w ∨ ∃ s, e = .thrown (.object w.heap.objects.size) ∧
      u = { w with heap := (w.heap.makeString s).2 }) := by
  unfold Operation.call at hfails
  cases hanswer : op.answer w.host w.heap args with
  | error f =>
    rw [hanswer] at hfails
    cases hfails
    exact ⟨op.misused_answer _ _ _ f hanswer, .inl rfl⟩
  | ok reply =>
    have hclosed : w.heap.IsClosed fun _ => True := by constructor <;> intros <;> trivial
    rw [hanswer] at hfails
    have hreply := op.isFor_answer w.host hclosed (fun _ _ => trivial) reply hanswer
    exact Reply.perform_error hreply hfails

namespace Native

variable {eval : Evaluation} {apply : Application} {steps : Nat} {args : List Value} {w u : World}

/-- A native that fails changes nothing but that a raised text is a new value, unless it calls back;
and it fails for its arguments, a raised value, a text that cannot be read, closed output or a file
yet to be looked for. -/
theorem failing_changes_nothing {n : Native} (hn : ¬ n.CallsBack) {e : Failure}
    (hfails : Evaluator.invoke eval apply steps n args w = .error e u) :
    w.Untouched u ∧ e.IsOwn ∧
    (u = w ∨ ∃ s, e = .thrown (.object w.heap.objects.size) ∧
      u = { w with heap := (w.heap.makeString s).2 }) := by
  cases n with
  | operation op =>
    obtain ⟨hown, hleft⟩ := Operation.call_error hfails
    refine ⟨?_, hown, hleft⟩
    rcases hleft with rfl | ⟨s, -, rfl⟩
    · exact u.untouched_refl
    · exact w.untouched_makeString s
  | inert name => cases hfails
  | apply => exact absurd trivial hn
  | map => exact absurd trivial hn
  | swap => exact absurd trivial hn
  | eval => exact absurd trivial hn

/-- Two numbers, a list and an atom, where no output has room. -/
def cornered : World where
  heap :=
    { objects := #[⟨.int 7, none⟩, ⟨.int 0, none⟩, ⟨.list 0, none⟩, ⟨.atom 0, none⟩]
      cells := #[.ofList [.object 0]]
      atoms := #[.object 2] }
  console := { room := some 0 }

/-- A division by zero raises a new text, and printing a list finds no room. The list, the atom and
what has been written stay as they are. -/
theorem failing_changes_nothing_cornered :
    let call := Evaluator.invoke (Evaluator.eval 9 9) (Evaluator.apply (Evaluator.eval 9 9) 9) 9
    (∃ u, call (.operation .modulo) [.object 0, .object 1] cornered =
      .error (.thrown (.object 4)) u ∧ cornered.Untouched u) ∧
    ∃ u, call (.operation .writeReadably) [.object 2] cornered =
      .error (.host (Text.of "output closed")) u ∧ cornered.Untouched u := by
  intro call
  have hzero : call (.operation .modulo) [.object 0, .object 1] cornered =
      .error (.thrown (.object 4)) { cornered with
        heap := (cornered.heap.makeString (Text.of "division by zero")).2 } := rfl
  have hfull : call (.operation .writeReadably) [.object 2] cornered =
      .error (.host (Text.of "output closed")) cornered := rfl
  have hn : ∀ op, ¬ (Native.operation op).CallsBack := fun _ => id
  exact ⟨⟨_, hzero, (failing_changes_nothing (hn _) hzero).1⟩,
    ⟨_, hfull, (failing_changes_nothing (hn _) hfull).1⟩⟩

end Native

end Lisp
