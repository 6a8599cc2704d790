import Lisp.Bounds
import Lisp.Command.Dump
import Lisp.Command.Flags
import Lisp.Command.Run
import Lisp.Command.Shell
import Lisp.Datum.Basic
import Lisp.Datum.Progress
import Lisp.Datum.Reader
import Lisp.Evaluator.Application
import Lisp.Evaluator.Basic
import Lisp.Evaluator.Eval
import Lisp.Evaluator.Forms
import Lisp.Evaluator.Template
import Lisp.Failure
import Lisp.FileTree
import Lisp.Heap.Basic
import Lisp.Heap.Equality
import Lisp.Heap.Rendering
import Lisp.Kind
import Lisp.Main
import Lisp.Native
import Lisp.Number.Decimal
import Lisp.Number.Literal
import Lisp.Number.Rounding
import Lisp.Number.Written
import Lisp.Operation.Answer
import Lisp.Operation.Arithmetic
import Lisp.Operation.Collection
import Lisp.Operation.Reply
import Lisp.Proofs.Command.Gathering
import Lisp.Proofs.Continuation
import Lisp.Proofs.Datum.Basic
import Lisp.Proofs.Datum.Concatenation
import Lisp.Proofs.Datum.Equality
import Lisp.Proofs.Datum.Grammar
import Lisp.Proofs.Datum.Layout
import Lisp.Proofs.Datum.Origin
import Lisp.Proofs.Datum.ParseTree
import Lisp.Proofs.Datum.Positions
import Lisp.Proofs.Datum.Reading
import Lisp.Proofs.Datum.Splicing
import Lisp.Proofs.Datum.Words
import Lisp.Proofs.Datum.Wrapping
import Lisp.Proofs.Evaluator.Calls
import Lisp.Proofs.Evaluator.Completeness
import Lisp.Proofs.Evaluator.Conduct
import Lisp.Proofs.Evaluator.Confinement
import Lisp.Proofs.Evaluator.Copying
import Lisp.Proofs.Evaluator.Events
import Lisp.Proofs.Evaluator.Expansion
import Lisp.Proofs.Evaluator.Faithfulness
import Lisp.Proofs.Evaluator.Faults
import Lisp.Proofs.Evaluator.Filling
import Lisp.Proofs.Evaluator.Fitting
import Lisp.Proofs.Evaluator.Limits
import Lisp.Proofs.Evaluator.Meaning
import Lisp.Proofs.Evaluator.Midway
import Lisp.Proofs.Evaluator.Mirror
import Lisp.Proofs.Evaluator.Nesting
import Lisp.Proofs.Evaluator.Program
import Lisp.Proofs.Evaluator.Quasiquote
import Lisp.Proofs.Evaluator.TailCalls
import Lisp.Proofs.Evaluator.Template
import Lisp.Proofs.Evaluator.Turns
import Lisp.Proofs.Evaluator.Unwinding
import Lisp.Proofs.Evaluator.Written
import Lisp.Proofs.Heap.Agreement
import Lisp.Proofs.Heap.Bisimulation
import Lisp.Proofs.Heap.Building
import Lisp.Proofs.Heap.Copy
import Lisp.Proofs.Heap.Depth
import Lisp.Proofs.Heap.Embedding
import Lisp.Proofs.Heap.Equality
import Lisp.Proofs.Heap.Loopless
import Lisp.Proofs.Heap.Mirror
import Lisp.Proofs.Heap.Renaming
import Lisp.Proofs.Heap.Rendering
import Lisp.Proofs.Heap.Soundness
import Lisp.Proofs.Heap.Symmetry
import Lisp.Proofs.Heap.Termination
import Lisp.Proofs.Heap.Tidiness
import Lisp.Proofs.Heap.Unfolding
import Lisp.Proofs.Heap.Veil
import Lisp.Proofs.Legible
import Lisp.Proofs.Number.Digits
import Lisp.Proofs.Number.Literal
import Lisp.Proofs.Number.Nearest
import Lisp.Proofs.Number.Shortest
import Lisp.Proofs.Number.Spelling
import Lisp.Proofs.Operation.Conduct
import Lisp.Proofs.Operation.Failing
import Lisp.Proofs.Operation.Integers
import Lisp.Proofs.Operation.Mirror
import Lisp.Proofs.RoundTrip
import Lisp.Proofs.Session.Abreast
import Lisp.Proofs.Session.Capture
import Lisp.Proofs.Session.Clauses
import Lisp.Proofs.Session.Connectives
import Lisp.Proofs.Session.Equality
import Lisp.Proofs.Session.Extensionality
import Lisp.Proofs.Session.FiniteMap
import Lisp.Proofs.Session.Freshness
import Lisp.Proofs.Session.Keys
import Lisp.Proofs.Session.Loading
import Lisp.Proofs.Session.Macros
import Lisp.Proofs.Session.Malformed
import Lisp.Proofs.Session.Mapping
import Lisp.Proofs.Session.Mutation
import Lisp.Proofs.Session.Outline
import Lisp.Proofs.Session.Parameters
import Lisp.Proofs.Session.Quoting
import Lisp.Proofs.Session.Reachable
import Lisp.Proofs.Session.Requests
import Lisp.Proofs.Session.Safety
import Lisp.Proofs.Session.Scoping
import Lisp.Proofs.Session.ShortCircuit
import Lisp.Proofs.Session.Stages
import Lisp.Proofs.Session.Swapping
import Lisp.Proofs.Token.Atoms
import Lisp.Proofs.Token.Lexing
import Lisp.Proofs.World.Adding
import Lisp.Proofs.World.Conduct
import Lisp.Proofs.World.Confinement
import Lisp.Proofs.World.Embedding
import Lisp.Proofs.World.Mirror
import Lisp.Proofs.World.Quiet
import Lisp.Proofs.World.Resolution
import Lisp.Proofs.World.Soundness
import Lisp.Scopes
import Lisp.Sequence
import Lisp.Sequence.Tree
import Lisp.Session
import Lisp.Source
import Lisp.Special
import Lisp.Text.Basic
import Lisp.Text.Printable
import Lisp.Text.Quoted
import Lisp.Text.Rope
import Lisp.Text.Utf8
import Lisp.Token.Lexer
import Lisp.World
