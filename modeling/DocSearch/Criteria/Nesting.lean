import DocSearch.Criteria

/-!
# Nested chains

Criteria are read from chains of operands: `AND` binds more tightly than `OR`, and parentheses nest.  A level
holds the operands read so far between two parentheses, and a nesting is the innermost level with those around
it.
-/

namespace DocSearch

/-- The operands of one level: the finished `AND` chains, and the operands of the chain being read. -/
structure Level where
  chains : List Criteria := []
  operands : List Criteria := []

namespace Level

/-- A further operand of the chain being read. -/
def push (l : Level) (c : Criteria) : Level := { l with operands := l.operands ++ [c] }

/-- The chain being read is finished. -/
def endChain (l : Level) : Level := ⟨l.chains ++ [.joined .and l.operands], []⟩

/-- The criteria of a finished level. -/
def criteria (l : Level) : Criteria := .joined .or l.endChain.chains

end Level

structure Nesting where
  inner : Level := {}
  /-- The levels around the inner one, the nearest first. -/
  outer : List Level := []

namespace Nesting

def push (n : Nesting) (c : Criteria) : Nesting := { n with inner := n.inner.push c }

def endChain (n : Nesting) : Nesting := { n with inner := n.inner.endChain }

/-- A level opens inside the inner one. -/
def enter (n : Nesting) : Nesting := ⟨{}, n.inner :: n.outer⟩

/-- The inner level ends and becomes an operand of the level around it. -/
def leave? (n : Nesting) : Option Nesting :=
  match n.outer with
  | [] => none
  | l :: ls => some ⟨l.push n.inner.criteria, ls⟩

end Nesting

end DocSearch
