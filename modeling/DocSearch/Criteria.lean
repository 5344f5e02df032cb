import DocSearch.ElementName
import DocSearch.Value

/-!
# Criteria

Criteria are trees: a leaf compares an element with a value, and a composite joins its children by one
connective.  A tree that is put together by hand may contain `null` in place of a composite, and composites
without children; `composite?` makes neither.
-/

namespace DocSearch

inductive Connective where
  | and
  | or
  deriving DecidableEq

inductive Criteria where
  | leaf (name : ElementName) (value : Value)
  | composite (op : Connective) (children : List Criteria)
  | null

/-- What is wrong with criteria that cannot be made or compiled. -/
inductive CriteriaFault where
  | noChild (op : Connective)
  | nullComposite
  | emptyComposite
  deriving DecidableEq

def Connective.word : Connective → Text
  | and => ascii "and"
  | or => ascii "or"

def CriteriaFault.message : CriteriaFault → Text
  | noChild op => ascii "Composite criteria requires at least one child (operator " ++ op.word ++ ascii ")"
  | nullComposite => ascii "Cannot compile a null composite criteria"
  | emptyComposite => ascii "Cannot compile a composite criteria without children"

namespace Criteria

/-- A composite over the given children, of which there must be one. -/
def composite? (op : Connective) (children : List Criteria) : Except CriteriaFault Criteria :=
  if children.isEmpty then .error (.noChild op) else .ok (composite op children)

/-- The given trees as one: a single tree as it is, several under one composite. -/
def joined (op : Connective) : List Criteria → Criteria
  | [c] => c
  | cs => composite op cs

/-! ### Equality -/

mutual

def decEq : (c d : Criteria) → Decidable (c = d)
  | leaf name value, leaf name' value' => decidable_of_iff (name = name' ∧ value = value') (by simp)
  | composite op cs, composite op' cs' =>
    have := decEqAll cs cs'
    decidable_of_iff (op = op' ∧ cs = cs') (by simp)
  | null, null => isTrue rfl
  | leaf .., composite .. | leaf .., null | composite .., leaf .. | composite .., null | null, leaf ..
  | null, composite .. => isFalse nofun

def decEqAll : (cs ds : List Criteria) → Decidable (cs = ds)
  | [], [] => isTrue rfl
  | c :: cs, d :: ds =>
    have := decEq c d
    have := decEqAll cs ds
    decidable_of_iff (c = d ∧ cs = ds) (by simp)
  | [], _ :: _ | _ :: _, [] => isFalse nofun

end

instance : DecidableEq Criteria := decEq

/-! ### Counting nodes -/

mutual

/-- The number of leaves. -/
def leaves : Criteria → Nat
  | leaf .. => 1
  | composite _ cs => leavesAll cs
  | null => 0

def leavesAll : List Criteria → Nat
  | [] => 0
  | c :: cs => c.leaves + leavesAll cs

end

mutual

/-- The number of composites, empty ones included. -/
def composites : Criteria → Nat
  | leaf .. => 0
  | composite _ cs => 1 + compositesAll cs
  | null => 0

def compositesAll : List Criteria → Nat
  | [] => 0
  | c :: cs => c.composites + compositesAll cs

end

end Criteria

end DocSearch
