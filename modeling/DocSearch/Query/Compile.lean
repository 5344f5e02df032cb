import DocSearch.Expression
import DocSearch.Query

/-!
# Compiling queries

A query is compiled to a call of `search` on a collection, a criteria expression and an order, followed by the
bounds of its page if it has a limit.  Criteria that contain `null` or an empty composite cannot be compiled;
the fault is that of the first such node, parents before children and children from left to right.
-/

namespace DocSearch

/-- The call of `QName` on the two parts of a name. -/
def ElementName.expression (name : ElementName) : Expression :=
  .call .qname [.string name.uri, .string name.localName]

def Connective.function : Connective → Function
  | and => .andQuery
  | or => .orQuery

namespace Criteria

mutual

def expression? : Criteria → Except CriteriaFault Expression
  | leaf name value => .ok (.call .elementValueQuery [name.expression, .string value.lexical])
  | composite _ [] => .error .emptyComposite
  | composite op (c :: cs) => do
    let e ← expression? c
    let es ← expressions? cs
    return .call op.function [.sequence (e :: es)]
  | null => .error .nullComposite

def expressions? : List Criteria → Except CriteriaFault (List Expression)
  | [] => .ok []
  | c :: cs => do
    let e ← expression? c
    let es ← expressions? cs
    return e :: es

end

end Criteria

def SortKey.expression (key : SortKey) : Expression :=
  .call .indexOrder
    [.call .elementReference [key.name.expression],
      .sequence [.string (if key.descending then ascii "descending" else ascii "ascending")]]

namespace Query

/-- The call of `collection`, with no argument for all collections. -/
def collectionExpression (q : Query) : Expression := .call .collection (q.collection.toList.map .string)

/-- The expression of the criteria, the empty sequence if there are none. -/
def criteriaExpression? (q : Query) : Except CriteriaFault Expression :=
  match q.criteria with
  | none => .ok (.sequence [])
  | some c => c.expression?

def sortExpression (q : Query) : Expression := .sequence (q.sortKeys.map SortKey.expression)

def expression? (q : Query) : Except CriteriaFault Expression := do
  let criteria ← q.criteriaExpression?
  return .call .search [q.collectionExpression, criteria, q.sortExpression]

/-- The bounds of the page: its first and its last result, counted from one. -/
def pageBounds (q : Query) : Text :=
  match q.limit with
  | none => []
  | some limit =>
    ascii "[" ++ Decimal.sum q.offset 1 ++ ascii " to " ++ Decimal.sum q.offset limit ++ ascii "]"

/-- The segments of the compiled query. -/
def segments? (q : Query) : Except CriteriaFault (List Segment) := do
  let e ← q.expression?
  return e.segments ++ [.literal q.pageBounds]

/-- The text of the compiled query, with or without namespace prefixes on the names of its functions. -/
def compile (prefixes : Bool) (q : Query) : Except CriteriaFault Text := do
  let segments ← q.segments?
  return spellAll prefixes segments

end Query

end DocSearch
