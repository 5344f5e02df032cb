import DocSearch.Criteria

/-!
# Queries

A query says where to search, what to match, how to order the results and which page of them to return.  Every
part may be absent.
-/

namespace DocSearch

structure SortKey where
  name : ElementName
  descending : Bool
  deriving DecidableEq

structure Query where
  /-- Absent for all collections. -/
  collection : Option Text := none
  /-- Absent to match every document. -/
  criteria : Option Criteria := none
  /-- How many results to leave out; it matters only together with a limit. -/
  skip : Option UInt64 := none
  /-- Present to ask for one page of so many results. -/
  limit : Option UInt64 := none
  /-- The first key takes precedence; no key at all keeps the default order. -/
  sort : Option (List SortKey) := none
  deriving DecidableEq

namespace Query

def leaves (q : Query) : Nat := q.criteria.elim 0 Criteria.leaves

def composites (q : Query) : Nat := q.criteria.elim 0 Criteria.composites

/-- The sort keys, none if they are absent. -/
def sortKeys (q : Query) : List SortKey := q.sort.getD []

/-- The number of results that are left out, zero if it is not given. -/
def offset (q : Query) : UInt64 := q.skip.getD 0

end Query

end DocSearch
