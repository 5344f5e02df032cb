import DocSearch.Query.Compile
import DocSearch.Query.Parse
import DocSearch.Query.Summary

/-!
# Building queries

A builder puts a query together step by step, as a caller of the library does: criteria are built on a stack, and the
parts of the query are set or made absent one at a time.  A step that fails changes nothing.
-/

namespace DocSearch

structure Builder where
  /-- The criteria under construction, the latest first. -/
  stack : List Criteria := []
  query : Query := {}
  /-- Whether the query is compiled with namespace prefixes. -/
  prefixes : Bool := false

inductive BuildStep where
  | leaf (name : ElementName) (value : Value)
  | null
  | duplicate
  | drop
  /-- The latest `count` criteria under one composite, which must not be empty if that is checked. -/
  | composite (checked : Bool) (op : Connective) (count : Nat)
  /-- The latest criteria become those of the query. -/
  | useCriteria
  | noCriteria
  | collection (name : Option Text)
  | skip (n : Option UInt64)
  | limit (n : Option UInt64)
  | sort (key : SortKey)
  | emptySort
  | noSort
  | prefixes (on : Bool)
  | parse (text : Text)

inductive BuildError where
  | criteria (f : CriteriaFault)
  | parse (e : ParseError)
  /-- The stack holds fewer criteria than the step needs. -/
  | shortStack

namespace Builder

def push (b : Builder) (c : Criteria) : Builder := { b with stack := c :: b.stack }

/-- The builder after a step. -/
def apply (b : Builder) (step : BuildStep) (rule : NameRule := .ascii) : Except BuildError Builder :=
  match step with
  | .leaf name value => .ok (b.push (.leaf name value))
  | .null => .ok (b.push .null)
  | .duplicate =>
    match b.stack with
    | [] => .error .shortStack
    | c :: _ => .ok (b.push c)
  | .drop =>
    match b.stack with
    | [] => .error .shortStack
    | _ :: cs => .ok { b with stack := cs }
  | .composite checked op count =>
    if b.stack.length < count then .error .shortStack
    else
      let children := (b.stack.take count).reverse
      let rest := { b with stack := b.stack.drop count }
      if checked then
        match Criteria.composite? op children with
        | .ok c => .ok (rest.push c)
        | .error f => .error (.criteria f)
      else .ok (rest.push (.composite op children))
  | .useCriteria =>
    match b.stack with
    | [] => .error .shortStack
    | c :: _ => .ok { b with query := { b.query with criteria := some c } }
  | .noCriteria => .ok { b with query := { b.query with criteria := none } }
  | .collection name => .ok { b with query := { b.query with collection := name } }
  | .skip n => .ok { b with query := { b.query with skip := n } }
  | .limit n => .ok { b with query := { b.query with limit := n } }
  | .sort key => .ok { b with query := { b.query with sort := some (b.query.sortKeys ++ [key]) } }
  | .emptySort => .ok { b with query := { b.query with sort := some [] } }
  | .noSort => .ok { b with query := { b.query with sort := none } }
  | .prefixes on => .ok { b with prefixes := on }
  | .parse text =>
    match Query.parse text rule with
    | .ok q => .ok { b with query := q }
    | .error e => .error (.parse e)

/-- The compiled query, as far as it has been built. -/
def compiled (b : Builder) : Except CriteriaFault Text := b.query.compile b.prefixes

end Builder

end DocSearch
