import DocSearch.Criteria.Nesting
import DocSearch.Decimal
import DocSearch.Query
import DocSearch.Query.Fault
import DocSearch.Value.Numeral

/-!
# Reading states

Query text is read token by token: a state holds the part of the query that is known and the place inside the
grammar, and `State.step` takes a token to the next state or refuses it.  The grammar is

    query      := SEARCH [IN string] [WHERE expression] [ORDER BY key {, key}] [LIMIT n [OFFSET n]] [;]
    expression := conjunction {OR conjunction}
    conjunction := comparison {AND comparison}
    comparison := ( expression ) | field = literal | field IN ( literal {, literal} )
    key        := field [ASC | DESC]

and a token is refused as soon as no query begins with the tokens up to it.
-/

namespace DocSearch

/-- The last clause that was read, in the order in which clauses may follow each other. -/
inductive Clause where
  | search
  | collection
  | criteria
  | order
  | limit
  | offset
  | semicolon
  deriving DecidableEq

/-- A place inside the criteria. -/
inductive CriteriaPlace where
  | operand
  | comparator (name : ElementName)
  | value (name : ElementName)
  | listStart (name : ElementName)
  | listValue (name : ElementName) (values : List Value)
  | listNext (name : ElementName) (values : List Value)
  | joint

/-- A place inside the sort keys. -/
inductive SortPlace where
  | field
  | direction (name : ElementName)
  | next

/-- How far a query has been read. -/
inductive State where
  | start
  /-- After a whole clause. -/
  | clauses (last : Clause) (q : Query)
  | collection (q : Query)
  | criteria (q : Query) (nesting : Nesting) (place : CriteriaPlace)
  | by_ (q : Query)
  | sort (q : Query) (keys : List SortKey) (place : SortPlace)
  | limit (q : Query)
  | offset (q : Query)
  | done (q : Query)

namespace Clause

def rank : Clause → Nat
  | search => 0
  | collection => 1
  | criteria => 2
  | order => 3
  | limit => 4
  | offset => 5
  | semicolon => 6

/-- Whether the clause `next` may still follow after `last`. -/
def precedes (last next : Clause) : Bool := last.rank < next.rank

end Clause

/-! ### Single tokens -/

namespace Token

/-- The given name, if its local part is a local name. -/
def checked (rule : NameRule) (t : Token) (name : ElementName) : Except ParseError ElementName :=
  if rule.admits name.localName then .ok name else t.refuse (.invalidName name.localName)

/-- The field that a token names. -/
def field (rule : NameRule) (t : Token) : Except ParseError ElementName :=
  match t.kind with
  | .identifier => t.checked rule ⟨[], t.text⟩
  | .qualifiedName =>
    match Text.cut '}'.toUInt8 (t.text.drop 1) with
    | some (uri, localName) => t.checked rule ⟨uri, localName⟩
    | none => t.refuse .expectedField
  | _ => t.refuse .expectedField

/-- The value of a literal. -/
def literal (t : Token) : Except ParseError Value :=
  match t.kind with
  | .string => .ok (.scalar (.string t.text))
  | .number =>
    match Scalar.ofNumeral? t.text with
    | some s => .ok (.scalar s)
    | none => t.refuse .numberOutOfRange
  | .keyword .true => .ok (.scalar (.bool true))
  | .keyword .false => .ok (.scalar (.bool false))
  | .keyword .null => .ok (.scalar .null)
  | _ => t.refuse .expectedLiteral

/-- The count of a clause: a number without sign and point. -/
def count (t : Token) (clause : CountClause) : Except ParseError UInt64 :=
  if t.kind = .number ∧ t.text.all isDigit then
    match Decimal.word? t.text with
    | some n => .ok n
    | none => t.refuse (.countTooLarge clause)
  else t.refuse (.expectedCount clause)

end Token

/-! ### Steps -/

/-- The criteria of a membership test: one comparison per value. -/
def membership (name : ElementName) (values : List Value) : Criteria :=
  .joined .or (values.map (.leaf name))

namespace State

/-- The last clause and the query so far, in a state where a clause may end. -/
def boundary? : State → Option (Clause × Query)
  | clauses last q => some (last, q)
  | criteria q ⟨level, []⟩ .joint => some (.criteria, { q with criteria := some level.criteria })
  | sort q keys (.direction name) => some (.order, { q with sort := some (keys ++ [⟨name, false⟩]) })
  | sort q keys .next => some (.order, { q with sort := some keys })
  | _ => none

/-- What is missing when a token is refused. -/
def expected : State → Fault
  | start => .expectedSearch
  | collection _ => .expectedCollection
  | criteria _ _ .operand => .expectedField
  | criteria _ _ (.comparator _) => .expectedComparator
  | criteria _ _ (.value _) => .expectedLiteral
  | criteria _ _ (.listStart _) => .expectedListStart
  | criteria _ _ (.listValue ..) => .expectedLiteral
  | criteria _ _ (.listNext ..) => .expectedListEnd
  | criteria _ _ .joint => .expectedClosing
  | by_ _ => .expectedBy
  | sort _ _ .field => .expectedField
  | limit _ => .expectedCount .limit
  | offset _ => .expectedCount .offset
  | _ => .trailingToken

/-- The first token after the clause `last`. -/
def nextClause (last : Clause) (q : Query) (t : Token) : Except ParseError State :=
  match t.kind with
  | .keyword .in_ => if last.precedes .collection then .ok (collection q) else t.refuse .trailingToken
  | .keyword .where_ =>
    if last.precedes .criteria then .ok (criteria q {} .operand) else t.refuse .trailingToken
  | .keyword .order => if last.precedes .order then .ok (by_ q) else t.refuse .trailingToken
  | .keyword .limit => if last.precedes .limit then .ok (limit q) else t.refuse .trailingToken
  | .keyword .offset =>
    if last = .limit then .ok (offset q)
    else if last.precedes .limit then t.refuse .offsetWithoutLimit
    else t.refuse .trailingToken
  | .semicolon => if last.precedes .semicolon then .ok (clauses .semicolon q) else t.refuse .trailingToken
  | .endOfText => .ok (done q)
  | _ => t.refuse .trailingToken

/-- A token where a clause may end and nothing else is possible, or where it is refused. -/
def stepBoundary (st : State) (t : Token) : Except ParseError State :=
  match st.boundary? with
  | some (last, q) => nextClause last q t
  | none => t.refuse st.expected

/-- A token inside the criteria. -/
def stepCriteria (rule : NameRule) (q : Query) (n : Nesting) (place : CriteriaPlace) (t : Token) :
    Except ParseError State :=
  match place, t.kind with
  | .operand, .openParen => .ok (criteria q n.enter .operand)
  | .operand, _ => do return criteria q n (.comparator (← t.field rule))
  | .comparator name, .equal => .ok (criteria q n (.value name))
  | .comparator name, .keyword .in_ => .ok (criteria q n (.listStart name))
  | .value name, _ => do return criteria q (n.push (.leaf name (← t.literal))) .joint
  | .listStart name, .openParen => .ok (criteria q n (.listValue name []))
  | .listValue name values, _ => do return criteria q n (.listNext name (values ++ [← t.literal]))
  | .listNext name values, .comma => .ok (criteria q n (.listValue name values))
  | .listNext name values, .closeParen => .ok (criteria q (n.push (membership name values)) .joint)
  | .joint, .keyword .and => .ok (criteria q n .operand)
  | .joint, .keyword .or => .ok (criteria q n.endChain .operand)
  | .joint, .closeParen =>
    match n.leave? with
    | some n' => .ok (criteria q n' .joint)
    | none => stepBoundary (criteria q n .joint) t
  | place, _ => stepBoundary (criteria q n place) t

/-- A token inside the sort keys. -/
def stepSort (rule : NameRule) (q : Query) (keys : List SortKey) (place : SortPlace) (t : Token) :
    Except ParseError State :=
  match place, t.kind with
  | .field, _ => do return sort q keys (.direction (← t.field rule))
  | .direction name, .keyword .desc => .ok (sort q (keys ++ [⟨name, true⟩]) .next)
  | .direction name, .keyword .asc => .ok (sort q (keys ++ [⟨name, false⟩]) .next)
  | .direction name, .comma => .ok (sort q (keys ++ [⟨name, false⟩]) .field)
  | .next, .comma => .ok (sort q keys .field)
  | place, _ => stepBoundary (sort q keys place) t

/-- The limit of a page. -/
def stepLimit (q : Query) (t : Token) : Except ParseError State := do
  let n ← t.count .limit
  if n = 0 then t.refuse .zeroLimit else return clauses .limit { q with limit := some n }

/-- The offset of a page: the last result of the page must still be a word. -/
def stepOffset (q : Query) (t : Token) : Except ParseError State := do
  let n ← t.count .offset
  if n ≤ Decimal.maxWord - q.limit.getD 0 then return clauses .offset { q with skip := some n }
  else t.refuse .offsetOutOfRange

/-- The state after a further token, or why the token is refused. -/
def step (rule : NameRule) (st : State) (t : Token) : Except ParseError State :=
  match st with
  | start => if t.kind = .keyword .search then .ok (clauses .search {}) else t.refuse .expectedSearch
  | collection q =>
    if t.kind = .string then .ok (clauses .collection { q with collection := some t.text })
    else t.refuse .expectedCollection
  | criteria q n place => stepCriteria rule q n place t
  | by_ q => if t.kind = .keyword .by_ then .ok (sort q [] .field) else t.refuse .expectedBy
  | sort q keys place => stepSort rule q keys place t
  | limit q => stepLimit q t
  | offset q => stepOffset q t
  | st => stepBoundary st t

/-- The query, once the end of the text has been read. -/
def query? : State → Option Query
  | done q => some q
  | _ => none

end State

end DocSearch
