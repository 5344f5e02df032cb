import DocSearch.Query.State
import DocSearch.Token.Cursor

/-!
# Parsing query text

Query text is parsed by reading its tokens from the first state to the last.
-/

namespace DocSearch

namespace Query

/-- The query that a list of tokens denotes.  The list is expected to end with the end of its text. -/
def ofTokens (rule : NameRule) (ts : List Token) : Except ParseError Query := do
  let st ← ts.foldlM (State.step rule) .start
  match st.query? with
  | some q => return q
  | none => .error ⟨st.expected, 0⟩

/-- The query that a text denotes, with local names as the given rule has them. -/
def parse (s : Text) (rule : NameRule := .ascii) : Except ParseError Query := ofTokens rule (tokens s)

end Query

end DocSearch
