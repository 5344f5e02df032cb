import DocSearch.Text

/-!
# Search expressions

A search expression is a call of one of the engine's functions on quoted strings, sequences and further calls.
Its text is a list of segments in which the names of the functions are slots: spelling them with or without
namespace prefixes changes nothing else (`Segment.spell`).  Strings are written between single quotes as they
are.
-/

namespace DocSearch

/-- The functions of the search engine that occur in search expressions. -/
inductive Function where
  | search
  | collection
  | qname
  | andQuery
  | orQuery
  | elementValueQuery
  | indexOrder
  | elementReference
  deriving DecidableEq

namespace Function

def bareName : Function → Text
  | search => ascii "search"
  | collection => ascii "collection"
  | qname => ascii "QName"
  | andQuery => ascii "and-query"
  | orQuery => ascii "or-query"
  | elementValueQuery => ascii "element-value-query"
  | indexOrder => ascii "index-order"
  | elementReference => ascii "element-reference"

/-- Collections and names belong to the general function library, all else to the search library. -/
def prefixName : Function → Text
  | collection | qname => ascii "fn:"
  | _ => ascii "cts:"

end Function

inductive Expression where
  | string (s : Text)
  | call (f : Function) (args : List Expression)
  | sequence (items : List Expression)

/-- A piece of the text of an expression: bytes that are always the same, or the name of a function. -/
inductive Segment where
  | literal (s : Text)
  | name (f : Function)
  deriving DecidableEq

/-- The bytes of a segment, the name of a function with or without its prefix. -/
def Segment.spell (prefixes : Bool) : Segment → Text
  | literal s => s
  | name f => if prefixes then f.prefixName ++ f.bareName else f.bareName

namespace Expression

mutual

def segments : Expression → List Segment
  | string s => [.literal (ascii "'" ++ s ++ ascii "'")]
  | call f args => .name f :: .literal (ascii "(") :: segmentsAll args ++ [.literal (ascii ")")]
  | sequence items => .literal (ascii "(") :: segmentsAll items ++ [.literal (ascii ")")]

/-- The segments of several expressions with a comma between any two neighbours. -/
def segmentsAll : List Expression → List Segment
  | [] => []
  | [e] => segments e
  | e :: es => segments e ++ .literal (ascii ", ") :: segmentsAll es

end

end Expression

/-- The text of a list of segments. -/
def spellAll (prefixes : Bool) (segments : List Segment) : Text := segments.flatMap (Segment.spell prefixes)

end DocSearch
