import DocSearch.Text

/-!
# Tokens

The tokens of query text: words, of which fourteen are keywords in any letter case, qualified names, strings,
numbers and five punctuation marks.  A byte that starts no token and an opening quote or brace that is never
closed make an invalid token.
-/

namespace DocSearch

inductive Keyword where
  | search
  | in_
  | where_
  | and
  | or
  | order
  | by_
  | asc
  | desc
  | limit
  | offset
  | true
  | false
  | null
  deriving DecidableEq

inductive Kind where
  | identifier
  | qualifiedName
  | string
  | number
  | comma
  | openParen
  | closeParen
  | semicolon
  | equal
  | invalid
  | endOfText
  | keyword (k : Keyword)
  deriving DecidableEq

/-- A kind of token with its text: a string without its quotes, all else as it stands in the source. -/
structure Lexeme where
  kind : Kind
  text : Text
  deriving DecidableEq

/-- A lexeme at its position in the source, counted in bytes. -/
structure Token extends Lexeme where
  position : Nat
  deriving DecidableEq

namespace Keyword

def spelling : Keyword → Text
  | search => ascii "SEARCH"
  | in_ => ascii "IN"
  | where_ => ascii "WHERE"
  | and => ascii "AND"
  | or => ascii "OR"
  | order => ascii "ORDER"
  | by_ => ascii "BY"
  | asc => ascii "ASC"
  | desc => ascii "DESC"
  | limit => ascii "LIMIT"
  | offset => ascii "OFFSET"
  | true => ascii "TRUE"
  | false => ascii "FALSE"
  | null => ascii "NULL"

def all : List Keyword :=
  [search, in_, where_, and, or, order, by_, asc, desc, limit, offset, true, false, null]

/-- The keyword that a word spells, in any letter case. -/
def ofWord? (word : Text) : Option Keyword := all.find? fun k => k.spelling == word.map toUpper

end Keyword

/-- The number of bytes that a lexeme takes up in the source. -/
def Lexeme.width (l : Lexeme) : Nat := if l.kind = .string then l.text.length + 2 else l.text.length

/-- The source bytes of a lexeme; the two quotes of a string are given. -/
def Lexeme.source (l : Lexeme) (quote : UInt8) : Text :=
  if l.kind = .string then quote :: l.text ++ [quote] else l.text

end DocSearch
