import DocSearch.Token

/-!
# Faults of query text

What can be wrong with query text, the words in which it is reported, and how an invalid token takes
precedence over whatever was expected in its place.
-/

namespace DocSearch

/-- The two clauses that take a count. -/
inductive CountClause where
  | limit
  | offset
  deriving DecidableEq

inductive Fault where
  | expectedSearch
  | expectedCollection
  | expectedBy
  | expectedField
  | invalidName (name : Text)
  | expectedComparator
  | expectedListStart
  | expectedListEnd
  | expectedLiteral
  | numberOutOfRange
  | expectedClosing
  | expectedCount (clause : CountClause)
  | countTooLarge (clause : CountClause)
  | zeroLimit
  | offsetOutOfRange
  | offsetWithoutLimit
  | trailingToken
  | unterminatedString
  | unterminatedUri
  | unexpectedByte (text : Text)
  deriving DecidableEq

/-- A fault and the position of the token at which it shows. -/
structure ParseError where
  fault : Fault
  position : Nat
  deriving DecidableEq

def CountClause.word : CountClause → Text
  | limit => ascii "LIMIT"
  | offset => ascii "OFFSET"

def Fault.message : Fault → Text
  | expectedSearch => ascii "Expected SEARCH"
  | expectedCollection => ascii "Expected collection name string after IN"
  | expectedBy => ascii "Expected BY after ORDER"
  | expectedField => ascii "Expected field name"
  | invalidName name => ascii "Invalid element name '" ++ name ++ ascii "'"
  | expectedComparator => ascii "Expected = or IN after field name"
  | expectedListStart => ascii "Expected ( after IN"
  | expectedListEnd => ascii "Expected ) after IN list"
  | expectedLiteral => ascii "Expected literal value"
  | numberOutOfRange => ascii "Numeric literal out of range"
  | expectedClosing => ascii "Expected ) to close expression"
  | expectedCount clause => ascii "Expected non-negative integer after " ++ clause.word
  | countTooLarge clause => ascii "Invalid " ++ clause.word ++ ascii " value"
  | zeroLimit => ascii "LIMIT must be greater than zero"
  | offsetOutOfRange => ascii "OFFSET out of range for LIMIT"
  | offsetWithoutLimit => ascii "OFFSET requires a preceding LIMIT"
  | trailingToken => ascii "Unexpected token after query"
  | unterminatedString => ascii "Unterminated string literal"
  | unterminatedUri => ascii "Unterminated namespace URI in qualified name"
  | unexpectedByte text => ascii "Unexpected character '" ++ text ++ ascii "'"

namespace Token

/-- What is wrong with an invalid token, by its first byte. -/
def fault? (t : Token) : Option Fault :=
  if t.kind = .invalid then
    match t.text with
    | [] => none
    | b :: s =>
      if isQuote b then some .unterminatedString
      else if b = '{'.toUInt8 then some .unterminatedUri
      else some (.unexpectedByte (b :: s))
  else none

/-- The error of a token in a place where it must not stand: its own fault if it is invalid, else the given
one. -/
def refuse {α : Type} (t : Token) (fault : Fault) : Except ParseError α :=
  .error ⟨t.fault?.getD fault, t.position⟩

end Token

end DocSearch
