import DocSearch.Decimal
import DocSearch.Double.Shortest

/-!
# Values

A value is a scalar or a sequence of scalars, and its lexical form is the text that it contributes to a search
expression: null contributes nothing, and the items of a sequence are joined with commas.
-/

namespace DocSearch

inductive Scalar where
  | null
  | string (s : Text)
  | bool (b : Bool)
  | int (n : Int64)
  | double (d : Double)
  deriving DecidableEq

inductive Value where
  | scalar (s : Scalar)
  | sequence (items : List Scalar)
  deriving DecidableEq

def Scalar.lexical : Scalar → Text
  | null => []
  | string s => s
  | bool b => if b then ascii "true" else ascii "false"
  | int n => Decimal.ofInt n.toInt
  | double d => d.lexical

namespace Value

def lexical : Value → Text
  | scalar s => s.lexical
  | sequence items => Text.join (ascii ",") (items.map Scalar.lexical)

/-- A sequence is not null, even if it is empty. -/
def isNull : Value → Bool
  | scalar .null => true
  | _ => false

def isSequence : Value → Bool
  | scalar _ => false
  | sequence _ => true

end Value

end DocSearch
