import DocSearch.Text

/-!
# Element names

An element name is a namespace URI, empty for no namespace, and a local name.  Which texts are local names is
decided by a rule from outside, which is only ever asked: the rule is a parameter of all that reads query text.
-/

namespace DocSearch

structure ElementName where
  uri : Text
  localName : Text
  deriving DecidableEq

/-- A rule that accepts the names without prefix among the zero-terminated texts. -/
abbrev NameRule := Text → Bool

namespace NameRule

/-- The rule for ASCII: a letter or an underscore, then letters, digits, underscores, hyphens and dots. -/
def ascii : NameRule
  | [] => false
  | b :: s =>
    (isLetter b || b == '_'.toUInt8) &&
      s.all fun c => isLetter c || isDigit c || c == '_'.toUInt8 || c == '-'.toUInt8 || c == '.'.toUInt8

/-- Whether a text is a local name.  The empty text is none, and the rule is asked about the text up to its
first zero byte. -/
def admits (rule : NameRule) (name : Text) : Bool := !name.isEmpty && rule name.beforeZero

end NameRule

end DocSearch
