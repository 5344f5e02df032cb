import DocSearch.Token

/-!
# Reading tokens

A cursor stands in a source text and yields one token after the other.  Every token before the end of the text
takes at least one byte (`Cursor.next_rest_lt`), so reading ends; at the end the cursor yields the end of the
text again and again.
-/

namespace DocSearch

/-- Letters, the underscore and all bytes above 0x7F start a word. -/
def startsWord (b : UInt8) : Bool := isLetter b || b == '_'.toUInt8 || 0x80 ≤ b

def continuesWord (b : UInt8) : Bool := startsWord b || isDigit b || b == '-'.toUInt8 || b == '.'.toUInt8

def startsWithDigit (s : Text) : Bool := s.head?.any isDigit

namespace Lexeme

/-- The word at the front of a text and the text after it. -/
def word (s : Text) : Lexeme × Text :=
  let w := s.takeWhile continuesWord
  (⟨match Keyword.ofWord? w with | some k => .keyword k | none => .identifier, w⟩, s.dropWhile continuesWord)

/-- The digits at the front of a text, with the point and the digits after them if a digit follows the point.
-/
def unsigned (s : Text) : Text × Text :=
  let whole := s.takeWhile isDigit
  match s.dropWhile isDigit with
  | b :: rest =>
    if b = '.'.toUInt8 && startsWithDigit rest then
      (whole ++ b :: rest.takeWhile isDigit, rest.dropWhile isDigit)
    else (whole, b :: rest)
  | [] => (whole, [])

/-- The punctuation mark that a byte is. -/
def punctuation? (b : UInt8) : Option Kind :=
  if b = ','.toUInt8 then some .comma
  else if b = '('.toUInt8 then some .openParen
  else if b = ')'.toUInt8 then some .closeParen
  else if b = ';'.toUInt8 then some .semicolon
  else if b = '='.toUInt8 then some .equal
  else none

/-- A string from its opening quote on; without a closing quote all of the rest is invalid. -/
def quoted (b : UInt8) (s : Text) : Lexeme × Text :=
  match s.cut b with
  | some (inside, rest) => (⟨.string, inside⟩, rest)
  | none => (⟨.invalid, b :: s⟩, [])

/-- A qualified name from its opening brace on; without a closing brace all of the rest is invalid. -/
def qualified (b : UInt8) (s : Text) : Lexeme × Text :=
  match s.cut '}'.toUInt8 with
  | some (uri, rest) =>
    (⟨.qualifiedName, b :: uri ++ '}'.toUInt8 :: rest.takeWhile continuesWord⟩,
      rest.dropWhile continuesWord)
  | none => (⟨.invalid, b :: s⟩, [])

/-- The lexeme at the front of the nonempty text `b :: s`, where `b` is no space, and the text after it. -/
def read (b : UInt8) (s : Text) : Lexeme × Text :=
  match punctuation? b with
  | some kind => (⟨kind, [b]⟩, s)
  | none =>
    if isQuote b then quoted b s
    else if b = '{'.toUInt8 then qualified b s
    else if isDigit b then (⟨.number, (unsigned (b :: s)).1⟩, (unsigned (b :: s)).2)
    else if b = '-'.toUInt8 && startsWithDigit s then (⟨.number, b :: (unsigned s).1⟩, (unsigned s).2)
    else if startsWord b then word (b :: s)
    else (⟨.invalid, [b]⟩, s)

/-! ### A lexeme takes at least one byte -/

private theorem length_dropWhile_le (p : UInt8 → Bool) (s : Text) : (s.dropWhile p).length ≤ s.length :=
  (List.dropWhile_sublist p).length_le

private theorem unsigned_length_le (s : Text) : (unsigned s).2.length ≤ s.length := by
  have h := length_dropWhile_le isDigit s
  unfold unsigned
  split
  · rename_i b rest heq
    rw [heq] at h
    have := length_dropWhile_le isDigit rest
    simp only [List.length_cons] at h
    split <;> simp <;> omega
  · simp

private theorem unsigned_length_lt {b : UInt8} (h : isDigit b = true) (s : Text) :
    (unsigned (b :: s)).2.length < (b :: s).length := by
  have hd := length_dropWhile_le isDigit s
  unfold unsigned
  rw [List.dropWhile_cons_of_pos h]
  split
  · rename_i c rest heq
    rw [heq] at hd
    have := length_dropWhile_le isDigit rest
    simp only [List.length_cons] at hd ⊢
    split <;> simp <;> omega
  · simp

private theorem cut_length_lt {b : UInt8} {s l r : Text} (h : s.cut b = some (l, r)) :
    r.length < s.length := by
  rw [(Text.cut_eq_some.1 h).1]
  simp
  omega

private theorem quoted_length_lt (b : UInt8) (s : Text) : (quoted b s).2.length < (b :: s).length := by
  unfold quoted
  split
  · rename_i h
    have := cut_length_lt h
    simp only [List.length_cons]
    omega
  · simp

private theorem qualified_length_lt (b : UInt8) (s : Text) : (qualified b s).2.length < (b :: s).length := by
  unfold qualified
  split
  · rename_i rest h
    have := cut_length_lt h
    have := length_dropWhile_le continuesWord rest
    simp only [List.length_cons]
    omega
  · simp

private theorem word_length_lt {b : UInt8} (h : startsWord b = true) (s : Text) :
    (word (b :: s)).2.length < (b :: s).length := by
  have hb : continuesWord b = true := by simp [continuesWord, h]
  have := length_dropWhile_le continuesWord s
  simp only [word, List.dropWhile_cons_of_pos hb, List.length_cons]
  omega

theorem read_length_lt (b : UInt8) (s : Text) : (read b s).2.length < (b :: s).length := by
  unfold read
  split
  · simp
  split
  · exact quoted_length_lt b s
  split
  · exact qualified_length_lt b s
  split
  · exact unsigned_length_lt ‹_› s
  split
  · have := unsigned_length_le s
    simp only [List.length_cons]
    omega
  split
  · exact word_length_lt ‹_› s
  · simp

end Lexeme

/-! ### Cursors -/

structure Cursor where
  position : Nat
  rest : Text
  deriving DecidableEq

namespace Cursor

/-- The next token and the cursor after it; at the end of the text the cursor stays there. -/
def next (c : Cursor) : Token × Cursor :=
  let start := c.position + (c.rest.takeWhile isSpace).length
  match c.rest.dropWhile isSpace with
  | [] => (⟨⟨.endOfText, []⟩, start⟩, ⟨start, []⟩)
  | b :: s =>
    let l := Lexeme.read b s
    (⟨l.1, start⟩, ⟨start + l.1.width, l.2⟩)

theorem next_rest_lt {c : Cursor} (h : c.next.1.kind ≠ .endOfText) :
    c.next.2.rest.length < c.rest.length := by
  have hd : (c.rest.dropWhile isSpace).length ≤ c.rest.length := (List.dropWhile_sublist isSpace).length_le
  revert h
  unfold next
  split
  · simp
  · rename_i b s heq
    have := Lexeme.read_length_lt b s
    rw [heq] at hd
    simp only [List.length_cons] at *
    intro _
    omega

/-- The tokens from the cursor on, the end of the text included. -/
def tokens (c : Cursor) : List Token :=
  if _h : c.next.1.kind = .endOfText then [c.next.1] else c.next.1 :: c.next.2.tokens
termination_by c.rest.length
decreasing_by exact next_rest_lt ‹_›

end Cursor

/-- The tokens of a text. -/
def tokens (s : Text) : List Token := Cursor.tokens ⟨0, s⟩

end DocSearch
