/-!
# Texts

Texts are byte strings: no encoding is assumed of the bytes above 0x7F, and letters, digits and blanks are
those of ASCII.  The key fact: `cut` splits a text at the first occurrence of a byte and loses only that byte
(`cut_eq_some`, `cut_eq_none`).
-/

namespace DocSearch

/-- A byte string. -/
abbrev Text := List UInt8

/-- The bytes of an ASCII literal. -/
def ascii (s : String) : Text := s.toList.map Char.toUInt8

/-! ### Bytes -/

def isDigit (b : UInt8) : Bool := '0'.toUInt8 ≤ b && b ≤ '9'.toUInt8

def isUpper (b : UInt8) : Bool := 'A'.toUInt8 ≤ b && b ≤ 'Z'.toUInt8

def isLower (b : UInt8) : Bool := 'a'.toUInt8 ≤ b && b ≤ 'z'.toUInt8

def isLetter (b : UInt8) : Bool := isUpper b || isLower b

/-- Space, tab, line feed, vertical tab, form feed or carriage return. -/
def isSpace (b : UInt8) : Bool := b == 32 || (9 ≤ b && b ≤ 13)

/-- Space, tab, line feed or carriage return. -/
def isBlank (b : UInt8) : Bool := b == 32 || b == 9 || b == 10 || b == 13

/-- A single or a double quote. -/
def isQuote (b : UInt8) : Bool := b == 39 || b == 34

def toUpper (b : UInt8) : UInt8 := if isLower b then b - 32 else b

def toLower (b : UInt8) : UInt8 := if isUpper b then b + 32 else b

/-! ### Cutting and trimming -/

namespace Text

/-- The text before the first `b` and the text after it. -/
def cut (b : UInt8) (s : Text) : Option (Text × Text) :=
  match s.dropWhile (· != b) with
  | [] => none
  | _ :: rest => some (s.takeWhile (· != b), rest)

theorem cut_eq_some {b : UInt8} {s l r : Text} : s.cut b = some (l, r) ↔ s = l ++ b :: r ∧ b ∉ l := by
  induction s generalizing l with
  | nil => simp [cut]
  | cons c s ih =>
    by_cases hc : c = b
    · subst hc
      cases l with
      | nil => simp [cut, eq_comm]
      | cons d l => simp [cut]; intro h _ h'; exact absurd h h'
    · have hcut : cut b (c :: s) = (cut b s).map fun p => (c :: p.1, p.2) := by
        simp only [cut, List.dropWhile_cons, List.takeWhile_cons, bne_iff_ne, ne_eq, hc, not_false_eq_true,
          ↓reduceIte]
        cases s.dropWhile (· != b) <;> rfl
      rw [hcut]
      cases l with
      | nil => simp [hc]
      | cons d l =>
        constructor
        · intro h
          obtain ⟨⟨l', r'⟩, hs, he⟩ := Option.map_eq_some_iff.1 h
          simp only [Prod.mk.injEq, List.cons.injEq] at he
          obtain ⟨⟨rfl, rfl⟩, rfl⟩ := he
          have := ih.1 hs
          exact ⟨by simp [this.1], by simp [this.2, Ne.symm hc]⟩
        · rintro ⟨hs, hb⟩
          simp only [List.cons_append, List.cons.injEq] at hs
          obtain ⟨rfl, hs⟩ := hs
          rw [ih.2 ⟨hs, fun h => hb (List.mem_cons_of_mem _ h)⟩]
          rfl

theorem cut_eq_none {b : UInt8} {s : Text} : s.cut b = none ↔ b ∉ s := by
  constructor
  · intro h hb
    obtain ⟨l, r, hs, hl⟩ := List.eq_append_cons_of_mem hb
    rw [cut_eq_some.2 ⟨hs, hl⟩] at h
    cases h
  · intro hb
    cases h : s.cut b with
    | none => rfl
    | some p =>
      rw [(cut_eq_some.1 h).1] at hb
      simp at hb

/-- A text without the blanks at its two ends. -/
def trim (s : Text) : Text := ((s.dropWhile isBlank).reverse.dropWhile isBlank).reverse

/-- The lines of a text, each without its line feed.  A last line without line feed counts if it is not empty.
-/
def lines : Text → List Text
  | [] => []
  | b :: s =>
    if b = 10 then [] :: lines s
    else
      match lines s with
      | [] => [[b]]
      | l :: ls => (b :: l) :: ls

/-- The text before its first zero byte: what a reader of zero-terminated strings sees. -/
def beforeZero (s : Text) : Text := s.takeWhile (· != 0)

/-- The given texts in order with `sep` between any two neighbours. -/
def join (sep : Text) (parts : List Text) : Text := List.intercalate sep parts

end Text

end DocSearch
