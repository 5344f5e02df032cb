import DocSearch.Proofs.Numeral
import DocSearch.Token.Cursor

/-!
# Spellings of lexemes

Which source bytes spell which lexeme, and in front of which texts a lexeme ends.  The key fact: reading takes
from the front of a text the spelling of a lexeme that ends there (`Lexeme.read_eq_iff`), so what is read is
determined by the spelling and by what may not follow it.
-/

namespace DocSearch

/-- The kinds of the punctuation marks. -/
def Kind.isMark : Kind → Bool
  | .comma | .openParen | .closeParen | .semicolon | .equal => true
  | _ => false

namespace Lexeme

/-- A byte that is no space and starts no valid token, but for a hyphen in front of a digit. -/
def isStray (b : UInt8) : Bool :=
  (punctuation? b).isNone && !isQuote b && b != '{'.toUInt8 && !isDigit b && !startsWord b && !isSpace b

/-- A byte that opens a token which another byte has to close. -/
def isOpening (b : UInt8) : Bool := isQuote b || b == '{'.toUInt8

/-- The byte that closes what the given byte opens. -/
def closing (b : UInt8) : UInt8 := if isQuote b then b else '}'.toUInt8

/-- The bytes that spell a lexeme. -/
inductive Spelled : Lexeme → Text → Prop
  | punctuation {b : UInt8} {kind : Kind} (hk : punctuation? b = some kind) : Spelled ⟨kind, [b]⟩ [b]
  | string {quote : UInt8} {s : Text} (hq : isQuote quote = true) (hs : quote ∉ s) :
      Spelled ⟨.string, s⟩ (quote :: s ++ [quote])
  | qualifiedName {uri name : Text} (hu : '}'.toUInt8 ∉ uri) (hn : ∀ b ∈ name, continuesWord b = true) :
      Spelled ⟨.qualifiedName, '{'.toUInt8 :: uri ++ '}'.toUInt8 :: name⟩
        ('{'.toUInt8 :: uri ++ '}'.toUInt8 :: name)
  | number (n : Numeral) : Spelled ⟨.number, n.text⟩ n.text
  | keyword {b : UInt8} {s : Text} {k : Keyword} (hb : startsWord b = true)
      (hs : ∀ c ∈ s, continuesWord c = true) (hk : Keyword.ofWord? (b :: s) = some k) :
      Spelled ⟨.keyword k, b :: s⟩ (b :: s)
  | identifier {b : UInt8} {s : Text} (hb : startsWord b = true) (hs : ∀ c ∈ s, continuesWord c = true)
      (hk : Keyword.ofWord? (b :: s) = none) : Spelled ⟨.identifier, b :: s⟩ (b :: s)
  | unclosed {b : UInt8} {s : Text} (hb : isOpening b = true) (hs : closing b ∉ s) :
      Spelled ⟨.invalid, b :: s⟩ (b :: s)
  | stray {b : UInt8} (hb : isStray b = true) : Spelled ⟨.invalid, [b]⟩ [b]

/-- The lexeme cannot go on in the given text: words and names stop at a byte that continues no word, numbers
at a byte that is no digit and, without a point, at no point in front of a digit.  What is not closed goes on
to the end of the text, and a stray hyphen stands in front of no digit. -/
def EndsBefore (l : Lexeme) (rest : Text) : Prop :=
  match l.kind with
  | .keyword _ | .identifier | .qualifiedName => StopsRun continuesWord rest
  | .number =>
    StopsRun isDigit rest ∧ ('.'.toUInt8 ∈ l.text ∨ ∀ s, rest = '.'.toUInt8 :: s → startsWithDigit s = false)
  | .invalid =>
    (∀ b ∈ l.text.head?, isOpening b = true → rest = []) ∧
      (∀ b ∈ l.text.head?, b = '-'.toUInt8 → startsWithDigit rest = false)
  | _ => True

/-- Every lexeme can end with the text. -/
theorem endsBefore_nil (l : Lexeme) : l.EndsBefore [] := by
  unfold EndsBefore
  split
  · exact stopsRun_nil _
  · exact stopsRun_nil _
  · exact stopsRun_nil _
  · exact ⟨stopsRun_nil _, Or.inr nofun⟩
  · exact ⟨fun _ _ _ => rfl, fun _ _ _ => rfl⟩
  · trivial

/-! ### Classes of bytes -/

private theorem startsWord_class (b : UInt8) : startsWord b = true →
    punctuation? b = none ∧ isQuote b = false ∧ b ≠ '{'.toUInt8 ∧ isDigit b = false ∧ b ≠ '-'.toUInt8 ∧
      isSpace b = false ∧ continuesWord b = true := by
  revert b
  exact forall_byte (by decide +kernel)

private theorem isDigit_class (b : UInt8) : isDigit b = true →
    punctuation? b = none ∧ isQuote b = false ∧ b ≠ '{'.toUInt8 ∧ isSpace b = false := by
  revert b
  exact forall_byte (by decide +kernel)

private theorem isQuote_class (b : UInt8) : isQuote b = true → punctuation? b = none ∧ isSpace b = false := by
  revert b
  exact forall_byte (by decide +kernel)

private theorem isStray_class (b : UInt8) : isStray b = true →
    punctuation? b = none ∧ isQuote b = false ∧ b ≠ '{'.toUInt8 ∧ isDigit b = false ∧ startsWord b = false ∧
      isSpace b = false ∧ isOpening b = false := by
  revert b
  exact forall_byte (by decide +kernel)

private theorem punctuation?_class (b : UInt8) : (punctuation? b).isSome = true → isSpace b = false := by
  revert b
  exact forall_byte (by decide +kernel)

theorem stops_of_isSpace (b : UInt8) : isSpace b = true →
    continuesWord b = false ∧ isDigit b = false ∧ b ≠ '.'.toUInt8 := by
  revert b
  exact forall_byte (by decide +kernel)

theorem punctuation?_cases {b : UInt8} {kind : Kind} (h : punctuation? b = some kind) :
    kind = .comma ∨ kind = .openParen ∨ kind = .closeParen ∨ kind = .semicolon ∨ kind = .equal := by
  unfold punctuation? at h
  repeat' split at h
  all_goals cases h
  all_goals simp

theorem isMark_of_punctuation? {b : UInt8} {kind : Kind} (h : punctuation? b = some kind) : kind.isMark = true := by
  rcases punctuation?_cases h with rfl | rfl | rfl | rfl | rfl <;> rfl

/-! ### Texts of lexemes -/

theorem Spelled.number_text {l : Lexeme} {x : Text} (h : l.Spelled x) (hk : l.kind = .number) :
    ∃ n : Numeral, l.text = n.text := by
  cases h with
  | number n => exact ⟨n, rfl⟩
  | punctuation hb =>
    cases hk
    cases isMark_of_punctuation? hb
  | _ => cases hk

theorem Spelled.qualifiedName_text {l : Lexeme} {x : Text} (h : l.Spelled x) (hk : l.kind = .qualifiedName) :
    ∃ uri name, l.text = '{'.toUInt8 :: uri ++ '}'.toUInt8 :: name ∧ '}'.toUInt8 ∉ uri := by
  cases h with
  | qualifiedName hu hn => exact ⟨_, _, rfl, hu⟩
  | punctuation hb =>
    cases hk
    cases isMark_of_punctuation? hb
  | _ => cases hk

theorem Spelled.identifier_bytes {l : Lexeme} {x : Text} (h : l.Spelled x) (hk : l.kind = .identifier) :
    ∀ b ∈ l.text, continuesWord b = true := by
  cases h with
  | @identifier b s hb hs _ =>
    intro c hc
    rcases List.mem_cons.1 hc with rfl | hc
    · simp [continuesWord, hb]
    · exact hs c hc
  | punctuation hb =>
    cases hk
    cases isMark_of_punctuation? hb
  | _ => cases hk

theorem Spelled.localName_bytes {l : Lexeme} {x uri name : Text} (h : l.Spelled x) (hk : l.kind = .qualifiedName)
    (hcut : Text.cut '}'.toUInt8 (l.text.drop 1) = some (uri, name)) : ∀ b ∈ name, continuesWord b = true := by
  cases h with
  | @qualifiedName uri' name' hu hn =>
    have hcut' : Text.cut '}'.toUInt8 (uri' ++ '}'.toUInt8 :: name') = some (uri', name') :=
      Text.cut_eq_some.2 ⟨rfl, hu⟩
    simp only [List.cons_append, List.drop_succ_cons, List.drop_zero, hcut', Option.some.injEq,
      Prod.mk.injEq] at hcut
    rw [← hcut.2]
    exact hn
  | punctuation hb =>
    cases hk
    cases isMark_of_punctuation? hb
  | _ => cases hk

/-! ### Numbers -/

private theorem isDigits_takeWhile {s : Text} (hs : startsWithDigit s = true) : IsDigits (s.takeWhile isDigit) := by
  refine ⟨fun h => ?_, all_takeWhile _ _⟩
  cases s with
  | nil => cases hs
  | cons b s =>
    have hb : isDigit b = true := by simpa [startsWithDigit] using hs
    rw [List.takeWhile_cons_of_pos hb] at h
    cases h

/-- The digits at the front of a text and the point with the digits after it make an unsigned numeral. -/
private theorem unsigned_numeral (negative : Bool) {s : Text} (hs : startsWithDigit s = true) :
    ∃ n : Numeral, n.negative = negative ∧ (unsigned s).1 = n.unsigned ∧ s = n.unsigned ++ (unsigned s).2 ∧
      EndsBefore ⟨.number, n.text⟩ (unsigned s).2 := by
  have hw := isDigits_takeWhile hs
  have hsplit := List.takeWhile_append_dropWhile (p := isDigit) (l := s)
  have hstop := stopsRun_dropWhile isDigit s
  -- a point counts only if a digit follows it
  by_cases hp : ∃ rest, s.dropWhile isDigit = '.'.toUInt8 :: rest ∧ startsWithDigit rest = true
  · obtain ⟨rest, hd, hr⟩ := hp
    have hf := isDigits_takeWhile hr
    have hu : unsigned s =
        (s.takeWhile isDigit ++ '.'.toUInt8 :: rest.takeWhile isDigit, rest.dropWhile isDigit) := by
      unfold unsigned
      rw [hd]
      simp [hr]
    refine ⟨⟨negative, s.takeWhile isDigit, some (rest.takeWhile isDigit), hw, by simpa using hf⟩, rfl,
      congrArg Prod.fst hu, ?_, ?_, ?_⟩
    · rw [hu]
      conv => lhs; rw [← hsplit, hd]
      simp [Numeral.unsigned, Numeral.pointed]
    · rw [hu]
      exact stopsRun_dropWhile isDigit rest
    · exact Or.inl (Numeral.point_mem_text.2 ⟨_, rfl⟩)
  · have hu : unsigned s = (s.takeWhile isDigit, s.dropWhile isDigit) := by
      unfold unsigned
      cases hd : s.dropWhile isDigit with
      | nil => rfl
      | cons b rest =>
        have hb : ¬(b = '.'.toUInt8 ∧ startsWithDigit rest = true) := fun h => hp ⟨rest, by rw [hd, h.1], h.2⟩
        simp only [Bool.and_eq_true, decide_eq_true_eq, if_neg hb]
    refine ⟨⟨negative, s.takeWhile isDigit, none, hw, by simp⟩, rfl, ?_, ?_, ?_, ?_⟩
    · rw [hu]
      simp [Numeral.unsigned, Numeral.pointed]
    · rw [hu]
      simp [Numeral.unsigned, Numeral.pointed]
    · rw [hu]
      exact hstop
    · rw [hu]
      refine Or.inr fun rest hd => ?_
      cases hr : startsWithDigit rest with
      | false => rfl
      | true => exact absurd ⟨rest, hd, hr⟩ hp

private theorem unsigned_append {n : Numeral} {rest : Text} (h : EndsBefore ⟨.number, n.text⟩ rest) :
    unsigned (n.unsigned ++ rest) = (n.unsigned, rest) := by
  obtain ⟨hstop, hpoint⟩ := h
  obtain ⟨-, hw⟩ := n.whole_digits
  unfold unsigned
  cases hf : n.fraction with
  | none =>
    have hu : n.unsigned = n.whole := by simp [Numeral.unsigned, Numeral.pointed, hf]
    rw [hu, takeWhile_run hw hstop, dropWhile_run hw hstop]
    cases rest with
    | nil => rfl
    | cons b rest =>
      have hb : ¬(b = '.'.toUInt8 ∧ startsWithDigit rest = true) := by
        rintro ⟨rfl, hr⟩
        rcases hpoint with hp | hp
        · obtain ⟨f, hf'⟩ := Numeral.point_mem_text.1 hp
          rw [hf] at hf'
          cases hf'
        · rw [hp rest rfl] at hr
          cases hr
      simp only [Bool.and_eq_true, decide_eq_true_eq, if_neg hb]
  | some f =>
    have hu : n.unsigned ++ rest = n.whole ++ '.'.toUInt8 :: (f ++ rest) := by
      simp [Numeral.unsigned, Numeral.pointed, hf]
    obtain ⟨hne, hd⟩ := n.fraction_digits f hf
    have hp : StopsRun isDigit ('.'.toUInt8 :: (f ++ rest)) := stopsRun_cons.2 (by decide)
    have hstart : startsWithDigit (f ++ rest) = true := by
      cases f with
      | nil => exact absurd rfl hne
      | cons b f => simpa [startsWithDigit] using hd b (by simp)
    rw [hu, takeWhile_run hw hp, dropWhile_run hw hp]
    simp only [hstart, decide_true, Bool.and_self, ↓reduceIte, takeWhile_run hd hstop, dropWhile_run hd hstop]
    simp [Numeral.unsigned, Numeral.pointed, hf]

/-! ### Strings, names and words -/

private theorem quoted_append {b : UInt8} {s : Text} (hs : b ∉ s) (rest : Text) :
    quoted b (s ++ b :: rest) = (⟨.string, s⟩, rest) := by
  rw [quoted, Text.cut_eq_some.2 ⟨rfl, hs⟩]

private theorem quoted_unclosed {b : UInt8} {s : Text} (hs : b ∉ s) : quoted b s = (⟨.invalid, b :: s⟩, []) := by
  rw [quoted, Text.cut_eq_none.2 hs]

private theorem qualified_append {uri name : Text} (hu : '}'.toUInt8 ∉ uri) (hn : ∀ b ∈ name, continuesWord b = true)
    {rest : Text} (hr : StopsRun continuesWord rest) (b : UInt8) :
    qualified b (uri ++ '}'.toUInt8 :: (name ++ rest)) =
      (⟨.qualifiedName, b :: uri ++ '}'.toUInt8 :: name⟩, rest) := by
  rw [qualified, Text.cut_eq_some.2 ⟨rfl, hu⟩]
  dsimp only
  rw [takeWhile_run hn hr, dropWhile_run hn hr]

private theorem qualified_unclosed {s : Text} (hs : '}'.toUInt8 ∉ s) (b : UInt8) :
    qualified b s = (⟨.invalid, b :: s⟩, []) := by
  rw [qualified, Text.cut_eq_none.2 hs]

private theorem word_append {b : UInt8} (hb : startsWord b = true) {s : Text}
    (hs : ∀ c ∈ s, continuesWord c = true) {rest : Text} (hr : StopsRun continuesWord rest) :
    word (b :: (s ++ rest)) = (⟨(Keyword.ofWord? (b :: s)).elim .identifier .keyword, b :: s⟩, rest) := by
  have hall : ∀ c ∈ b :: s, continuesWord c = true := by
    intro c hc
    rcases List.mem_cons.1 hc with rfl | hc
    · exact (startsWord_class c hb).2.2.2.2.2.2
    · exact hs c hc
  rw [← List.cons_append]
  simp only [word, takeWhile_run hall hr, dropWhile_run hall hr]
  cases Keyword.ofWord? (b :: s) <;> rfl

/-- What is not closed takes all of a text. -/
private theorem spelled_unclosed {b : UInt8} {s : Text} (hb : isOpening b = true) (hs : closing b ∉ s) :
    ∃ x, b :: s = x ++ [] ∧ Spelled ⟨.invalid, b :: s⟩ x ∧ EndsBefore ⟨.invalid, b :: s⟩ [] :=
  ⟨b :: s, by simp, .unclosed hb hs, fun _ _ _ => rfl, fun _ _ _ => rfl⟩

private theorem spelled_of_quoted {b : UInt8} {s : Text} {l : Lexeme} {rest : Text} (hb : isQuote b = true)
    (h : quoted b s = (l, rest)) : ∃ x, b :: s = x ++ rest ∧ l.Spelled x ∧ l.EndsBefore rest := by
  unfold quoted at h
  split at h
  · rename_i inside rest' hcut
    cases h
    obtain ⟨rfl, hmem⟩ := Text.cut_eq_some.1 hcut
    exact ⟨b :: inside ++ [b], by simp, .string hb hmem, trivial⟩
  · rename_i hcut
    cases h
    refine spelled_unclosed (by simp [isOpening, hb]) ?_
    simpa [closing, hb] using Text.cut_eq_none.1 hcut

private theorem spelled_of_qualified {s : Text} {l : Lexeme} {rest : Text}
    (h : qualified '{'.toUInt8 s = (l, rest)) :
    ∃ x, '{'.toUInt8 :: s = x ++ rest ∧ l.Spelled x ∧ l.EndsBefore rest := by
  unfold qualified at h
  split at h
  · rename_i uri rest' hcut
    cases h
    obtain ⟨rfl, hmem⟩ := Text.cut_eq_some.1 hcut
    refine ⟨_, ?_, .qualifiedName hmem (all_takeWhile continuesWord rest'), stopsRun_dropWhile _ _⟩
    simp [List.takeWhile_append_dropWhile]
  · rename_i hcut
    cases h
    exact spelled_unclosed (by decide) (Text.cut_eq_none.1 hcut)

private theorem spelled_of_word {b : UInt8} {s : Text} {l : Lexeme} {rest : Text} (hb : startsWord b = true)
    (h : word (b :: s) = (l, rest)) : ∃ x, b :: s = x ++ rest ∧ l.Spelled x ∧ l.EndsBefore rest := by
  have hs := all_takeWhile continuesWord s
  have hstop := stopsRun_dropWhile continuesWord s
  have hword := word_append hb hs hstop
  rw [List.takeWhile_append_dropWhile, h] at hword
  cases hword
  refine ⟨b :: s.takeWhile continuesWord, by simp, ?_, ?_⟩
  · cases hk : Keyword.ofWord? (b :: s.takeWhile continuesWord) with
    | none => exact .identifier hb hs hk
    | some k => exact .keyword hb hs hk
  · cases Keyword.ofWord? (b :: s.takeWhile continuesWord) <;> exact hstop

/-! ### Reading -/

private theorem read_quote {b : UInt8} (hb : isQuote b = true) (s : Text) : read b s = quoted b s := by
  simp [read, (isQuote_class b hb).1, hb]

private theorem read_brace (s : Text) : read '{'.toUInt8 s = qualified '{'.toUInt8 s := rfl

private theorem read_digit {b : UInt8} (hb : isDigit b = true) (s : Text) :
    read b s = (⟨.number, (unsigned (b :: s)).1⟩, (unsigned (b :: s)).2) := by
  obtain ⟨hp, hq, hbrace, -⟩ := isDigit_class b hb
  simp [read, hp, hq, hbrace, hb]

private theorem read_hyphen {s : Text} (hs : startsWithDigit s = true) :
    read '-'.toUInt8 s = (⟨.number, '-'.toUInt8 :: (unsigned s).1⟩, (unsigned s).2) := by
  have hread : read '-'.toUInt8 s = if startsWithDigit s then
      (⟨.number, '-'.toUInt8 :: (unsigned s).1⟩, (unsigned s).2) else (⟨.invalid, [ '-'.toUInt8]⟩, s) := rfl
  rw [hread, if_pos hs]

private theorem read_startsWord {b : UInt8} (hb : startsWord b = true) (s : Text) : read b s = word (b :: s) := by
  obtain ⟨hp, hq, hbrace, hd, hm, -⟩ := startsWord_class b hb
  simp [read, hp, hq, hbrace, hd, hm, hb]

private theorem read_stray {b : UInt8} (hb : isStray b = true) {s : Text}
    (hm : b = '-'.toUInt8 → startsWithDigit s = false) : read b s = (⟨.invalid, [b]⟩, s) := by
  obtain ⟨hp, hq, hbrace, hd, hw, -⟩ := isStray_class b hb
  have hm' : ¬(b = '-'.toUInt8 ∧ startsWithDigit s = true) := by
    rintro ⟨hm', hs⟩
    rw [hm hm'] at hs
    cases hs
  simp [read, hp, hq, hbrace, hd, hw, hm']

/-- A lexeme is read from its spelling in front of a text in which it cannot go on. -/
theorem read_of_spelled {l : Lexeme} {x rest : Text} (hx : l.Spelled x) (hr : l.EndsBefore rest) :
    ∃ b s, x = b :: s ∧ isSpace b = false ∧ read b (s ++ rest) = (l, rest) := by
  cases hx with
  | @punctuation b kind hk =>
    refine ⟨b, [], rfl, punctuation?_class b (by rw [hk]; rfl), ?_⟩
    simp [read, hk]
  | @string quote s hq hs =>
    refine ⟨quote, s ++ [quote], rfl, (isQuote_class quote hq).2, ?_⟩
    rw [read_quote hq, List.append_assoc]
    exact quoted_append hs rest
  | @qualifiedName uri name hu hn =>
    refine ⟨'{'.toUInt8, uri ++ '}'.toUInt8 :: name, rfl, by decide, ?_⟩
    rw [read_brace, List.append_assoc]
    exact qualified_append hu hn hr _
  | number n =>
    have hu := unsigned_append hr
    obtain ⟨b, s, hbs, hb⟩ := n.unsigned_eq_cons
    rw [hbs, List.cons_append] at hu
    unfold Numeral.text Numeral.sign
    cases hneg : n.negative with
    | false =>
      refine ⟨b, s, by simp [hbs], (isDigit_class b hb).2.2.2, ?_⟩
      rw [read_digit hb, hu]
      simp [hbs]
    | true =>
      refine ⟨'-'.toUInt8, n.unsigned, by simp, by decide, ?_⟩
      rw [hbs, List.cons_append, read_hyphen (by simpa [startsWithDigit] using hb), hu]
      simp
  | @keyword b s k hb hs hk =>
    refine ⟨b, s, rfl, (startsWord_class b hb).2.2.2.2.2.1, ?_⟩
    rw [read_startsWord hb, word_append hb hs hr, hk]
    rfl
  | @identifier b s hb hs hk =>
    refine ⟨b, s, rfl, (startsWord_class b hb).2.2.2.2.2.1, ?_⟩
    rw [read_startsWord hb, word_append hb hs hr, hk]
    rfl
  | @unclosed b s hb hs =>
    obtain rfl : rest = [] := hr.1 b (by simp) hb
    cases hq : isQuote b with
    | true =>
      refine ⟨b, s, rfl, (isQuote_class b hq).2, ?_⟩
      rw [List.append_nil, read_quote hq, quoted_unclosed (by simpa [closing, hq] using hs)]
    | false =>
      obtain rfl : b = '{'.toUInt8 := by simpa [isOpening, hq] using hb
      refine ⟨_, s, rfl, by decide, ?_⟩
      rw [List.append_nil, read_brace, qualified_unclosed hs]
  | @stray b hb =>
    exact ⟨b, [], rfl, (isStray_class b hb).2.2.2.2.2.1, read_stray hb (hr.2 b (by simp))⟩

/-- A stray byte other than a hyphen is a token of its own. -/
theorem Spelled.eq_of_stray {l : Lexeme} {b : UInt8} {x : Text} (h : l.Spelled (b :: x)) (hb : isStray b = true)
    (hne : b ≠ '-'.toUInt8) : l = ⟨.invalid, [b]⟩ := by
  obtain ⟨b', s, hbs, -, hread⟩ := read_of_spelled h l.endsBefore_nil
  cases hbs
  rw [read_stray hb fun hm => absurd hm hne] at hread
  exact (congrArg Prod.fst hread).symm

/-- What is read from the front of a text is spelled there and cannot go on. -/
theorem spelled_of_read {b : UInt8} {s : Text} {l : Lexeme} {rest : Text} (hsp : isSpace b = false)
    (h : read b s = (l, rest)) : ∃ x, b :: s = x ++ rest ∧ l.Spelled x ∧ l.EndsBefore rest := by
  unfold read at h
  split at h
  · rename_i kind hk
    cases h
    refine ⟨[b], rfl, .punctuation hk, ?_⟩
    rcases punctuation?_cases hk with rfl | rfl | rfl | rfl | rfl <;> trivial
  split at h
  · rename_i hp hq
    exact spelled_of_quoted hq h
  split at h
  · rename_i hbr
    subst hbr
    exact spelled_of_qualified h
  split at h
  · rename_i hd
    obtain ⟨n, hneg, hu, hs, hends⟩ := unsigned_numeral false (s := b :: s) (by simpa [startsWithDigit] using hd)
    have htext : n.text = n.unsigned := by simp [Numeral.text, Numeral.sign, hneg]
    cases h
    rw [hu, ← htext]
    exact ⟨n.text, by rw [htext, ← hs], .number n, hends⟩
  split at h
  · rename_i hm
    simp only [Bool.and_eq_true, decide_eq_true_eq] at hm
    obtain ⟨n, hneg, hu, hs, hends⟩ := unsigned_numeral true hm.2
    have htext : n.text = b :: n.unsigned := by simp [Numeral.text, Numeral.sign, hneg, hm.1]
    cases h
    rw [hu, ← htext]
    exact ⟨n.text, by rw [htext, List.cons_append, ← hs], .number n, hends⟩
  split at h
  · rename_i hb
    exact spelled_of_word hb h
  · rename_i hp hq hbr hd hm hw
    cases h
    have hb : isStray b = true := by simp [isStray, hp, hq, hbr, hd, hw, hsp]
    refine ⟨[b], rfl, .stray hb, ?_, ?_⟩
    · intro c hc hop
      cases hc
      rw [(isStray_class b hb).2.2.2.2.2.2] at hop
      cases hop
    · intro c hc hmc
      cases hc
      subst hmc
      simpa using hm

/-- Reading takes from a text the lexeme that is spelled at its front and ends there. -/
theorem read_eq_iff {b : UInt8} {s : Text} {l : Lexeme} {rest : Text} (hsp : isSpace b = false) :
    read b s = (l, rest) ↔ ∃ x, b :: s = x ++ rest ∧ l.Spelled x ∧ l.EndsBefore rest := by
  constructor
  · exact spelled_of_read hsp
  · rintro ⟨x, hx, hl, hr⟩
    obtain ⟨b', s', rfl, -, hread⟩ := read_of_spelled hl hr
    cases hx
    exact hread

end Lexeme

end DocSearch
