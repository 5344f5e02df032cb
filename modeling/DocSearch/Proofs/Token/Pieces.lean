import DocSearch.Proofs.Token.Layout

/-!
# The pieces of a text

Each token of a text makes a piece with the gap in front of it, and the end of the text makes one with the last gap.
The pieces are the whole text, one behind the other (`Layout.exists_pieces`), and the cursor yields their tokens and
then the end of the text again and again.  Each piece is as long as can be: no longer front of what follows its gap
spells a token (`Lexeme.EndsBefore.maximal`).  A word is a keyword if it is one in capitals (`Keyword.ofWord?_eq_some`).
The main statement puts these together (`pieces_cover`).
-/

namespace DocSearch

/-- A token of a text with the gap in front of it and the bytes that it takes up. -/
structure Piece where
  gap : Text
  source : Text
  lexeme : Lexeme
  deriving DecidableEq

namespace Piece

def bytes (p : Piece) : Text := p.gap ++ p.source

end Piece

/-- The pieces of the text `s` that starts at the position `p`, cut at the given tokens. -/
def piecesFrom (p : Nat) (s : Text) : List Token → List Piece
  | [] => []
  | t :: ts =>
    let behind := s.drop (t.position - p)
    ⟨s.take (t.position - p), behind.take t.width, t.toLexeme⟩ ::
      piecesFrom (t.position + t.width) (behind.drop t.width) ts

/-- The pieces of a text, the last of them for the end of the text. -/
def pieces (s : Text) : List Piece := piecesFrom 0 s (tokens s)

/-- The tokens of pieces that start at the position `p` and stand one behind the other. -/
def placed (p : Nat) : List Piece → List Token
  | [] => []
  | piece :: ps => ⟨piece.lexeme, p + piece.gap.length⟩ :: placed (p + piece.bytes.length) ps

namespace Cursor

/-- The cursor after so many tokens. -/
def skip (c : Cursor) : Nat → Cursor
  | 0 => c
  | n + 1 => c.next.2.skip n

end Cursor

/-- The token that a cursor yields in a text after `n` others. -/
def nthToken (s : Text) (n : Nat) : Token := ((Cursor.mk 0 s).skip n).next.1

/-! ### Words in capitals -/

/-- A word with capitals of ASCII for its small letters. -/
def capitals (word : Text) : Text := word.map fun b => if 97 ≤ b ∧ b ≤ 122 then b - 32 else b

theorem map_toUpper (word : Text) : word.map toUpper = capitals word := List.map_congr_left fun b _ => toUpper_eq b

namespace Keyword

/-- The keywords in capitals. -/
def spellings : List Text :=
  [ascii "SEARCH", ascii "IN", ascii "WHERE", ascii "AND", ascii "OR", ascii "ORDER", ascii "BY", ascii "ASC",
    ascii "DESC", ascii "LIMIT", ascii "OFFSET", ascii "TRUE", ascii "FALSE", ascii "NULL"]

theorem mem_spellings {s : Text} : s ∈ spellings ↔ ∃ k : Keyword, s = k.spelling := by
  have hall : spellings = all.map spelling := rfl
  have hmem : ∀ k : Keyword, k ∈ all := by
    intro k
    cases k <;> decide
  rw [hall, List.mem_map]
  constructor
  · rintro ⟨k, -, rfl⟩
    exact ⟨k, rfl⟩
  · rintro ⟨k, rfl⟩
    exact ⟨k, hmem k, rfl⟩

theorem ofWord?_eq_some {word : Text} {k : Keyword} : ofWord? word = some k ↔ word.map toUpper = k.spelling := by
  constructor
  · intro h
    unfold ofWord? at h
    have hk : k.spelling = word.map toUpper := by simpa using List.find?_some h
    exact hk.symm
  · intro h
    unfold ofWord?
    rw [h]
    cases k <;> decide

end Keyword

/-! ### Maximal spellings -/

namespace Lexeme

theorem head?_of_front {more rest : Text} (h : more <+: rest) : ∀ b ∈ more.head?, b ∈ rest.head? := by
  obtain ⟨back, rfl⟩ := h
  intro b hb
  cases more with
  | nil => cases hb
  | cons c more => exact hb

theorem startsWithDigit_of_front {more rest : Text} (h : more <+: rest) (hr : startsWithDigit rest = false) :
    startsWithDigit more = false := by
  obtain ⟨back, rfl⟩ := h
  cases more with
  | nil => rfl
  | cons b more => exact hr

/-- What a lexeme cannot go on in, it cannot go on in the front of. -/
theorem EndsBefore.of_front {l : Lexeme} {more rest : Text} (h : more <+: rest) (hr : l.EndsBefore rest) :
    l.EndsBefore more := by
  have hstop : ∀ {p : UInt8 → Bool}, StopsRun p rest → StopsRun p more := fun hp b hb =>
    hp b (head?_of_front h b hb)
  unfold EndsBefore at hr ⊢
  split at hr
  · exact hstop hr
  · exact hstop hr
  · exact hstop hr
  · refine ⟨hstop hr.1, hr.2.imp_right fun hpoint s hs => ?_⟩
    obtain ⟨back, rfl⟩ := h
    subst hs
    exact startsWithDigit_of_front (List.prefix_append s back) (hpoint _ rfl)
  · refine ⟨fun b hb hopen => ?_, fun b hb hm => startsWithDigit_of_front h (hr.2 b hb hm)⟩
    have hnil := hr.1 b hb hopen
    subst hnil
    exact List.prefix_nil.1 h
  · trivial

/-- Where a lexeme ends, no longer front of the text spells any lexeme. -/
theorem EndsBefore.maximal {l l' : Lexeme} {x more rest : Text} (hx : l.Spelled x) (hr : l.EndsBefore rest)
    (hmore : more <+: rest) (hx' : l'.Spelled (x ++ more)) : more = [] := by
  obtain ⟨b, s, rfl, -, hread⟩ := read_of_spelled hx (hr.of_front hmore)
  obtain ⟨b', s', hbs, -, hread'⟩ := read_of_spelled hx' l'.endsBefore_nil
  -- both read the same bytes, and the second reading leaves nothing
  rw [List.cons_append, List.cons.injEq] at hbs
  obtain ⟨rfl, rfl⟩ := hbs
  rw [List.append_nil, hread] at hread'
  exact congrArg Prod.snd hread'

end Lexeme

/-! ### Pieces and layouts -/

/-- The kinds of words. -/
def Kind.isWord : Kind → Bool
  | .identifier | .keyword _ => true
  | _ => false

/-- The text consists of spaces, tabs, line feeds, vertical tabs, form feeds and carriage returns. -/
def IsWhitespace (s : Text) : Prop := ∀ b ∈ s, b ∈ [9, 10, 11, 12, 13, 32]

theorem isWhitespace_iff {s : Text} : IsWhitespace s ↔ IsGap s := forall₂_congr fun b _ => (isSpace_iff b).symm

/-- The piece holds a token, and the text `rest` follows: its bytes are the text of the token, between quotes for a
string, and no longer front of the text spells a token.  A word is a keyword if it is spelled like it in capitals. -/
structure Piece.Fits (piece : Piece) (rest : Text) : Prop where
  gap : IsWhitespace piece.gap
  kind_ne : piece.lexeme.kind ≠ .endOfText
  source_ne_nil : piece.source ≠ []
  spelled : piece.lexeme.Spelled piece.source
  source_of_not_string : piece.lexeme.kind ≠ .string → piece.source = piece.lexeme.text
  source_of_string : piece.lexeme.kind = .string → ∃ quote ∈ [34, 39], quote ∉ piece.lexeme.text ∧
    piece.source = quote :: piece.lexeme.text ++ [quote]
  maximal : ∀ (more : Text) (l : Lexeme), more <+: rest → l.Spelled (piece.source ++ more) → more = []
  keyword : piece.lexeme.kind.isWord = true →
    ∀ k, piece.lexeme.kind = .keyword k ↔ capitals piece.lexeme.text = k.spelling
  some_keyword : piece.lexeme.kind.isWord = true →
    ((∃ k, piece.lexeme.kind = .keyword k) ↔ capitals piece.lexeme.text ∈ Keyword.spellings)

namespace Lexeme

theorem Spelled.eq_text {l : Lexeme} {x : Text} (h : l.Spelled x) (hk : l.kind ≠ .string) : x = l.text := by
  cases h with
  | string hq hs => exact absurd rfl hk
  | _ => rfl

theorem Spelled.quoted {l : Lexeme} {x : Text} (h : l.Spelled x) (hk : l.kind = .string) :
    ∃ quote ∈ [34, 39], quote ∉ l.text ∧ x = quote :: l.text ++ [quote] := by
  cases h with
  | string hq hs => exact ⟨_, (isQuote_iff _).1 hq, hs, rfl⟩
  | punctuation hb =>
    cases hk
    cases isMark_of_punctuation? hb
  | _ => cases hk

theorem Spelled.keyword_iff {l : Lexeme} {x : Text} (h : l.Spelled x) (hk : l.kind.isWord = true) (k : Keyword) :
    l.kind = .keyword k ↔ capitals l.text = k.spelling := by
  rw [← map_toUpper]
  cases h with
  | keyword hb hs hword => rw [← Keyword.ofWord?_eq_some, hword, Kind.keyword.injEq, Option.some.injEq]
  | identifier hb hs hword =>
    rw [← Keyword.ofWord?_eq_some, hword]
    exact iff_of_false nofun nofun
  | punctuation hb => rcases punctuation?_cases hb with rfl | rfl | rfl | rfl | rfl <;> cases hk
  | _ => cases hk

theorem Spelled.some_keyword_iff {l : Lexeme} {x : Text} (h : l.Spelled x) (hk : l.kind.isWord = true) :
    (∃ k, l.kind = .keyword k) ↔ capitals l.text ∈ Keyword.spellings := by
  rw [Keyword.mem_spellings]
  exact exists_congr fun k => h.keyword_iff hk k

theorem Spelled.ne_nil {l : Lexeme} {x : Text} (h : l.Spelled x) : x ≠ [] := by
  obtain ⟨b, s, rfl, -, -⟩ := read_of_spelled h l.endsBefore_nil
  exact List.cons_ne_nil b s

theorem Spelled.fits {l : Lexeme} {gap x rest : Text} (hg : IsGap gap) (hx : l.Spelled x) (hr : l.EndsBefore rest) :
    Piece.Fits ⟨gap, x, l⟩ rest where
  gap := isWhitespace_iff.2 hg
  kind_ne := hx.kind_ne_endOfText
  source_ne_nil := hx.ne_nil
  spelled := hx
  source_of_not_string := hx.eq_text
  source_of_string := hx.quoted
  maximal := fun _ _ hmore hl => hr.maximal hx hmore hl
  keyword := hx.keyword_iff
  some_keyword := hx.some_keyword_iff

end Lexeme

theorem piecesFrom_end (p : Nat) (gap : Text) :
    piecesFrom p gap [⟨⟨.endOfText, []⟩, p + gap.length⟩] = [⟨gap, [], ⟨.endOfText, []⟩⟩] := by
  simp [piecesFrom]

theorem piecesFrom_token {l : Lexeme} {x : Text} (hx : l.Spelled x) (p : Nat) (gap rest : Text) (ts : List Token) :
    piecesFrom p (gap ++ x ++ rest) (⟨l, p + gap.length⟩ :: ts) =
      ⟨gap, x, l⟩ :: piecesFrom (p + gap.length + x.length) rest ts := by
  simp [piecesFrom, hx.width_eq]

/-- A layout falls into pieces that fit, and the end of the text. -/
theorem Layout.exists_pieces {p : Nat} {s : Text} {ts : List Token} (h : Layout p s ts) :
    ∃ ps gap, piecesFrom p s ts = ps ++ [⟨gap, [], ⟨.endOfText, []⟩⟩] ∧
      ts = placed p ps ++ [⟨⟨.endOfText, []⟩, p + s.length⟩] ∧ ps.flatMap Piece.bytes ++ gap = s ∧ IsGap gap ∧
      ∀ before piece after, ps = before ++ piece :: after → piece.Fits (after.flatMap Piece.bytes ++ gap) := by
  induction h with
  | @endOfText p gap hg => exact ⟨[], gap, piecesFrom_end p gap, rfl, rfl, hg, by simp⟩
  | @token p gap x rest l ts hg hx hr _ ih =>
    obtain ⟨ps, last, hps, hts, hbytes, hlast, hfits⟩ := ih
    refine ⟨⟨gap, x, l⟩ :: ps, last, ?_, ?_, ?_, hlast, ?_⟩
    · rw [piecesFrom_token hx, hps, List.cons_append]
    · simp [placed, Piece.bytes, hts, Nat.add_assoc]
    · simp [Piece.bytes, ← hbytes]
    · intro before piece after heq
      cases before with
      | nil =>
        rw [List.nil_append, List.cons.injEq] at heq
        obtain ⟨rfl, rfl⟩ := heq
        rw [hbytes]
        exact hx.fits hg hr
      | cons _ before =>
        rw [List.cons_append, List.cons.injEq] at heq
        exact hfits before piece after heq.2

/-- The tokens of a layout are yielded one after the other, and the end of the text for ever. -/
theorem Layout.skip_eq {p : Nat} {s : Text} {ts : List Token} (h : Layout p s ts) (n : Nat) :
    ((Cursor.mk p s).skip n).next.1 = ts[n]?.getD ⟨⟨.endOfText, []⟩, p + s.length⟩ := by
  induction h generalizing n with
  | @endOfText p gap hg =>
    have hend : ∀ n, ((Cursor.mk (p + gap.length) []).skip n).next.1 = ⟨⟨.endOfText, []⟩, p + gap.length⟩ := by
      intro n
      induction n with
      | zero => rfl
      | succ n ih => exact ih
    cases n with
    | zero => simp [Cursor.skip, next_of_gap hg]
    | succ n => simp [Cursor.skip, next_of_gap hg, hend]
  | @token p gap x rest l ts hg hx hr _ ih =>
    cases n with
    | zero =>
      rw [Cursor.skip, next_of_spelled hg hx hr]
      rfl
    | succ n =>
      rw [Cursor.skip, next_of_spelled hg hx hr, ih n]
      simp [Nat.add_assoc]

/-! ### Places of pieces -/

private theorem le_position_of_mem_placed {p : Nat} {ps : List Piece} {t : Token} (h : t ∈ placed p ps) :
    p ≤ t.position := by
  induction ps generalizing p with
  | nil => cases h
  | cons piece ps ih =>
    rcases List.mem_cons.1 h with rfl | h
    · exact Nat.le_add_right _ _
    · have := ih h
      omega

/-- Pieces that take up bytes stand at ever larger positions. -/
theorem pairwise_placed {ps : List Piece} (h : ∀ piece ∈ ps, piece.source ≠ []) (p : Nat) :
    (placed p ps).Pairwise fun t u => t.position < u.position := by
  induction ps generalizing p with
  | nil => exact List.Pairwise.nil
  | cons piece ps ih =>
    have hpos := List.length_pos_iff.2 (h piece (by simp))
    refine List.pairwise_cons.2 ⟨fun t ht => ?_, ih (fun q hq => h q (by simp [hq])) _⟩
    have hle := le_position_of_mem_placed ht
    simp only [Piece.bytes, List.length_append] at hle
    show p + piece.gap.length < t.position
    omega

/-- There are no more pieces than bytes. -/
theorem length_le_bytes {ps : List Piece} (h : ∀ piece ∈ ps, piece.source ≠ []) :
    ps.length ≤ (ps.flatMap Piece.bytes).length := by
  induction ps with
  | nil => simp
  | cons piece ps ih =>
    have hpos := List.length_pos_iff.2 (h piece (by simp))
    have := ih fun q hq => h q (by simp [hq])
    simp only [List.flatMap_cons, Piece.bytes, List.length_append, List.length_cons] at *
    omega

/-! ### The whole text -/

theorem getD_append_singleton {α : Type} (xs : List α) (e : α) (n : Nat) : (xs ++ [e])[n]?.getD e = xs[n]?.getD e := by
  rw [List.getElem?_append]
  split
  · rfl
  · rename_i h
    rw [List.getElem?_eq_none (Nat.le_of_not_lt h)]
    cases n - xs.length <;> simp

/-- A text is its pieces one behind the other and a last gap.  Reading yields the tokens of the pieces, of which there
are no more than bytes, each at its place, and then the end of the text at its place again and again. -/
theorem pieces_cover (s : Text) :
    ∃ ps gap, pieces s = ps ++ [⟨gap, [], ⟨.endOfText, []⟩⟩] ∧ ps.length ≤ s.length ∧
      ps.flatMap Piece.bytes ++ gap = s ∧ IsWhitespace gap ∧
      (∀ n, nthToken s n = (placed 0 ps)[n]?.getD ⟨⟨.endOfText, []⟩, s.length⟩) ∧
      ((placed 0 ps).Pairwise fun t u => t.position < u.position) ∧
      ∀ before piece after, ps = before ++ piece :: after → piece.Fits (after.flatMap Piece.bytes ++ gap) := by
  have hlayout : Layout 0 s (tokens s) := layout_tokens ⟨0, s⟩
  obtain ⟨ps, gap, hps, hts, hbytes, hgap, hfits⟩ := hlayout.exists_pieces
  have hsource : ∀ piece ∈ ps, piece.source ≠ [] := by
    intro piece hpiece
    obtain ⟨before, after, heq⟩ := List.append_of_mem hpiece
    exact (hfits before piece after heq).source_ne_nil
  have hlength := length_le_bytes hsource
  refine ⟨ps, gap, hps, ?_, hbytes, isWhitespace_iff.2 hgap, fun n => ?_, pairwise_placed hsource 0, hfits⟩
  · rw [← hbytes, List.length_append]
    omega
  · have hn := hlayout.skip_eq n
    rw [hts, Nat.zero_add, getD_append_singleton] at hn
    exact hn

/-- A keyword in mixed letter case, one with another byte behind it, and one behind a vertical tab. -/
theorem pieces_cover_letterCase :
    ∃ ps, pieces (ascii "sEarch wheRe_\x0bin ") = ps ++ [⟨ascii " ", [], ⟨.endOfText, []⟩⟩] ∧
      ps = [⟨[], ascii "sEarch", ⟨.keyword .search, ascii "sEarch"⟩⟩,
        ⟨ascii " ", ascii "wheRe_", ⟨.identifier, ascii "wheRe_"⟩⟩,
        ⟨[11], ascii "in", ⟨.keyword .in_, ascii "in"⟩⟩] ∧
      capitals (ascii "sEarch") ∈ Keyword.spellings ∧ capitals (ascii "wheRe_") ∉ Keyword.spellings := by
  obtain ⟨ps, gap, hpieces, -, -, -, -, -, hfits⟩ := pieces_cover (ascii "sEarch wheRe_\x0bin ")
  have hall : pieces (ascii "sEarch wheRe_\x0bin ") =
      [⟨[], ascii "sEarch", ⟨.keyword .search, ascii "sEarch"⟩⟩,
        ⟨ascii " ", ascii "wheRe_", ⟨.identifier, ascii "wheRe_"⟩⟩,
        ⟨[11], ascii "in", ⟨.keyword .in_, ascii "in"⟩⟩] ++ [⟨ascii " ", [], ⟨.endOfText, []⟩⟩] := by
    decide +kernel
  obtain ⟨rfl, -⟩ := List.append_inj' (hpieces.symm.trans hall) rfl
  have hsearch := (hfits [] _ _ rfl).some_keyword rfl
  have hwhere := (hfits [_] _ _ rfl).some_keyword rfl
  refine ⟨_, hall, rfl, hsearch.1 ⟨.search, rfl⟩, fun hmem => ?_⟩
  obtain ⟨k, hk⟩ := hwhere.2 hmem
  cases hk

end DocSearch
