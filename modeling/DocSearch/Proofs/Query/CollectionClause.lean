import DocSearch.Proofs.Query.Position
import DocSearch.Proofs.Query.Recognition

/-!
# Adding a clause for the collection

Behind the first token of a text that names no collection there is room for a clause that names one: the tokens around
it stay what they are, and of the query only the collection changes (`Query.parse_withCollectionClause`).
-/

namespace DocSearch

/-- The position behind the first token of a text. -/
def endOfFirst (s : Text) : Nat := (tokens s).head?.elim 0 fun t => t.position + t.width

/-- The text with a clause for the collection behind its first token. -/
def withCollectionClause (c s : Text) : Text :=
  s.take (endOfFirst s) ++ ascii " IN '" ++ c ++ ascii "' " ++ s.drop (endOfFirst s)

/-- The tokens of the clause, the first of them at the position `p`. -/
def collectionTokens (p : Nat) (c : Text) : List Token :=
  [⟨⟨.keyword .in_, ascii "IN"⟩, p⟩, ⟨⟨.string, c⟩, p + 3⟩]

/-- What follows the clause is laid out behind it as it was without it. -/
private theorem layout_clause {p : Nat} {c rest : Text} {ts : List Token} (hc : '\''.toUInt8 ∉ c)
    (h : Layout p rest ts) :
    Layout p (ascii " IN '" ++ c ++ ascii "' " ++ rest)
      (collectionTokens (p + 1) c ++ ts.map (Token.moved (c.length + 7))) := by
  have hgap : IsGap (ascii " ") := isGap_space
  have hin : Lexeme.Spelled ⟨.keyword .in_, ascii "IN"⟩ (ascii "IN") :=
    .keyword (by decide) (List.all_eq_true.1 rfl) (by decide)
  have hstring : Lexeme.Spelled ⟨.string, c⟩ ('\''.toUInt8 :: c ++ ['\''.toUInt8]) := .string (by decide) hc
  have hlength : ('\''.toUInt8 :: c ++ ['\''.toUInt8]).length = c.length + 2 := by simp
  have hbehind : Layout (p + 1 + 2 + 1 + (c.length + 2)) (ascii " " ++ rest) (ts.map (Token.moved (c.length + 7))) := by
    have hp : p + (c.length + 7) = p + 1 + 2 + 1 + (c.length + 2) + 1 := by omega
    have hmoved := h.moved (c.length + 7)
    rw [hp] at hmoved
    exact .behind_gap hgap hmoved
  rw [← hlength] at hbehind
  have hclause := Layout.token hgap hin (Lexeme.endsBefore_space (by decide) (by decide) _)
    (Layout.token hgap hstring trivial hbehind)
  have htext : ascii " IN '" ++ c ++ ascii "' " ++ rest = ascii " " ++ ascii "IN" ++
      (ascii " " ++ ('\''.toUInt8 :: c ++ ['\''.toUInt8]) ++ (ascii " " ++ rest)) := by
    have hopen : ascii " IN '" = ascii " IN " ++ ['\''.toUInt8] := by decide
    have hclose : ascii "' " = '\''.toUInt8 :: ascii " " := by decide
    have hword : ascii " IN " = ascii " " ++ (ascii "IN" ++ ascii " ") := by decide
    simp [hopen, hclose, hword]
  rw [htext]
  exact hclause

/-- The clause comes between the first token and the others, which stay what they are. -/
theorem tokens_withCollectionClause {s c : Text} {t : Token} {ts : List Token} (h : tokens s = t :: ts)
    (ht : t.kind ≠ .invalid) (hend : t.kind ≠ .endOfText) (hc : '\''.toUInt8 ∉ c) :
    tokens (withCollectionClause c s) =
      t :: (collectionTokens (endOfFirst s + 1) c ++ ts.map (Token.moved (c.length + 7))) := by
  have hfirst : endOfFirst s = t.position + t.width := by simp [endOfFirst, h]
  have hlayout := layout_tokens ⟨0, s⟩
  change Layout 0 s (tokens s) at hlayout
  rw [h] at hlayout
  cases hlayout with
  | endOfText hg => exact absurd rfl hend
  | @token _ gap x rest l _ hg hx hr hrest =>
    have hplace : endOfFirst (gap ++ x ++ rest) = (gap ++ x).length := by
      rw [hfirst, List.length_append]
      simp [hx.width_eq]
    have htext : withCollectionClause c (gap ++ x ++ rest) =
        gap ++ x ++ (ascii " IN '" ++ c ++ ascii "' " ++ rest) := by
      rw [withCollectionClause, hplace, List.take_left, List.drop_left]
      simp only [List.append_assoc]
    have hends : l.EndsBefore (ascii " IN '" ++ c ++ ascii "' " ++ rest) := l.endsBefore_space ht (by decide) _
    have h := Layout.token hg hx hends (layout_clause hc hrest)
    rw [htext, hplace, List.length_append, ← layout_iff]
    simpa only [Nat.zero_add] using h

namespace Query

variable {rule : NameRule}

/-- With a clause for the collection behind its first token a text denotes the same query in that collection. -/
theorem parse_withCollectionClause {s c : Text} {q : Query} (h : Query.parse s rule = .ok q)
    (hnone : q.collection = none) (hc : '\''.toUInt8 ∉ c) :
    Query.parse (withCollectionClause c s) rule = .ok { q with collection := some c } := by
  obtain ⟨body, last, hts, hlast, hbody⟩ := parse_eq_ok_iff_isSentence.1 h
  cases hbody with
  | @query collection criteria skip limit sort t a b d e f ht ha hb hd he hf =>
    obtain rfl : collection = none := hnone
    cases ha
    have htokens := tokens_withCollectionClause (c := c) hts (by simp [ht]) (by simp [ht]) hc
    have hclause : Derives rule (.collectionClause (some c)) (collectionTokens 0 c) :=
      .collection (u := ⟨⟨.string, c⟩, 3⟩) rfl rfl
    have hsentence : IsSentence rule ⟨some c, criteria, skip, limit, sort⟩
        (t :: (collectionTokens 0 c ++ (b ++ d ++ e ++ f ++ [last]))) :=
      ⟨t :: (collectionTokens 0 c ++ b ++ d ++ e ++ f), last, by simp, hlast,
        .query ht hclause hb hd he hf⟩
    -- the tokens of the new text are those of the sentence at other places
    have hplaces : (t :: (collectionTokens 0 c ++ (b ++ d ++ e ++ f ++ [last]))).map Token.toLexeme =
        (tokens (withCollectionClause c s)).map Token.toLexeme := by
      rw [htokens]
      simp [collectionTokens, Token.moved, Function.comp_def]
    exact parse_eq_ok.2 (State.run_congr hsentence.run_eq hplaces)

end Query

end DocSearch
