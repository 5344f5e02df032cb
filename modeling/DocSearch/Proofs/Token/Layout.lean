import DocSearch.Proofs.Token.Spelling
import Mathlib.Data.List.Forall2

/-!
# Layouts of texts

A text is laid out as spelled tokens with gaps of spaces around them, and its tokens are those of its only
layout (`layout_iff`).  So every token stands at its place in the text, the end of the text comes last, and
lexemes that are written with spaces between them are read back (`lexemes_spaced`, `lexemes_joined`).
-/

namespace DocSearch

/-- A text of spaces. -/
def IsGap (s : Text) : Prop := ∀ b ∈ s, isSpace b = true

theorem isGap_nil : IsGap [] := nofun

theorem isGap_space : IsGap [32] := List.all_eq_true.1 rfl

theorem IsGap.append {gap gap' : Text} (h : IsGap gap) (h' : IsGap gap') : IsGap (gap ++ gap') := fun b hb =>
  (List.mem_append.1 hb).elim (h b) (h' b)

/-- The tokens that a text spells from the given position on. -/
inductive Layout : Nat → Text → List Token → Prop
  | endOfText {p : Nat} {gap : Text} (hg : IsGap gap) : Layout p gap [⟨⟨.endOfText, []⟩, p + gap.length⟩]
  | token {p : Nat} {gap x rest : Text} {l : Lexeme} {ts : List Token} (hg : IsGap gap) (hx : l.Spelled x)
      (hr : l.EndsBefore rest) (h : Layout (p + gap.length + x.length) rest ts) :
      Layout p (gap ++ x ++ rest) (⟨l, p + gap.length⟩ :: ts)

namespace Lexeme

theorem Spelled.width_eq {l : Lexeme} {x : Text} (h : l.Spelled x) : l.width = x.length := by
  cases h with
  | punctuation hk => rcases punctuation?_cases hk with rfl | rfl | rfl | rfl | rfl <;> rfl
  | string hq hs => simp [width]
  | _ => rfl

theorem Spelled.kind_ne_endOfText {l : Lexeme} {x : Text} (h : l.Spelled x) : l.kind ≠ .endOfText := by
  cases h with
  | punctuation hk =>
    rcases punctuation?_cases hk with rfl | rfl | rfl | rfl | rfl <;> exact Kind.noConfusion
  | _ => exact Kind.noConfusion

/-- A valid token ends in front of a space. -/
theorem endsBefore_space {l : Lexeme} (hl : l.kind ≠ .invalid) {b : UInt8} (hb : isSpace b = true)
    (rest : Text) : l.EndsBefore (b :: rest) := by
  obtain ⟨hc, hd, hp⟩ := stops_of_isSpace b hb
  unfold EndsBefore
  split
  · exact stopsRun_cons.2 hc
  · exact stopsRun_cons.2 hc
  · exact stopsRun_cons.2 hc
  · refine ⟨stopsRun_cons.2 hd, Or.inr fun s hs => ?_⟩
    rw [List.cons.injEq] at hs
    exact absurd hs.1 hp
  · exact absurd ‹_› hl
  · trivial

end Lexeme

/-! ### Tokens and layouts -/

theorem next_of_gap {p : Nat} {gap : Text} (hg : IsGap gap) :
    (Cursor.mk p gap).next = (⟨⟨.endOfText, []⟩, p + gap.length⟩, ⟨p + gap.length, []⟩) := by
  have ht := takeWhile_run hg (stopsRun_nil isSpace)
  have hd := dropWhile_run hg (stopsRun_nil isSpace)
  rw [List.append_nil] at ht hd
  unfold Cursor.next
  rw [hd, ht]

theorem next_of_spelled {p : Nat} {gap x rest : Text} {l : Lexeme} (hg : IsGap gap) (hx : l.Spelled x)
    (hr : l.EndsBefore rest) :
    (Cursor.mk p (gap ++ x ++ rest)).next = (⟨l, p + gap.length⟩, ⟨p + gap.length + x.length, rest⟩) := by
  have hwidth := hx.width_eq
  obtain ⟨b, s, rfl, hsp, hread⟩ := Lexeme.read_of_spelled hx hr
  have hstop : StopsRun isSpace (b :: (s ++ rest)) := stopsRun_cons.2 hsp
  unfold Cursor.next
  rw [List.append_assoc, List.cons_append, takeWhile_run hg hstop, dropWhile_run hg hstop]
  dsimp only
  rw [hread, hwidth]

theorem Cursor.tokens_eq (c : Cursor) :
    c.tokens = if c.next.1.kind = .endOfText then [c.next.1] else c.next.1 :: c.next.2.tokens := by
  rw [tokens]
  split <;> rfl

theorem Layout.tokens_eq {p : Nat} {s : Text} {ts : List Token} (h : Layout p s ts) :
    Cursor.tokens ⟨p, s⟩ = ts := by
  induction h with
  | endOfText hg => rw [Cursor.tokens_eq, next_of_gap hg, if_pos rfl]
  | token hg hx hr _ ih => rw [Cursor.tokens_eq, next_of_spelled hg hx hr, if_neg hx.kind_ne_endOfText, ih]

theorem layout_tokens (c : Cursor) : Layout c.position c.rest c.tokens := by
  have hsplit := List.takeWhile_append_dropWhile (p := isSpace) (l := c.rest)
  have hg : IsGap (c.rest.takeWhile isSpace) := all_takeWhile isSpace c.rest
  have hstop := stopsRun_dropWhile isSpace c.rest
  cases hd : c.rest.dropWhile isSpace with
  | nil =>
    rw [hd, List.append_nil] at hsplit
    rw [hsplit] at hg
    have h := Layout.endOfText (p := c.position) hg
    rwa [← h.tokens_eq] at h
  | cons b s =>
    rw [hd] at hsplit hstop
    obtain ⟨x, hx, hl, hr⟩ := Lexeme.spelled_of_read (stopsRun_cons.1 hstop) (Prod.eta _).symm
    have hrest : c.rest = c.rest.takeWhile isSpace ++ x ++ (Lexeme.read b s).2 := by
      rw [List.append_assoc, ← hx, hsplit]
    -- what is left is shorter, as a token takes at least one byte
    have hlt : (Lexeme.read b s).2.length < c.rest.length := by
      have := Lexeme.read_length_lt b s
      have := congrArg List.length hsplit
      simp only [List.length_append, List.length_cons] at *
      omega
    have ih := layout_tokens ⟨c.position + (c.rest.takeWhile isSpace).length + x.length, (Lexeme.read b s).2⟩
    have h := Layout.token hg hl hr ih
    rw [← hrest] at h
    rwa [← h.tokens_eq] at h
termination_by c.rest.length

theorem layout_iff {s : Text} {ts : List Token} : Layout 0 s ts ↔ tokens s = ts := by
  constructor
  · exact Layout.tokens_eq
  · rintro rfl
    exact layout_tokens ⟨0, s⟩

theorem tokens_nil : tokens [] = [⟨⟨.endOfText, []⟩, 0⟩] := layout_iff.1 (.endOfText isGap_nil)

/-! ### Places of tokens -/

theorem Layout.position_le {p : Nat} {s : Text} {ts : List Token} (h : Layout p s ts) :
    ∀ t ∈ ts, t.position ≤ p + s.length := by
  induction h with
  | endOfText hg => simp
  | token hg hx hr _ ih =>
    intro t ht
    rcases List.mem_cons.1 ht with rfl | ht
    · simp only [List.length_append]
      omega
    · have := ih t ht
      simp only [List.length_append]
      omega

/-- A token starts with the byte at its position, and the end of the text stands behind all bytes. -/
theorem Layout.byte_at {p : Nat} {s : Text} {ts : List Token} (h : Layout p s ts) :
    ∀ t ∈ ts, ∃ i, t.position = p + i ∧
      ((t.toLexeme = ⟨.endOfText, []⟩ ∧ s[i]? = none) ∨ ∃ b x, t.toLexeme.Spelled (b :: x) ∧ s[i]? = some b) := by
  induction h with
  | @endOfText p gap hg => simp
  | @token p gap x rest l ts hg hx hr _ ih =>
    intro t ht
    rcases List.mem_cons.1 ht with rfl | ht
    · obtain ⟨b, y, rfl, -, -⟩ := Lexeme.read_of_spelled hx hr
      exact ⟨gap.length, rfl, Or.inr ⟨b, y, hx, by simp⟩⟩
    · obtain ⟨i, hi, hbyte⟩ := ih t ht
      have hs : (gap ++ x ++ rest)[gap.length + x.length + i]? = rest[i]? := by
        rw [List.getElem?_append_right (by simp)]
        simp
      exact ⟨gap.length + x.length + i, by omega, by rwa [hs]⟩

/-- The end of the text is the last token, and all tokens before it are spelled. -/
theorem Layout.eq_append_end {p : Nat} {s : Text} {ts : List Token} (h : Layout p s ts) :
    ∃ body e, ts = body ++ [e] ∧ e.toLexeme = ⟨.endOfText, []⟩ ∧
      ∀ t ∈ body, ∃ x, t.toLexeme.Spelled x := by
  induction h with
  | endOfText hg => exact ⟨[], _, rfl, rfl, by simp⟩
  | token hg hx hr _ ih =>
    obtain ⟨body, e, rfl, he, hbody⟩ := ih
    refine ⟨_ :: body, e, rfl, he, fun t ht => ?_⟩
    rcases List.mem_cons.1 ht with rfl | ht
    · exact ⟨_, hx⟩
    · exact hbody t ht

theorem tokens_eq_append_end (s : Text) :
    ∃ body e, tokens s = body ++ [e] ∧ e.toLexeme = ⟨.endOfText, []⟩ ∧
      ∀ t ∈ body, ∃ x, t.toLexeme.Spelled x :=
  (layout_tokens ⟨0, s⟩).eq_append_end

theorem position_le_length {s : Text} {t : Token} (h : t ∈ tokens s) : t.position ≤ s.length := by
  simpa using (layout_tokens ⟨0, s⟩).position_le t h

/-- The byte at the position of a token is the first byte of its spelling. -/
theorem byte_at_position {s : Text} {t : Token} (h : t ∈ tokens s) :
    (t.toLexeme = ⟨.endOfText, []⟩ ∧ s[t.position]? = none) ∨
      ∃ b x, t.toLexeme.Spelled (b :: x) ∧ s[t.position]? = some b := by
  obtain ⟨i, hi, hbyte⟩ := (layout_tokens ⟨0, s⟩).byte_at t h
  rw [hi]
  simpa using hbyte

/-! ### Moving layouts -/

/-- The token so many bytes further on. -/
def Token.moved (k : Nat) (t : Token) : Token := { t with position := t.position + k }

/-- A text further on has the same tokens further on. -/
theorem Layout.moved {p : Nat} {s : Text} {ts : List Token} (h : Layout p s ts) (k : Nat) :
    Layout (p + k) s (ts.map (Token.moved k)) := by
  induction h with
  | @endOfText p gap hg =>
    have h := Layout.endOfText (p := p + k) hg
    rwa [Nat.add_right_comm] at h
  | @token p gap x rest l ts hg hx hr _ ih =>
    rw [Nat.add_right_comm _ _ k, Nat.add_right_comm _ _ k] at ih
    have h := Layout.token hg hx hr ih
    rwa [Nat.add_right_comm] at h

/-- A gap in front of a text moves its tokens. -/
theorem Layout.behind_gap {p : Nat} {gap s : Text} {ts : List Token} (hgap : IsGap gap)
    (h : Layout (p + gap.length) s ts) : Layout p (gap ++ s) ts := by
  cases h with
  | endOfText hg =>
    have h := Layout.endOfText (p := p) (hgap.append hg)
    rwa [List.length_append, ← Nat.add_assoc] at h
  | @token _ gap' x rest l ts hg hx hr hrest =>
    rw [Nat.add_assoc p, ← List.length_append] at hrest ⊢
    have h := Layout.token (hgap.append hg) hx hr hrest
    rwa [List.append_assoc, List.append_assoc, ← List.append_assoc gap'] at h

/-! ### Writing lexemes -/

/-- The given spellings, each with a space after it. -/
def spaced (xs : List Text) : Text := xs.flatMap fun x => x ++ [32]

/-- A lexeme ends in front of further ones that have a space in front of each of them, and of a last gap. -/
private theorem endsBefore_chunks {l : Lexeme} (hl : l.kind ≠ .invalid) (xs : List Text) {gap : Text}
    (hgap : IsGap gap) : l.EndsBefore (xs.flatMap (32 :: ·) ++ gap) := by
  cases xs with
  | cons x xs => exact l.endsBefore_space hl (by decide) _
  | nil =>
    cases gap with
    | nil => exact l.endsBefore_nil
    | cons b gap => exact l.endsBefore_space hl (hgap b (List.mem_cons_self ..)) _

private theorem layout_chunks {ls : List Lexeme} {xs : List Text} (h : List.Forall₂ Lexeme.Spelled ls xs)
    (hl : ∀ l ∈ ls, l.kind ≠ .invalid) {gap : Text} (hgap : IsGap gap) (p : Nat) :
    ∃ ts, Layout p (xs.flatMap (32 :: ·) ++ gap) ts ∧ ts.map Token.toLexeme = ls ++ [⟨.endOfText, []⟩] := by
  induction h generalizing p with
  | nil => exact ⟨_, .endOfText hgap, rfl⟩
  | @cons l x ls xs hx _ ih =>
    have hends := endsBefore_chunks (hl l (List.mem_cons_self ..)) xs hgap
    obtain ⟨ts, hts, hmap⟩ := ih (fun l' hl' => hl l' (List.mem_cons_of_mem _ hl')) (p + 1 + x.length)
    exact ⟨⟨l, p + 1⟩ :: ts, by simpa using Layout.token isGap_space hx hends hts, congrArg (l :: ·) hmap⟩

/-- Lexemes that are written with a space in front of all but the first are the tokens of that text, also with a gap
behind them. -/
private theorem lexemes_chunks {l : Lexeme} {x : Text} {ls : List Lexeme} {xs : List Text} (hx : l.Spelled x)
    (h : List.Forall₂ Lexeme.Spelled ls xs) (hl : ∀ l' ∈ l :: ls, l'.kind ≠ .invalid) {gap : Text}
    (hgap : IsGap gap) :
    (tokens (x ++ (xs.flatMap (32 :: ·) ++ gap))).map Token.toLexeme = l :: ls ++ [⟨.endOfText, []⟩] := by
  have hends := endsBefore_chunks (hl l (List.mem_cons_self ..)) xs hgap
  obtain ⟨ts, hts, hmap⟩ := layout_chunks h (fun l' hl' => hl l' (List.mem_cons_of_mem _ hl')) hgap (0 + 0 + x.length)
  have hlayout := Layout.token isGap_nil hx hends hts
  rw [List.nil_append, layout_iff] at hlayout
  rw [hlayout]
  exact congrArg (l :: ·) hmap

/-- Lexemes that are written with a space after each of them are the tokens of that text. -/
theorem lexemes_spaced {ls : List Lexeme} {xs : List Text} (h : List.Forall₂ Lexeme.Spelled ls xs)
    (hl : ∀ l ∈ ls, l.kind ≠ .invalid) :
    (tokens (spaced xs)).map Token.toLexeme = ls ++ [⟨.endOfText, []⟩] := by
  cases h with
  | nil => exact congrArg _ tokens_nil
  | @cons l x ls xs hx h =>
    have htext : ∀ xs : List Text, [32] ++ spaced xs = xs.flatMap (32 :: ·) ++ [32] := by
      intro xs
      induction xs with
      | nil => rfl
      | cons x xs ih => simpa [spaced] using ih
    have hspaced : spaced (x :: xs) = x ++ (xs.flatMap (32 :: ·) ++ [32]) := by
      rw [← htext]
      simp [spaced]
    rw [hspaced]
    exact lexemes_chunks hx h hl isGap_space

/-- Lexemes that are written with single spaces between them are the tokens of that text. -/
theorem lexemes_joined {ls : List Lexeme} {xs : List Text} (h : List.Forall₂ Lexeme.Spelled ls xs)
    (hl : ∀ l ∈ ls, l.kind ≠ .invalid) :
    (tokens (Text.join [32] xs)).map Token.toLexeme = ls ++ [⟨.endOfText, []⟩] := by
  cases h with
  | nil => exact congrArg _ tokens_nil
  | @cons l x ls xs hx h =>
    rw [Text.join_cons, ← List.append_nil (xs.flatMap _)]
    exact lexemes_chunks hx h hl isGap_nil

end DocSearch
