import DocSearch.Proofs.Token.Pieces

/-!
# Other layouts of a text

A text is laid out anew when its keywords get another letter case and its gaps become other gaps, none of which
vanishes.  The tokens stay the same but for their places and the letters of keywords (`Layout.relaid`).  The key fact
is that where a token ends does not change: up to letter case the same bytes follow it, or a space does
(`Layout.frontsAlike`).
-/

namespace DocSearch

/-- A piece that an opening quote or brace starts and nothing closes. -/
def Piece.IsUnclosed (piece : Piece) : Prop :=
  piece.lexeme.kind = .invalid ∧ ∃ b ∈ piece.source.head?, Lexeme.isOpening b = true

/-- An invalid lexeme that an opening quote or brace starts and nothing closes. -/
def Lexeme.IsUnclosed (l : Lexeme) : Prop := l.kind = .invalid ∧ ∃ b ∈ l.text.head?, isOpening b = true

/-- Bytes for the same piece: a keyword may be in another letter case. -/
def Piece.IsSpelledBy (piece : Piece) (source : Text) : Prop :=
  match piece.lexeme.kind with
  | .keyword _ => source.map toUpper = piece.source.map toUpper
  | _ => source = piece.source

/-- The pieces in a new layout: a gap may become any other, but an empty one only if it was empty, and what follows an
unclosed piece stays as it is. -/
inductive Relaid : List Piece → Text → Prop
  | nil : Relaid [] []
  | cons {piece : Piece} {ps : List Piece} {gap source rest : Text} (hg : IsGap gap)
      (hne : piece.gap ≠ [] → gap ≠ []) (hs : piece.IsSpelledBy source)
      (hopen : piece.IsUnclosed → rest = ps.flatMap Piece.bytes) (h : Relaid ps rest) :
      Relaid (piece :: ps) (gap ++ source ++ rest)

/-- Lexemes that are the same up to the letter case of keywords. -/
structure Lexeme.Matches (l l' : Lexeme) : Prop where
  kind : l'.kind = l.kind
  text : (∀ k, l.kind ≠ .keyword k) → l'.text = l.text

/-! ### Open lexemes -/

theorem Lexeme.Spelled.isUnclosed_piece {l : Lexeme} {x : Text} (hx : l.Spelled x) (h : l.IsUnclosed) (gap : Text) :
    Piece.IsUnclosed ⟨gap, x, l⟩ := by
  obtain ⟨hk, b, hb, hopen⟩ := h
  have hsource : x = l.text := hx.eq_text (by simp [hk])
  exact ⟨hk, b, hsource ▸ hb, hopen⟩

/-- What is open goes on to the end of the text. -/
theorem Lexeme.IsUnclosed.rest_eq_nil {l : Lexeme} {rest : Text} (h : l.IsUnclosed) (hr : l.EndsBefore rest) :
    rest = [] := by
  obtain ⟨hk, b, hb, hopen⟩ := h
  unfold EndsBefore at hr
  rw [hk] at hr
  exact hr.1 b hb hopen

/-! ### Letter case -/

private theorem toUpper_class (b : UInt8) :
    continuesWord (toUpper b) = continuesWord b ∧ startsWord (toUpper b) = startsWord b ∧
      isDigit (toUpper b) = isDigit b ∧ (toUpper b = '.'.toUInt8 → b = '.'.toUInt8) := by
  revert b
  exact forall_byte (by decide +kernel)

private theorem eq_of_toUpper_eq {p : UInt8 → Bool} (hp : ∀ b, p (toUpper b) = p b) {b c : UInt8}
    (h : toUpper b = toUpper c) : p b = p c := by
  rw [← hp b, h, hp c]

theorem Piece.IsSpelledBy.map_toUpper {piece : Piece} {source : Text} (h : piece.IsSpelledBy source) :
    source.map toUpper = piece.source.map toUpper := by
  unfold IsSpelledBy at h
  split at h
  · exact h
  · rw [h]

/-! ### Fronts of texts -/

/-- The second text starts with a space or like the first one, and so does what is behind its first byte. -/
def FrontsAlike (s s' : Text) : Prop :=
  ∀ b' t', s' = b' :: t' → isSpace b' = false → ∃ b t, s = b :: t ∧ toUpper b = toUpper b' ∧
    ∀ c' ∈ t'.head?, isSpace c' = false → ∃ c ∈ t.head?, toUpper c = toUpper c'

/-- A run that stops in the first text stops in the second one. -/
private theorem stopsRun_of_alike {p : UInt8 → Bool} (hp : ∀ b, p (toUpper b) = p b)
    (hspace : ∀ b, isSpace b = true → p b = false) {s s' : Text}
    (h : ∀ b' ∈ s'.head?, isSpace b' = false → ∃ b ∈ s.head?, toUpper b = toUpper b') (hs : StopsRun p s) :
    StopsRun p s' := by
  intro b' hb'
  cases hsp : isSpace b' with
  | true => exact hspace b' hsp
  | false =>
    obtain ⟨b, hb, hupper⟩ := h b' hb' hsp
    rw [← eq_of_toUpper_eq hp hupper]
    exact hs b hb

private theorem FrontsAlike.head {s s' : Text} (h : FrontsAlike s s') :
    ∀ b' ∈ s'.head?, isSpace b' = false → ∃ b ∈ s.head?, toUpper b = toUpper b' := by
  intro b' hb' hsp
  cases s' with
  | nil => cases hb'
  | cons c t' =>
    cases hb'
    obtain ⟨b, t, rfl, hupper, -⟩ := h _ t' rfl hsp
    exact ⟨b, rfl, hupper⟩

private theorem frontsAlike_nil : FrontsAlike [] [] := nofun

/-- Texts that start alike do so behind gaps, if the second gap is empty only if the first one is. -/
private theorem FrontsAlike.behind_gaps {s s' gap gap' : Text} (h : FrontsAlike s s') (hg : IsGap gap')
    (hne : gap ≠ [] → gap' ≠ []) : FrontsAlike (gap ++ s) (gap' ++ s') := by
  intro b' t' heq hsp
  cases gap' with
  | nil =>
    obtain rfl : gap = [] := not_not.1 fun hgap => hne hgap rfl
    exact h b' t' heq hsp
  | cons c gap' =>
    rw [List.cons_append, List.cons.injEq] at heq
    rw [← heq.1, hg c (List.mem_cons_self ..)] at hsp
    cases hsp

/-- Texts that start alike do so behind the same bytes in another letter case. -/
private theorem FrontsAlike.behind_upper {s s' x x' : Text} (h : FrontsAlike s s') (hx : x ≠ [])
    (hupper : x'.map toUpper = x.map toUpper) : FrontsAlike (x ++ s) (x' ++ s') := by
  intro b' t' heq _
  obtain ⟨b, y, rfl⟩ := List.exists_cons_of_ne_nil hx
  cases x' with
  | nil => cases hupper
  | cons c' y' =>
    simp only [List.map_cons, List.cons.injEq] at hupper
    simp only [List.cons_append, List.cons.injEq] at heq
    obtain ⟨rfl, rfl⟩ := heq
    refine ⟨b, y ++ s, rfl, hupper.1.symm, ?_⟩
    -- the second byte is one of the same bytes, or the first one behind them
    cases y' with
    | nil =>
      obtain rfl : y = [] := List.map_eq_nil_iff.1 hupper.2.symm
      exact h.head
    | cons d' y' =>
      cases y with
      | nil => cases hupper.2
      | cons d y =>
        simp only [List.map_cons, List.cons.injEq] at hupper
        intro e he _
        cases he
        exact ⟨d, rfl, hupper.2.1.symm⟩

theorem startsWithDigit_eq_false {s : Text} : startsWithDigit s = false ↔ StopsRun isDigit s := by
  cases s with
  | nil => exact iff_of_true rfl (stopsRun_nil _)
  | cons b s => exact (stopsRun_cons (p := isDigit)).symm

/-- A lexeme that is not open to the end of the text ends in front of each text that starts alike. -/
theorem Lexeme.EndsBefore.of_alike {l : Lexeme} {rest rest' : Text} (hr : l.EndsBefore rest)
    (h : FrontsAlike rest rest') (hclosed : ¬l.IsUnclosed) : l.EndsBefore rest' := by
  have hword := stopsRun_of_alike (fun b => (toUpper_class b).1) (fun b hb => (stops_of_isSpace b hb).1) h.head
  have hdigit : ∀ {s s' : Text}, (∀ b' ∈ s'.head?, isSpace b' = false → ∃ b ∈ s.head?, toUpper b = toUpper b') →
      StopsRun isDigit s → StopsRun isDigit s' := fun hs =>
    stopsRun_of_alike (fun b => (toUpper_class b).2.2.1) (fun b hb => (stops_of_isSpace b hb).2.1) hs
  unfold EndsBefore at hr ⊢
  split at hr
  · exact hword hr
  · exact hword hr
  · exact hword hr
  · refine ⟨hdigit h.head hr.1, hr.2.imp_right fun hpoint s' hs' => ?_⟩
    -- a point in front of the second text is one in front of the first, and the next bytes are alike
    obtain ⟨b, t, rfl, hupper, hnext⟩ := h _ s' hs' (by decide)
    obtain rfl := (toUpper_class b).2.2.2 hupper
    exact startsWithDigit_eq_false.2 (hdigit hnext (startsWithDigit_eq_false.1 (hpoint t rfl)))
  · rename_i hk
    refine ⟨fun b hb hopen => absurd ⟨hk, b, hb, hopen⟩ hclosed, fun b hb hm => ?_⟩
    exact startsWithDigit_eq_false.2 (hdigit h.head (startsWithDigit_eq_false.1 (hr.2 b hb hm)))
  · trivial

/-! ### Tokens of a new layout -/

theorem Layout.flatMap_bytes {p : Nat} {s : Text} {ts : List Token} (h : Layout p s ts) :
    (piecesFrom p s ts).flatMap Piece.bytes = s := by
  obtain ⟨ps, gap, hps, -, hbytes, -, -⟩ := h.exists_pieces
  rw [hps, ← hbytes]
  simp [Piece.bytes]

/-- In a new layout a text starts with a space or up to letter case with the same bytes. -/
theorem Layout.frontsAlike {p : Nat} {s s' : Text} {ts : List Token} (h : Layout p s ts)
    (hs : Relaid (piecesFrom p s ts) s') : FrontsAlike s s' := by
  induction h generalizing s' with
  | @endOfText p gap hg =>
    rw [piecesFrom_end] at hs
    cases hs with
    | @cons _ _ gap' source rest hg' hne hsource hopen hrest =>
      cases hrest
      obtain rfl : source = [] := hsource
      rw [List.append_assoc, ← List.append_nil gap]
      exact frontsAlike_nil.behind_gaps hg' hne
  | @token p gap x rest l ts hg hx hr hlayout ih =>
    rw [piecesFrom_token hx] at hs
    cases hs with
    | @cons _ _ gap' source rest' hg' hne hsource hopen hrest =>
      rw [List.append_assoc, List.append_assoc]
      exact ((ih hrest).behind_upper hx.ne_nil hsource.map_toUpper).behind_gaps hg' hne

/-- The same token with its keyword, if it is one, in the letter case of the new layout. -/
theorem Lexeme.Spelled.respelled {l : Lexeme} {gap x source : Text} (hx : l.Spelled x)
    (hs : Piece.IsSpelledBy ⟨gap, x, l⟩ source) :
    ∃ l', l.Matches l' ∧ l'.Spelled source ∧ ∀ rest, l.EndsBefore rest → l'.EndsBefore rest := by
  by_cases hkeyword : ∃ k, l.kind = .keyword k
  · obtain ⟨k, hk⟩ := hkeyword
    cases hx with
    | @keyword b y k hb hy hword =>
      have hupper : source.map toUpper = (b :: y).map toUpper := hs
      cases source with
      | nil => cases hupper
      | cons b' y' =>
        simp only [List.map_cons, List.cons.injEq] at hupper
        have hb' : startsWord b' = true := by
          rw [← hb]
          exact eq_of_toUpper_eq (fun b => (toUpper_class b).2.1) hupper.1
        have hy' : ∀ c' ∈ y', continuesWord c' = true := by
          intro c' hc'
          obtain ⟨c, hc, hcc⟩ := List.mem_map.1 (hupper.2 ▸ List.mem_map_of_mem hc')
          rw [← hy c hc]
          exact (eq_of_toUpper_eq (fun b => (toUpper_class b).1) hcc).symm
        have hword' : Keyword.ofWord? (b' :: y') = some k := by
          rw [Keyword.ofWord?_eq_some, List.map_cons, hupper.1, hupper.2]
          exact Keyword.ofWord?_eq_some.1 hword
        exact ⟨⟨.keyword k, b' :: y'⟩, ⟨rfl, fun hne => absurd rfl (hne k)⟩, .keyword hb' hy' hword',
          fun _ hr => hr⟩
    | punctuation hp => rcases punctuation?_cases hp with rfl | rfl | rfl | rfl | rfl <;> cases hk
    | _ => cases hk
  · -- all other pieces keep their bytes
    obtain rfl : source = x := by
      unfold Piece.IsSpelledBy at hs
      split at hs
      · exact absurd ⟨_, ‹_›⟩ hkeyword
      · exact hs
    exact ⟨l, ⟨rfl, fun _ => rfl⟩, hx, fun _ hr => hr⟩

/-- A new layout of a text has the same tokens up to letter case, at other places. -/
theorem Layout.relaid {p : Nat} {s s' : Text} {ts : List Token} (h : Layout p s ts)
    (hs : Relaid (piecesFrom p s ts) s') (p' : Nat) :
    ∃ ts', Layout p' s' ts' ∧ List.Forall₂ (fun t t' => t.toLexeme.Matches t'.toLexeme) ts ts' := by
  induction h generalizing s' p' with
  | @endOfText p gap hg =>
    rw [piecesFrom_end] at hs
    cases hs with
    | @cons _ _ gap' source rest hg' hne hsource hopen hrest =>
      cases hrest
      obtain rfl : source = [] := hsource
      rw [List.append_nil, List.append_nil]
      exact ⟨_, .endOfText hg', .cons ⟨rfl, fun _ => rfl⟩ .nil⟩
  | @token p gap x rest l ts hg hx hr hlayout ih =>
    rw [piecesFrom_token hx] at hs
    cases hs with
    | @cons _ _ gap' source rest' hg' hne hsource hopen hrest =>
      obtain ⟨l', hmatch, hx', hends⟩ := hx.respelled hsource
      have hr' : l.EndsBefore rest' := by
        by_cases hunclosed : l.IsUnclosed
        · rw [hopen (hx.isUnclosed_piece hunclosed gap), hlayout.flatMap_bytes]
          exact hr
        · exact hr.of_alike (hlayout.frontsAlike hrest) hunclosed
      obtain ⟨ts', hts', hmatches⟩ := ih hrest (p' + gap'.length + source.length)
      exact ⟨_, .token hg' hx' (hends _ hr') hts', .cons hmatch hmatches⟩

end DocSearch
