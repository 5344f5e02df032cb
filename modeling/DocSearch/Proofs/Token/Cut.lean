import DocSearch.Proofs.Token.Pieces

/-!
# Cutting a text in two

Where a text is cut in two, one of its tokens crosses the cut, or the tokens in front of it stay what they are whatever
stands behind it, as long as that starts with the same two bytes (`Layout.cut`).  If a word stands behind the cut, only
a word or a qualified name crosses it, and ends with that word (`CrossesInto.ends_with_word`).
-/

namespace DocSearch

variable {p : Nat} {a b : Text} {ts : List Token}

/-- Whether a lexeme ends shows in the two bytes behind it. -/
theorem Lexeme.endsBefore_take_two {l : Lexeme} {rest : Text} : l.EndsBefore (rest.take 2) ↔ l.EndsBefore rest := by
  refine ⟨fun h => ?_, fun h => h.of_front (List.take_prefix 2 rest)⟩
  match rest, h with
  | [], h => exact h
  | [_], h => exact h
  | b :: c :: s, h =>
    change l.EndsBefore [b, c] at h
    unfold EndsBefore at h ⊢
    split at h
    · exact h
    · exact h
    · exact h
    · refine ⟨h.1, h.2.imp_right fun hpoint s' hs' => ?_⟩
      obtain ⟨rfl, rfl⟩ := List.cons.inj hs'
      exact hpoint [c] rfl
    · exact ⟨fun d hd hopen => absurd (h.1 d hd hopen) (List.cons_ne_nil _ _), h.2⟩
    · trivial

private theorem take_append_congr {n : Nat} {b b' : Text} (a : Text) (h : b'.take n = b.take n) :
    (a ++ b').take n = (a ++ b).take n := by
  have hmin : ∀ c : Text, c.take (n - a.length) = (c.take n).take (n - a.length) := by
    intro c
    rw [List.take_take, Nat.min_eq_left (Nat.sub_le n a.length)]
  rw [List.take_append, List.take_append, hmin b', hmin b, h]

/-- The tokens `ts` are laid out in front of each text behind `a` that starts with the same two bytes as `b`. -/
def LaidInFront (p : Nat) (a b : Text) (ts : List Token) : Prop :=
  ∀ b' us, b'.take 2 = b.take 2 → Layout (p + a.length) b' us → Layout p (a ++ b') (ts ++ us)

/-- One of the tokens is spelled by bytes in front of the text `b` and further ones at the front of `b`. -/
def CrossesInto (b : Text) (ts : List Token) : Prop :=
  ∃ before l q after x y rest, ts = before ++ ⟨l, q⟩ :: after ∧ x ≠ [] ∧ y ≠ [] ∧ b = y ++ rest ∧
    l.Spelled (x ++ y) ∧ l.EndsBefore rest ∧ Layout (q + (x ++ y).length) rest after

private theorem laidInFront_gap (hg : IsGap a) : LaidInFront p a b [] := fun _ _ _ h => h.behind_gap hg

private theorem LaidInFront.cons {gap x : Text} {l : Lexeme} (hg : IsGap gap) (hx : l.Spelled x)
    (hr : l.EndsBefore (a ++ b)) (h : LaidInFront (p + gap.length + x.length) a b ts) :
    LaidInFront p (gap ++ x ++ a) b (⟨l, p + gap.length⟩ :: ts) := by
  intro b' us hb' hus
  have hr' : l.EndsBefore (a ++ b') := by
    rwa [← Lexeme.endsBefore_take_two, take_append_congr a hb', Lexeme.endsBefore_take_two]
  have hplace : p + (gap ++ x ++ a).length = p + gap.length + x.length + a.length := by
    simp only [List.length_append, Nat.add_assoc]
  rw [hplace] at hus
  rw [List.append_assoc (gap ++ x)]
  exact .token hg hx hr' (h b' us hb' hus)

private theorem CrossesInto.cons (h : CrossesInto b ts) (t : Token) : CrossesInto b (t :: ts) := by
  obtain ⟨before, l, q, after, x, y, rest, rfl, h⟩ := h
  exact ⟨t :: before, l, q, after, x, y, rest, rfl, h⟩

/-- Where a text is cut in two, a token crosses the cut, or the tokens fall into those in front and those behind it. -/
theorem Layout.cut (h : Layout p (a ++ b) ts) :
    (∃ before after, ts = before ++ after ∧ LaidInFront p a b before ∧ Layout (p + a.length) b after) ∨
      CrossesInto b ts := by
  generalize hs : a ++ b = s at h
  induction h generalizing a with
  | @endOfText p gap hg =>
    subst hs
    have hga : IsGap a := fun c hc => hg c (List.mem_append_left _ hc)
    have hgb : IsGap b := fun c hc => hg c (List.mem_append_right _ hc)
    refine Or.inl ⟨[], _, rfl, laidInFront_gap hga, ?_⟩
    rw [List.length_append, ← Nat.add_assoc]
    exact .endOfText hgb
  | @token p gap x rest l ts hg hx hr hrest ih =>
    rw [List.append_assoc] at hs
    -- the cut lies in the gap, in the token or behind it
    rcases List.append_eq_append_iff.1 hs with ⟨gap', rfl, rfl⟩ | ⟨a', rfl, hs'⟩
    · refine Or.inl ⟨[], _, rfl, laidInFront_gap fun c hc => hg c (List.mem_append_left _ hc), ?_⟩
      rw [List.length_append, ← Nat.add_assoc] at hrest ⊢
      rw [← List.append_assoc]
      exact .token (fun c hc => hg c (List.mem_append_right _ hc)) hx hr hrest
    · rcases List.append_eq_append_iff.1 hs' with ⟨a'', rfl, rfl⟩ | ⟨y, rfl, rfl⟩
      · rcases ih rfl with ⟨before, after, rfl, hbefore, hafter⟩ | hcross
        · refine Or.inl ⟨_ :: before, after, rfl, ?_, ?_⟩
          · rw [← List.append_assoc]
            exact hbefore.cons hg hx hr
          · rwa [List.length_append, List.length_append, ← Nat.add_assoc, ← Nat.add_assoc]
        · exact Or.inr (hcross.cons _)
      · by_cases ha : a' = []
        · subst ha
          rw [List.append_nil]
          exact Or.inl ⟨[], _, rfl, laidInFront_gap hg, .token isGap_nil hx hr hrest⟩
        · by_cases hy : y = []
          · subst hy
            rw [List.append_nil] at hx hrest
            have hbehind : LaidInFront (p + gap.length + a'.length) [] rest [] := laidInFront_gap isGap_nil
            have hends : l.EndsBefore ([] ++ rest) := hr
            refine Or.inl ⟨[_], ts, rfl, ?_, ?_⟩
            · simpa using hbehind.cons hg hx hends
            · rwa [List.length_append, ← Nat.add_assoc]
          · exact Or.inr ⟨[], l, _, ts, a', y, rest, rfl, ha, hy, rfl, hx, hr, hrest⟩

/-! ### Words behind a cut -/

/-- A byte that closes a string or a URI. -/
def Lexeme.isClosing (b : UInt8) : Bool := isQuote b || b == '}'.toUInt8

private theorem startsWord_no_numeral (c : UInt8) : startsWord c = true →
    isDigit c = false ∧ c ≠ '-'.toUInt8 ∧ c ≠ '.'.toUInt8 := by
  revert c
  exact forall_byte (by decide +kernel)

/-- A valid token that goes on into a word, where no string or URI ends, is a word or a qualified name. -/
theorem Lexeme.Spelled.goes_on {l : Lexeme} {x s : Text} {c : UInt8} (h : l.Spelled (x ++ c :: s)) (hx : x ≠ [])
    (hl : l.kind ≠ .invalid) (hc : startsWord c = true) (hends : ∀ d ∈ c :: s, isClosing d = false) :
    (l.kind = .identifier ∨ l.kind = .qualifiedName ∨ ∃ k, l.kind = .keyword k) ∧
      ∀ d ∈ c :: s, continuesWord d = true := by
  have hword : ∀ {b : UInt8} {s' : Text}, startsWord b = true → (∀ d ∈ s', continuesWord d = true) →
      x ++ c :: s = b :: s' → ∀ d ∈ c :: s, continuesWord d = true := by
    intro b s' hb hs' heq d hd
    have hmem : d ∈ b :: s' := heq ▸ List.mem_append_right x hd
    rcases List.mem_cons.1 hmem with rfl | hmem
    · simp [continuesWord, hb]
    · exact hs' d hmem
  generalize hz : x ++ c :: s = z at h
  cases h with
  | punctuation hk =>
    have hlength := congrArg List.length hz
    have hpos := List.length_pos_iff.2 hx
    simp at hlength
    omega
  | @string q inside hq hs =>
    have hlast := congrArg List.getLast? hz
    rw [List.getLast?_append_of_ne_nil _ (List.cons_ne_nil c s), List.getLast?_concat] at hlast
    have hnot := hends q (List.mem_of_getLast? hlast)
    rw [isClosing, hq] at hnot
    cases hnot
  | @qualifiedName uri name hu hn =>
    rcases List.append_eq_append_iff.1 hz with ⟨more, -, hmore⟩ | ⟨front, rfl, hmore⟩
    · have hmem : '}'.toUInt8 ∈ c :: s := hmore ▸ List.mem_append_right more (List.mem_cons_self ..)
      cases hends _ hmem
    · cases front with
      | nil =>
        rw [List.nil_append, List.cons.injEq] at hmore
        have hbrace := hends c (List.mem_cons_self ..)
        rw [← hmore.1] at hbrace
        cases hbrace
      | cons d front =>
        rw [List.cons_append, List.cons.injEq] at hmore
        exact ⟨Or.inr (Or.inl rfl), fun d hd => hn d (hmore.2 ▸ List.mem_append_right front hd)⟩
  | number n =>
    -- no byte of a numeral starts a word
    obtain ⟨hdigit, hsign, hpoint⟩ := startsWord_no_numeral c hc
    have hmem : c ∈ n.text := hz ▸ List.mem_append_right x (List.mem_cons_self ..)
    exact absurd hmem (Numeral.not_mem_text hdigit hsign hpoint)
  | keyword hb hs hk => exact ⟨Or.inr (Or.inr ⟨_, rfl⟩), hword hb hs hz⟩
  | identifier hb hs hk => exact ⟨Or.inl rfl, hword hb hs hz⟩
  | unclosed => exact absurd rfl hl
  | stray => exact absurd rfl hl

private theorem stopsRun_of_endsBefore {l : Lexeme} {rest : Text}
    (hl : l.kind = .identifier ∨ l.kind = .qualifiedName ∨ ∃ k, l.kind = .keyword k) (hr : l.EndsBefore rest) :
    StopsRun continuesWord rest := by
  obtain ⟨kind, text⟩ := l
  rcases hl with rfl | rfl | ⟨k, rfl⟩ <;> exact hr

/-- The token that crosses a cut in front of a word ends with the word. -/
theorem CrossesInto.ends_with_word {c : UInt8} {s behind : Text} (h : CrossesInto (c :: s ++ behind) ts)
    (hts : ∀ t ∈ ts, t.kind ≠ .invalid) (hc : startsWord c = true) (hs : ∀ d ∈ s, continuesWord d = true)
    (hstop : StopsRun continuesWord behind) (hends : ∀ d ∈ c :: s ++ behind, Lexeme.isClosing d = false) :
    ∃ before t after x, ts = before ++ t :: after ∧ x ≠ [] ∧ t.Spelled (x ++ c :: s) ∧
      (t.kind = .identifier ∨ t.kind = .qualifiedName ∨ ∃ k, t.kind = .keyword k) ∧
      Layout (t.position + (x ++ c :: s).length) behind after := by
  obtain ⟨before, l, q, after, x, y, rest, rfl, hx, hy, hb, hl, hr, hafter⟩ := h
  obtain ⟨c', s', rfl⟩ := List.exists_cons_of_ne_nil hy
  obtain rfl : c = c' := (List.cons.inj hb).1
  obtain ⟨hkind, hword⟩ := hl.goes_on hx (hts ⟨l, q⟩ (by simp)) hc fun d hd =>
    hends d (hb ▸ List.mem_append_left rest hd)
  have hword' : ∀ d ∈ c :: s, continuesWord d = true := by
    intro d hd
    rcases List.mem_cons.1 hd with rfl | hd
    · simp [continuesWord, hc]
    · exact hs d hd
  -- both the word and the end of the token stop in front of the same byte
  have hsame := congrArg (List.takeWhile continuesWord) hb
  rw [takeWhile_run hword' hstop, takeWhile_run hword (stopsRun_of_endsBefore hkind hr)] at hsame
  rw [← hsame, List.append_cancel_left_eq] at hb
  rw [← hsame] at hl hafter
  rw [← hb] at hafter
  exact ⟨before, ⟨l, q⟩, after, x, rfl, hx, hl, hkind, hafter⟩

end DocSearch
