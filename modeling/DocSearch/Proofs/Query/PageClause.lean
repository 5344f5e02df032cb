import DocSearch.Proofs.Query.PageBounds
import DocSearch.Proofs.Query.WellFormed
import DocSearch.Proofs.Token.Cut

/-!
# The clause for a page

A text that ends with a clause for a page is read up to the word `LIMIT` in the same way for all counts behind it, as
no other token can take in that word (`Query.exists_front`).  So which counts are accepted, what is wrong with others
and where the error lies depends on their values only, however long their digits are (`Query.parse_pageClause`).
-/

namespace DocSearch

open State (run)

variable {rule : NameRule} {n : Text} {m : Option Text}

/-! ### The tokens of the clause -/

/-- The counts of a page behind the word that opens the clause. -/
def countsText (n : Text) (m : Option Text) : Text := ascii " " ++ n ++ m.elim [] (ascii " OFFSET " ++ ·)

/-- The clause for a page with the given counts, the second of them for an offset if there is one. -/
def pageClause (n : Text) (m : Option Text) : Text := ascii "LIMIT" ++ countsText n m

/-- The tokens of the counts of a page up to the end of the text. -/
def countTokens (p : Nat) (n : Text) : Option Text → List Token
  | none => [⟨⟨.number, n⟩, p + 1⟩, ⟨⟨.endOfText, []⟩, p + 1 + n.length⟩]
  | some d =>
    [⟨⟨.number, n⟩, p + 1⟩, ⟨⟨.keyword .offset, ascii "OFFSET"⟩, p + 1 + n.length + 1⟩,
      ⟨⟨.number, d⟩, p + 1 + n.length + 8⟩, ⟨⟨.endOfText, []⟩, p + 1 + n.length + 8 + d.length⟩]

private theorem spelled_digits {s : Text} (hs : IsDigits s) : Lexeme.Spelled ⟨.number, s⟩ s := by
  have htext : Numeral.text ⟨false, s, none, hs, nofun⟩ = s := by
    simp [Numeral.text, Numeral.sign, Numeral.unsigned, Numeral.pointed]
  have h := Lexeme.Spelled.number ⟨false, s, none, hs, nofun⟩
  rwa [htext] at h

theorem layout_counts (hn : IsDigits n) (hm : ∀ d ∈ m, IsDigits d) (p : Nat) :
    Layout p (countsText n m) (countTokens p n m) := by
  have hgap : IsGap (ascii " ") := isGap_space
  have hspace : ∀ {l : Lexeme} (rest : Text), l.kind ≠ .invalid → l.EndsBefore (ascii " " ++ rest) :=
    fun rest hl => Lexeme.endsBefore_space hl (by decide) rest
  cases m with
  | none =>
    have hend := Layout.endOfText (p := p + 1 + n.length) isGap_nil
    exact .token hgap (spelled_digits hn) (Lexeme.endsBefore_nil _) hend
  | some d =>
    have hword : Lexeme.Spelled ⟨.keyword .offset, ascii "OFFSET"⟩ (ascii "OFFSET") :=
      .keyword (by decide) (List.all_eq_true.1 rfl) (by decide)
    have htext : countsText n (some d) =
        ascii " " ++ n ++ (ascii " " ++ ascii "OFFSET" ++ (ascii " " ++ d ++ [])) := by
      have hopen : ascii " OFFSET " = ascii " " ++ (ascii "OFFSET" ++ ascii " ") := by decide
      simp [countsText, hopen]
    have hend := Layout.endOfText (p := p + 1 + n.length + 8 + d.length) isGap_nil
    have hoffset := Layout.token hgap (spelled_digits (hm d rfl)) (Lexeme.endsBefore_nil _) hend
    have hopen := Layout.token hgap hword (hspace _ Kind.noConfusion) hoffset
    rw [htext]
    exact .token hgap (spelled_digits hn) (hspace _ Kind.noConfusion) hopen

theorem countTokens_eq_cons (p : Nat) (n : Text) (m : Option Text) :
    ∃ ts, countTokens p n m = ⟨⟨.number, n⟩, p + 1⟩ :: ts := by
  cases m <;> exact ⟨_, rfl⟩

/-- The token of the word that opens the clause. -/
def limitWord (p : Nat) : Token := ⟨⟨.keyword .limit, ascii "LIMIT"⟩, p⟩

theorem layout_pageClause (hn : IsDigits n) (hm : ∀ d ∈ m, IsDigits d) (p : Nat) :
    Layout p (pageClause n m) (limitWord p :: countTokens (p + 5) n m) := by
  have hword : Lexeme.Spelled ⟨.keyword .limit, ascii "LIMIT"⟩ (ascii "LIMIT") :=
    .keyword (by decide) (List.all_eq_true.1 rfl) (by decide)
  have hends : Lexeme.EndsBefore ⟨.keyword .limit, ascii "LIMIT"⟩ (countsText n m) := by
    rw [countsText, List.append_assoc]
    exact Lexeme.endsBefore_space Kind.noConfusion (by decide) _
  exact .token isGap_nil hword hends (layout_counts hn hm (p + 5))

/-! ### Reading up to the clause -/

namespace State

variable {st st' : State} {t u : Token}

/-- The word that opens the clause is read to the state that takes the counts. -/
theorem step_limitWord (ht : t.kind = .keyword .limit) (h : step rule st t = .ok st') : ∃ q, st' = .limit q := by
  obtain ⟨last, q, hnext⟩ := nextClause_of_step (by rw [ht]; rfl) h
  simp only [nextClause, ht] at hnext
  split at hnext <;> cases hnext
  exact ⟨q, rfl⟩

/-- In front of the counts nothing is known of the page. -/
theorem skip_eq_none_of_run {q : Query} {ts : List Token} (hts : ∀ t ∈ ts, t.IsRead)
    (h : run rule .start ts = .ok (.limit q)) : q.skip = none := by
  have hstart : State.start.Holds rule [] := rfl
  obtain ⟨a, u, -, -, hends, -⟩ := hstart.run hts h
  exact (Phrase.pageClause.inj (hends 3 (Nat.le_refl 3))).1

/-- A name is read as the field of a comparison or of a sort key. -/
private theorem step_name (ht : t.kind = .identifier ∨ t.kind = .qualifiedName) (h : step rule st t = .ok st') :
    (∃ q n name, st' = .criteria q n (.comparator name)) ∨ ∃ q keys name, st' = .sort q keys (.direction name) := by
  have hboundary : stepBoundary st t ≠ .ok st' := by
    intro hb
    obtain ⟨last, q, -, hnext⟩ := stepBoundary_eq_ok.1 hb
    rcases ht with ht | ht <;> simp only [nextClause, ht] at hnext <;> cases hnext
  obtain ⟨⟨kind, text⟩, p⟩ := t
  cases st with
  | criteria q n place =>
    cases place with
    | operand =>
      have hfield : (Token.field rule ⟨⟨kind, text⟩, p⟩ >>= fun name =>
          .ok (State.criteria q n (.comparator name))) = .ok st' := by
        rcases ht with rfl | rfl <;> exact h
      obtain ⟨name, -, hst⟩ := bind_eq_ok.1 hfield
      cases hst
      exact Or.inl ⟨q, n, name, rfl⟩
    | value | listValue => rcases ht with rfl | rfl <;> cases h
    | _ => rcases ht with rfl | rfl <;> exact absurd h hboundary
  | sort q keys place =>
    cases place with
    | field =>
      obtain ⟨name, -, hst⟩ := bind_eq_ok.1 h
      cases hst
      exact Or.inr ⟨q, keys, name, rfl⟩
    | _ => rcases ht with rfl | rfl <;> exact absurd h hboundary
  | _ => rcases ht with rfl | rfl <;> exact absurd h hboundary

/-- Behind a name no number is read. -/
theorem step_number_behind_name (ht : t.kind = .identifier ∨ t.kind = .qualifiedName)
    (h : step rule st t = .ok st') (hu : u.kind = .number) (st'' : State) : step rule st' u ≠ .ok st'' := by
  intro hs
  rw [Token.eq_of_kind hu] at hs
  rcases step_name ht h with ⟨q, n, name, rfl⟩ | ⟨q, keys, name, rfl⟩
  · simp [step, stepCriteria, stepBoundary, boundary?, Token.refuse] at hs
  · simp [step, stepSort, stepBoundary, boundary?, nextClause, Token.refuse] at hs

end State

/-- No other keyword ends with the letters of `LIMIT`. -/
private theorem eq_nil_of_spelling {k : Keyword} {x : Text} (h : capitals (x ++ ascii "LIMIT") = k.spelling) :
    x = [] := by
  have hsuffix : ascii "LIMIT" <:+ k.spelling := by
    rw [← h, capitals, List.map_append]
    exact List.suffix_append _ _
  have hlimit : k = .limit := by
    revert hsuffix
    cases k <;> decide
  have hlength := congrArg List.length h
  rw [hlimit, capitals, List.length_map, List.length_append] at hlength
  exact List.length_eq_zero_iff.1 (Nat.add_eq_right.1 hlength)

private theorem isClosing_of_isDigit (b : UInt8) : isDigit b = true → Lexeme.isClosing b = false := by
  revert b
  exact forall_byte (by decide +kernel)

/-- No string and no URI ends in the clause. -/
private theorem isClosing_of_mem_pageClause (hn : IsDigits n) (hm : ∀ d ∈ m, IsDigits d) :
    ∀ b ∈ pageClause n m, Lexeme.isClosing b = false := by
  have hlimit : ∀ b ∈ ascii "LIMIT", Lexeme.isClosing b = false := by decide +kernel
  have hspace : ∀ b ∈ ascii " ", Lexeme.isClosing b = false := by decide +kernel
  have hoffset : ∀ b ∈ ascii " OFFSET ", Lexeme.isClosing b = false := by decide +kernel
  intro b hb
  simp only [pageClause, countsText, List.mem_append] at hb
  rcases hb with hb | (hb | hb) | hb
  · exact hlimit b hb
  · exact hspace b hb
  · exact isClosing_of_isDigit b (hn.2 b hb)
  · cases m with
    | none => cases hb
    | some d =>
      rcases List.mem_append.1 hb with hb | hb
      · exact hoffset b hb
      · exact isClosing_of_isDigit b ((hm d rfl).2 b hb)

/-- Where a token crosses into the clause, the text is refused: the token is no keyword, as its letters end with those
of one, and behind a name no number is read. -/
private theorem run_of_crossesInto {ts : List Token} (hn : IsDigits n) (hm : ∀ d ∈ m, IsDigits d)
    (h : CrossesInto (pageClause n m) ts) (st : State) : run rule .start ts ≠ .ok st := by
  intro hrun
  have hstop : StopsRun continuesWord (countsText n m) := by
    rw [countsText, List.append_assoc]
    exact stopsRun_cons.2 (by decide)
  have hclause : pageClause n m = 'L'.toUInt8 :: ascii "IMIT" ++ countsText n m := rfl
  have hends := isClosing_of_mem_pageClause hn hm
  rw [hclause] at h hends
  obtain ⟨before, t, after, x, rfl, hx, ht, hkind, hafter⟩ := h.ends_with_word (State.kind_ne_invalid_of_run hrun)
    (by decide) (List.all_eq_true.1 rfl) hstop hends
  have hname : t.kind = .identifier ∨ t.kind = .qualifiedName := by
    rcases hkind with hk | hk | ⟨k, hk⟩
    · exact Or.inl hk
    · exact Or.inr hk
    · have hspelling := (ht.keyword_iff (by rw [hk]; rfl) k).1 hk
      rw [← ht.eq_text (by rw [hk]; nofun)] at hspelling
      exact absurd (eq_nil_of_spelling hspelling) hx
  obtain ⟨us, hus⟩ := countTokens_eq_cons (t.position + (x ++ ascii "LIMIT").length) n m
  have hcounts : after = ⟨⟨.number, n⟩, t.position + (x ++ ascii "LIMIT").length + 1⟩ :: us :=
    hafter.tokens_eq.symm.trans ((layout_counts hn hm _).tokens_eq.trans hus)
  rw [hcounts] at hrun
  obtain ⟨st₁, -, hrest⟩ := State.run_append_eq_ok hrun
  obtain ⟨st₂, hstep, hrest⟩ := State.run_cons_eq_ok.1 hrest
  obtain ⟨st₃, hnumber, -⟩ := State.run_cons_eq_ok.1 hrest
  exact State.step_number_behind_name hname hstep rfl st₃ hnumber

namespace Query

variable {front : Text}

/-- The tokens in front of the counts of a page are the same for all counts. -/
theorem exists_front (hn : IsDigits n) (hm : ∀ d ∈ m, IsDigits d) {q : Query}
    (h : Query.parse (front ++ pageClause n m) rule = .ok q) :
    ∃ ts q₀, run rule .start ts = .ok (.limit q₀) ∧ q₀.skip = none ∧
      ∀ n' m', IsDigits n' → (∀ d ∈ m', IsDigits d) →
        tokens (front ++ pageClause n' m') = ts ++ countTokens (front.length + 5) n' m' := by
  have hrun := parse_eq_ok.1 h
  have hlayout : Layout 0 (front ++ pageClause n m) (tokens (front ++ pageClause n m)) := layout_tokens ⟨0, _⟩
  rcases hlayout.cut with ⟨before, after, hts, hbefore, hafter⟩ | hcross
  · obtain rfl : after = limitWord (0 + front.length) :: countTokens (0 + front.length + 5) n m := by
      rw [← hafter.tokens_eq, (layout_pageClause hn hm _).tokens_eq]
    rw [hts] at hrun
    obtain ⟨st, hst, hclause⟩ := State.run_append_eq_ok hrun
    obtain ⟨st', hst', -⟩ := State.run_cons_eq_ok.1 hclause
    obtain ⟨q₀, rfl⟩ := State.step_limitWord rfl hst'
    have hlimit : run rule .start (before ++ [limitWord (0 + front.length)]) = .ok (.limit q₀) := by
      rw [State.run_append_of_ok hst, State.run_singleton, hst']
    have hread : ∀ t ∈ before ++ [limitWord (0 + front.length)], t.IsRead := by
      intro t ht
      have hmem : t ∈ tokens (front ++ pageClause n m) := by
        rw [hts, List.append_cons]
        exact List.mem_append_left _ ht
      exact isRead_of_mem_tokens hmem
    have hskip := State.skip_eq_none_of_run hread hlimit
    refine ⟨_, q₀, hlimit, hskip, fun n' m' hn' hm' => ?_⟩
    have hlayout' := hbefore (pageClause n' m') _ rfl (layout_pageClause hn' hm' _)
    rw [layout_iff.1 hlayout']
    simp
  · exact absurd hrun (run_of_crossesInto hn hm hcross _)

end Query

/-! ### Reading the counts -/

/-- What is wrong with a page of `limit` results behind `offset` others, and with which of the two. -/
def pageFault? (limit offset : Nat) : Option (CountClause × Fault) :=
  if limit = 0 then some (.limit, .zeroLimit)
  else if UInt64.size ≤ limit then some (.limit, .countTooLarge .limit)
  else if UInt64.size ≤ offset then some (.offset, .countTooLarge .offset)
  else if UInt64.size ≤ limit + offset then some (.offset, .offsetOutOfRange)
  else none

theorem pageFault?_eq_none {limit offset : Nat} :
    pageFault? limit offset = none ↔
      1 ≤ limit ∧ limit < UInt64.size ∧ offset < UInt64.size ∧ limit + offset < UInt64.size := by
  unfold pageFault?
  split_ifs <;> simp <;> omega

/-- The limit is looked at first, and only a limit that is one is held against the offset. -/
theorem pageFault?_eq_some {limit offset : Nat} {clause : CountClause} {fault : Fault}
    (h : pageFault? limit offset = some (clause, fault)) :
    (limit = 0 → clause = .limit ∧ fault = .zeroLimit) ∧
      (UInt64.size ≤ limit → clause = .limit ∧ fault = .countTooLarge .limit) ∧
      (1 ≤ limit → limit < UInt64.size → clause = .offset ∧ 0 < offset ∧
        fault = if UInt64.size ≤ offset then .countTooLarge .offset else .offsetOutOfRange) := by
  unfold pageFault? at h
  refine ⟨fun hzero => ?_, fun hlarge => ?_, fun hpos hword => ?_⟩
  · rw [if_pos hzero] at h
    cases h
    exact ⟨rfl, rfl⟩
  · have hpos : limit ≠ 0 := Nat.ne_of_gt (Nat.lt_of_lt_of_le (by decide) hlarge)
    rw [if_neg hpos, if_pos hlarge] at h
    cases h
    exact ⟨rfl, rfl⟩
  · rw [if_neg (Nat.ne_of_gt hpos), if_neg (Nat.not_le.2 hword)] at h
    by_cases hlarge : UInt64.size ≤ offset
    · rw [if_pos hlarge] at h ⊢
      cases h
      exact ⟨rfl, Nat.lt_of_lt_of_le (by decide) hlarge, rfl⟩
    · rw [if_neg hlarge] at h ⊢
      by_cases hsum : UInt64.size ≤ limit + offset
      · rw [if_pos hsum] at h
        cases h
        exact ⟨rfl, by omega, rfl⟩
      · rw [if_neg hsum] at h
        cases h

/-- The query with the given page. -/
def Query.withPage (q : Query) (limit : Nat) (offset : Option Nat) : Query :=
  { q with limit := some (UInt64.ofNat limit), skip := offset.map UInt64.ofNat }

theorem Query.words_withPage (q : Query) {limit : Nat} {offset : Option Nat} (hlimit : limit < UInt64.size)
    (hoffset : offset.getD 0 < UInt64.size) :
    (q.withPage limit offset).limit.map UInt64.toNat = some limit ∧
      (q.withPage limit offset).skip.map UInt64.toNat = offset := by
  refine ⟨congrArg some (UInt64.toNat_ofNat_of_lt' hlimit), ?_⟩
  cases offset with
  | none => rfl
  | some n => exact congrArg some (UInt64.toNat_ofNat_of_lt' hoffset)

/-- The position of a count of a page behind the word that opens the clause. -/
def countPosition (p : Nat) (n : Text) : CountClause → Nat
  | .limit => p + 1
  | .offset => p + 1 + n.length + 8

namespace State

variable {q : Query} {t : Token}

private theorem count_of_isDigits (ht : t.kind = .number) (hd : IsDigits t.text) (clause : CountClause) :
    t.count clause =
      if UInt64.size ≤ Decimal.value t.text then .error ⟨.countTooLarge clause, t.position⟩
      else .ok (UInt64.ofNat (Decimal.value t.text)) := by
  have hall : t.text.all isDigit = true := List.all_eq_true.2 hd.2
  rw [Token.count, if_pos ⟨ht, hall⟩, Decimal.word?, Token.refuse_of_number ht]
  by_cases hsize : UInt64.size ≤ Decimal.value t.text
  · rw [if_pos hsize, if_neg (Nat.not_lt.2 hsize)]
  · rw [if_neg hsize, if_pos (Nat.not_le.1 hsize)]

theorem step_limitCount (rule : NameRule) (q : Query) (ht : t.kind = .number) (hd : IsDigits t.text) :
    step rule (.limit q) t =
      if Decimal.value t.text = 0 then .error ⟨.zeroLimit, t.position⟩
      else if UInt64.size ≤ Decimal.value t.text then .error ⟨.countTooLarge .limit, t.position⟩
      else .ok (.clauses .limit { q with limit := some (UInt64.ofNat (Decimal.value t.text)) }) := by
  change stepLimit q t = _
  rw [stepLimit, count_of_isDigits ht hd]
  by_cases hzero : Decimal.value t.text = 0
  · rw [hzero]
    exact Token.refuse_of_number ht _
  · rw [if_neg hzero]
    by_cases hsize : UInt64.size ≤ Decimal.value t.text
    · rw [if_pos hsize, if_pos hsize]
      rfl
    · have hne : UInt64.ofNat (Decimal.value t.text) ≠ 0 := by
        intro h
        have hvalue := congrArg UInt64.toNat h
        rw [UInt64.toNat_ofNat_of_lt' (Nat.not_le.1 hsize)] at hvalue
        exact hzero hvalue
      rw [if_neg hsize, if_neg hsize, ok_bind, if_neg hne]
      rfl

theorem step_offsetCount (rule : NameRule) {limit : Nat} (hlimit : q.limit = some (UInt64.ofNat limit))
    (hword : limit < UInt64.size) (ht : t.kind = .number) (hd : IsDigits t.text) :
    step rule (.offset q) t =
      if UInt64.size ≤ Decimal.value t.text then .error ⟨.countTooLarge .offset, t.position⟩
      else if UInt64.size ≤ limit + Decimal.value t.text then .error ⟨.offsetOutOfRange, t.position⟩
      else .ok (.clauses .offset { q with skip := some (UInt64.ofNat (Decimal.value t.text)) }) := by
  change stepOffset q t = _
  rw [stepOffset, count_of_isDigits ht hd]
  by_cases hsize : UInt64.size ≤ Decimal.value t.text
  · rw [if_pos hsize, if_pos hsize]
    rfl
  · have hroom : UInt64.ofNat (Decimal.value t.text) ≤ Decimal.maxWord - q.limit.getD 0 ↔
        limit + Decimal.value t.text < UInt64.size := by
      rw [hlimit, Option.getD_some, Decimal.le_maxWord_sub_iff, UInt64.toNat_ofNat_of_lt' hword,
        UInt64.toNat_ofNat_of_lt' (Nat.not_le.1 hsize), Nat.add_comm]
    rw [if_neg hsize, if_neg hsize, ok_bind]
    by_cases hsum : UInt64.size ≤ limit + Decimal.value t.text
    · rw [if_pos hsum, if_neg fun h => Nat.not_lt.2 hsum (hroom.1 h), Token.refuse_of_number ht]
    · rw [if_neg hsum, if_pos (hroom.2 (Nat.not_le.1 hsum))]
      rfl

private theorem run_offsetTokens (rule : NameRule) {limit : Nat} (hlimit : q.limit = some (UInt64.ofNat limit))
    (hword : limit < UInt64.size) {d : Text} (hd : IsDigits d) (p p' p'' : Nat) :
    run rule (.clauses .limit q)
        [⟨⟨.keyword .offset, ascii "OFFSET"⟩, p⟩, ⟨⟨.number, d⟩, p'⟩, ⟨⟨.endOfText, []⟩, p''⟩] =
      if UInt64.size ≤ Decimal.value d then .error ⟨.countTooLarge .offset, p'⟩
      else if UInt64.size ≤ limit + Decimal.value d then .error ⟨.offsetOutOfRange, p'⟩
      else .ok (.done { q with skip := some (UInt64.ofNat (Decimal.value d)) }) := by
  have hopen : step rule (.clauses .limit q) ⟨⟨.keyword .offset, ascii "OFFSET"⟩, p⟩ = .ok (.offset q) := rfl
  rw [run_cons_of_ok hopen, run_cons, step_offsetCount rule hlimit hword rfl hd]
  split_ifs <;> rfl

/-- Whether the counts are read, and where the first one that is not lies, depends on their values. -/
theorem run_countTokens (hn : IsDigits n) (hm : ∀ d ∈ m, IsDigits d) (hskip : q.skip = none) (p : Nat) :
    run rule (.limit q) (countTokens p n m) =
      match pageFault? (Decimal.value n) ((m.map Decimal.value).getD 0) with
      | some (clause, fault) => .error ⟨fault, countPosition p n clause⟩
      | none => .ok (.done (q.withPage (Decimal.value n) (m.map Decimal.value))) := by
  have hlimit := step_limitCount rule q (t := ⟨⟨.number, n⟩, p + 1⟩) rfl hn
  obtain ⟨ts, hts⟩ := countTokens_eq_cons p n m
  dsimp only at hlimit
  unfold pageFault?
  by_cases hzero : Decimal.value n = 0
  · rw [if_pos hzero] at hlimit ⊢
    rw [hts, run_cons_of_error hlimit]
    rfl
  by_cases hsize : UInt64.size ≤ Decimal.value n
  · rw [if_neg hzero, if_pos hsize] at hlimit ⊢
    rw [hts, run_cons_of_error hlimit]
    rfl
  rw [if_neg hzero, if_neg hsize] at hlimit ⊢
  cases m with
  | none =>
    have hsum : ¬ UInt64.size ≤ Decimal.value n + 0 := hsize
    rw [countTokens, run_cons_of_ok hlimit, run_singleton, Option.map_none, Option.getD_none, if_neg (by decide),
      if_neg hsum, Query.withPage, Option.map_none, ← hskip]
    rfl
  | some d =>
    rw [countTokens, run_cons_of_ok hlimit, run_offsetTokens rule rfl (Nat.not_le.1 hsize) (hm d rfl), Option.map_some,
      Option.getD_some]
    split_ifs <;> rfl

end State

/-! ### Texts with a clause for a page -/

namespace Query

variable {front : Text}

/-- The clause at the end of a text is read by the values of its counts, if it is read with any counts at all. -/
theorem exists_parse_pageClause (hn : IsDigits n) (hm : ∀ d ∈ m, IsDigits d) {q : Query}
    (h : Query.parse (front ++ pageClause n m) rule = .ok q) :
    ∃ q₀ : Query, ∀ n' m', IsDigits n' → (∀ d ∈ m', IsDigits d) →
      Query.parse (front ++ pageClause n' m') rule =
        match pageFault? (Decimal.value n') ((m'.map Decimal.value).getD 0) with
        | some (clause, fault) => .error ⟨fault, countPosition (front.length + 5) n' clause⟩
        | none => .ok (q₀.withPage (Decimal.value n') (m'.map Decimal.value)) := by
  obtain ⟨ts, q₀, hts, hskip, hcounts⟩ := exists_front hn hm h
  refine ⟨q₀, fun n' m' hn' hm' => ?_⟩
  have hrun := (State.run_append_of_ok hts _).trans (State.run_countTokens hn' hm' hskip (front.length + 5))
  rw [← hcounts n' m' hn' hm'] at hrun
  cases hfault : pageFault? (Decimal.value n') ((m'.map Decimal.value).getD 0) with
  | none =>
    rw [hfault] at hrun
    exact parse_eq_ok.2 hrun
  | some cf =>
    rw [hfault] at hrun
    exact parse_eq_error.2 hrun

/-- If the counts 1 and 0 are accepted, the query is known up to its page. -/
private theorem exists_parse_pageClause_of_one {one : Query}
    (h : Query.parse (front ++ pageClause (ascii "1") (m.map fun _ => ascii "0")) rule = .ok one) :
    ∃ q₀ : Query, one = q₀.withPage 1 (m.map fun _ => 0) ∧ ∀ n' m', IsDigits n' → (∀ d ∈ m', IsDigits d) →
      Query.parse (front ++ pageClause n' m') rule =
        match pageFault? (Decimal.value n') ((m'.map Decimal.value).getD 0) with
        | some (clause, fault) => .error ⟨fault, countPosition (front.length + 5) n' clause⟩
        | none => .ok (q₀.withPage (Decimal.value n') (m'.map Decimal.value)) := by
  have hdigit : IsDigits (ascii "1") := isDigits_singleton (by decide)
  have hzero : ∀ d ∈ m.map fun _ => ascii "0", IsDigits d := by
    intro d hd
    obtain ⟨-, -, rfl⟩ := Option.map_eq_some_iff.1 hd
    exact isDigits_singleton (by decide)
  obtain ⟨q₀, hparse⟩ := exists_parse_pageClause hdigit hzero h
  refine ⟨q₀, ?_, hparse⟩
  have hone := hparse _ _ hdigit hzero
  rw [h] at hone
  cases m <;> exact Except.ok.inj hone

/-- The page shows in the bounds behind the compiled text and nowhere else. -/
theorem compile_withPage (q : Query) {limit : Nat} {offset : Option Nat} (hlimit : limit < UInt64.size)
    (hoffset : offset.getD 0 < UInt64.size) (prefixes : Bool) :
    (q.withPage limit offset).compile prefixes = (compile prefixes { q with limit := none }).map
      (· ++ boundsText (offset.getD 0 + 1) (offset.getD 0 + limit)) := by
  have hwords : (q.withPage limit offset).offset.toNat = offset.getD 0 := by
    cases offset with
    | none => rfl
    | some n => exact UInt64.toNat_ofNat_of_lt' hoffset
  rw [compile_eq_map_page (q := q.withPage limit offset) rfl, hwords, UInt64.toNat_ofNat_of_lt' hlimit]
  exact congrArg (Except.map _) (compile_skip q _ prefixes)

/-- If the query compiles with one page, it compiles with each other one, and the texts differ in the bounds only. -/
theorem compile_withPage_ok {q : Query} {prefixes : Bool} {text : Text} {limit limit' : Nat}
    {offset offset' : Option Nat} (hlimit : limit < UInt64.size) (hoffset : offset.getD 0 < UInt64.size)
    (hlimit' : limit' < UInt64.size) (hoffset' : offset'.getD 0 < UInt64.size)
    (h : (q.withPage limit offset).compile prefixes = .ok text) :
    ∃ base, text = base ++ boundsText (offset.getD 0 + 1) (offset.getD 0 + limit) ∧
      (q.withPage limit' offset').compile prefixes =
        .ok (base ++ boundsText (offset'.getD 0 + 1) (offset'.getD 0 + limit')) := by
  rw [compile_withPage q hlimit hoffset] at h
  rw [compile_withPage q hlimit' hoffset']
  cases hbase : compile prefixes { q with limit := none } with
  | error f =>
    rw [hbase] at h
    cases h
  | ok base =>
    rw [hbase] at h
    exact ⟨base, (Except.ok.inj h).symm, rfl⟩

/-- Let a text end with a clause for a page, and let it be accepted with the counts 1 and 0.  With other counts it is
accepted if and only if the limit is positive and the last number of the page is a word, and of the query only the page
changes.  If it is not accepted, the error lies at the first count that is wrong. -/
theorem parse_pageClause {one : Query} {limit offset : Nat} (hn : IsDigits n) (hm : ∀ d ∈ m, IsDigits d)
    (hone : Query.parse (front ++ pageClause (ascii "1") (m.map fun _ => ascii "0")) rule = .ok one)
    (hlimit : Decimal.value n = limit) (hoffset : (m.map Decimal.value).getD 0 = offset) :
    ((∃ q, Query.parse (front ++ pageClause n m) rule = .ok q) ↔
      1 ≤ limit ∧ limit < UInt64.size ∧ offset < UInt64.size ∧ limit + offset < UInt64.size) ∧
    (∀ q, Query.parse (front ++ pageClause n m) rule = .ok q →
      q = { one with limit := q.limit, skip := q.skip } ∧ q.limit.map UInt64.toNat = some limit ∧
        q.skip.map UInt64.toNat = m.map Decimal.value ∧
        ∀ prefixes, ∃ text, one.compile prefixes = .ok (text ++ boundsText 1 1) ∧
          q.compile prefixes = .ok (text ++ boundsText (offset + 1) (offset + limit))) ∧
    ∀ e, Query.parse (front ++ pageClause n m) rule = .error e →
      (limit = 0 → e.position = (front ++ ascii "LIMIT ").length ∧
        e.fault.message = ascii "LIMIT must be greater than zero") ∧
      (UInt64.size ≤ limit → e.position = (front ++ ascii "LIMIT ").length ∧
        e.fault.message = ascii "Invalid LIMIT value") ∧
      (1 ≤ limit → limit < UInt64.size → m.isSome = true ∧
        e.position = (front ++ ascii "LIMIT " ++ n ++ ascii " OFFSET ").length ∧
        e.fault.message =
          if UInt64.size ≤ offset then ascii "Invalid OFFSET value" else ascii "OFFSET out of range for LIMIT") := by
  obtain ⟨q₀, rfl, h⟩ := exists_parse_pageClause_of_one hone
  rw [h n m hn hm, hlimit, hoffset]
  cases hfault : pageFault? limit offset with
  | none =>
    obtain ⟨hpos, hword, hword', hsum⟩ := pageFault?_eq_none.1 hfault
    refine ⟨iff_of_true ⟨_, rfl⟩ ⟨hpos, hword, hword', hsum⟩, ?_, nofun⟩
    rintro q ⟨⟩
    rw [← hoffset] at hword' ⊢
    obtain ⟨hlimit', hskip⟩ := q₀.words_withPage hword hword'
    refine ⟨rfl, hlimit', hskip, fun prefixes => ?_⟩
    have hnone : (m.map fun _ => 0).getD 0 = 0 := by cases m <;> rfl
    obtain ⟨text, htext⟩ := (wellFormed_of_parse hone).compile_ok prefixes
    obtain ⟨base, rfl, hcompile⟩ := compile_withPage_ok (by decide) (by rw [hnone]; decide) hword hword' htext
    rw [hnone] at htext
    exact ⟨base, htext, hcompile⟩
  | some cf =>
    obtain ⟨clause, fault⟩ := cf
    obtain ⟨hlow, hlarge, hrest⟩ := pageFault?_eq_some hfault
    have hrefused : ¬ (1 ≤ limit ∧ limit < UInt64.size ∧ offset < UInt64.size ∧ limit + offset < UInt64.size) := by
      rw [← pageFault?_eq_none, hfault]
      nofun
    refine ⟨iff_of_false nofun hrefused, nofun, ?_⟩
    rintro e ⟨⟩
    have hplace : (front ++ ascii "LIMIT ").length = front.length + 5 + 1 := List.length_append
    have hplace' : (front ++ ascii "LIMIT " ++ n ++ ascii " OFFSET ").length = front.length + 5 + 1 + n.length + 8 := by
      rw [List.length_append, List.length_append, hplace]
      rfl
    refine ⟨fun h0 => ?_, fun hsize => ?_, fun hpos hword => ?_⟩
    · obtain ⟨rfl, rfl⟩ := hlow h0
      exact ⟨hplace.symm, rfl⟩
    · obtain ⟨rfl, rfl⟩ := hlarge hsize
      exact ⟨hplace.symm, rfl⟩
    · obtain ⟨rfl, hpos', rfl⟩ := hrest hpos hword
      refine ⟨?_, hplace'.symm, ?_⟩
      · cases m with
        | none => exact absurd hoffset (Nat.ne_of_lt hpos')
        | some d => rfl
      · split_ifs <;> rfl

/-- The last page of ten results whose numbers are words, with zeros in front of its offset. -/
theorem parse_pageClause_lastPage :
    ∃ q, Query.parse (ascii "SEARCH LIMIT 10 OFFSET 00018446744073709551605") = .ok q ∧
      ∃ text, q.compile false = .ok (text ++ ascii "[18446744073709551606 to 18446744073709551615]") := by
  have hlimit : IsDigits (ascii "10") := ⟨by decide, List.all_eq_true.1 rfl⟩
  have hoffset : ∀ d ∈ some (ascii "00018446744073709551605"), IsDigits d := by
    rintro d ⟨⟩
    exact ⟨by decide, List.all_eq_true.1 rfl⟩
  have hone : Query.parse (ascii "SEARCH " ++ pageClause (ascii "1") (some (ascii "0"))) .ascii =
      .ok { limit := some 1, skip := some 0 } := by
    decide +kernel
  have hten : Decimal.value (ascii "10") = 10 := by decide
  have hvalue : ((some (ascii "00018446744073709551605")).map Decimal.value).getD 0 = 18446744073709551605 := by
    decide +kernel
  obtain ⟨haccepted, hquery, -⟩ := parse_pageClause hlimit hoffset hone hten hvalue
  have hclause : ascii "SEARCH LIMIT 10 OFFSET 00018446744073709551605" =
      ascii "SEARCH " ++ pageClause (ascii "10") (some (ascii "00018446744073709551605")) := by decide +kernel
  have hbounds : boundsText (18446744073709551605 + 1) (18446744073709551605 + 10) =
      ascii "[18446744073709551606 to 18446744073709551615]" := by decide +kernel
  obtain ⟨q, hq⟩ := haccepted.2 (by decide)
  obtain ⟨-, -, -, hcompile⟩ := hquery q hq
  obtain ⟨text, -, htext⟩ := hcompile false
  rw [← hclause] at hq
  rw [hbounds] at htext
  exact ⟨q, hq, text, htext⟩

end Query

end DocSearch
