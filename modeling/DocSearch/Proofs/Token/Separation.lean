import DocSearch.Proofs.Token.Relaid

/-!
# Texts with a space between them

Where a token ends does not change when a space and another text follow the text (`frontsAlike_append_space`), unless
the token is open to the end of the text (`Layout.unclosed_reaches_end`).  So the tokens of two texts with a space
between them are those of the first one and those of the second one further on if and only if nothing is open in the
first one (`tokens_separated`).
-/

namespace DocSearch

variable {p : Nat} {a : Text} {ts : List Token} {w : UInt8}

/-! ### A space behind a text -/

theorem frontsAlike_append_space (s : Text) (hw : isSpace w = true) (b : Text) : FrontsAlike s (s ++ w :: b) := by
  have hfirst : ∀ c, isSpace c = false → c ≠ w := by
    rintro c hc rfl
    rw [hw] at hc
    cases hc
  intro c t heq hc
  cases s with
  | nil =>
    rw [List.nil_append, List.cons.injEq] at heq
    exact absurd heq.1.symm (hfirst c hc)
  | cons c' s =>
    rw [List.cons_append, List.cons.injEq] at heq
    obtain ⟨rfl, rfl⟩ := heq
    refine ⟨c', s, rfl, rfl, fun d hd hsp => ?_⟩
    cases s with
    | nil => exact absurd (Option.some.inj hd).symm (hfirst d hsp)
    | cons d' s => exact ⟨d', rfl, congrArg toUpper (Option.some.inj hd)⟩

/-- A text with nothing open in it keeps its tokens in front of a space and another text. -/
theorem Layout.append_space (h : Layout p a ts) (hclosed : ∀ t ∈ ts, ¬t.toLexeme.IsUnclosed) (hw : isSpace w = true)
    {b : Text} {us : List Token} (hus : Layout (p + a.length + 1) b us) :
    Layout p (a ++ w :: b) (ts.dropLast ++ us) := by
  induction h with
  | @endOfText p gap hg =>
    have hgap : IsGap (gap ++ [w]) := hg.append (by simpa [IsGap] using hw)
    rw [Nat.add_assoc, ← List.length_singleton (a := w), ← List.length_append] at hus
    have h := hus.behind_gap hgap
    rwa [List.append_assoc] at h
  | @token p gap x rest l ts hg hx hr hrest ih =>
    -- the token ends as it did in front of the end of the text, as a space continues no token but an open one
    have hl : ¬l.IsUnclosed := hclosed ⟨l, p + gap.length⟩ (List.mem_cons_self ..)
    have hends : l.EndsBefore (rest ++ w :: b) := hr.of_alike (frontsAlike_append_space rest hw b) hl
    have hplace : p + (gap ++ x ++ rest).length + 1 = p + gap.length + x.length + rest.length + 1 := by
      simp only [List.length_append, Nat.add_assoc]
    rw [hplace] at hus
    have hbehind := ih (fun t ht => hclosed t (List.mem_cons_of_mem _ ht)) hus
    obtain ⟨body, e, rfl, -, -⟩ := hrest.eq_append_end
    rw [List.dropLast_concat] at hbehind
    rw [← List.cons_append, List.dropLast_concat, List.append_assoc]
    exact .token hg hx hends hbehind

/-! ### What is open -/

/-- What is open in a text takes up all of its rest. -/
theorem Layout.unclosed_reaches_end (h : Layout p a ts) :
    ∀ t ∈ ts, t.toLexeme.IsUnclosed → t.position + t.text.length = p + a.length := by
  induction h with
  | endOfText hg =>
    intro t ht hopen
    rw [List.mem_singleton.1 ht] at hopen
    cases hopen.1
  | @token p gap x rest l ts hg hx hr _ ih =>
    intro t ht hopen
    rcases List.mem_cons.1 ht with rfl | ht
    · have hkind : l.kind = .invalid := hopen.1
      have hsource : x = l.text := hx.eq_text (by simp [hkind])
      rw [hopen.rest_eq_nil hr, hsource]
      simp [Nat.add_assoc]
    · rw [ih t ht hopen]
      simp [Nat.add_assoc]

/-! ### Two texts -/

/-- The tokens of two texts with a space between them are those of the first text, less its end, and those of the second
text behind that space, if and only if nothing is open in the first text. -/
theorem tokens_separated (a b : Text) (hw : isSpace w = true) :
    ∃ body, tokens a = body ++ [⟨⟨.endOfText, []⟩, a.length⟩] ∧
      (tokens (a ++ w :: b) = body ++ (tokens b).map (Token.moved (a.length + 1)) ↔
        ∀ t ∈ tokens a, ¬t.toLexeme.IsUnclosed) := by
  have hlayout : Layout 0 a (tokens a) := layout_tokens ⟨0, a⟩
  obtain ⟨ps, gap, -, hts, -⟩ := hlayout.exists_pieces
  rw [Nat.zero_add] at hts
  refine ⟨placed 0 ps, hts, fun htokens t ht hopen => ?_, fun hclosed => ?_⟩
  · -- a token that is open would reach the ends of both texts
    have hmem : t ∈ tokens (a ++ w :: b) := by
      rw [hts] at ht
      rcases List.mem_append.1 ht with ht | ht
      · exact htokens ▸ List.mem_append_left _ ht
      · rw [List.mem_singleton.1 ht] at hopen
        cases hopen.1
    have hend := hlayout.unclosed_reaches_end t ht hopen
    have hend' := (layout_tokens ⟨0, a ++ w :: b⟩).unclosed_reaches_end t hmem hopen
    simp only [List.length_append, List.length_cons] at hend'
    omega
  · have hb : Layout 0 b (tokens b) := layout_tokens ⟨0, b⟩
    have hmoved := hb.moved (a.length + 1)
    rw [← Nat.add_assoc] at hmoved
    have h := hlayout.append_space hclosed hw hmoved
    rw [hts, List.dropLast_concat] at h
    exact layout_iff.1 h

/-- A point and a hyphen at the end of a text do not reach the digit behind the space, and an open string does. -/
theorem tokens_separated_numberAtEnd :
    isSpace 10 = true ∧
      tokens (ascii "{u}a = 1.-" ++ 10 :: ascii "5") =
        [⟨⟨.qualifiedName, ascii "{u}a"⟩, 0⟩, ⟨⟨.equal, ascii "="⟩, 5⟩, ⟨⟨.number, ascii "1"⟩, 7⟩,
          ⟨⟨.invalid, ascii "."⟩, 8⟩, ⟨⟨.invalid, ascii "-"⟩, 9⟩] ++ (tokens (ascii "5")).map (Token.moved 11) ∧
      ∃ body, tokens (ascii "x 'y") = body ++ [⟨⟨.endOfText, []⟩, 4⟩] ∧
        tokens (ascii "x 'y" ++ 10 :: ascii "z'") ≠ body ++ (tokens (ascii "z'")).map (Token.moved 5) := by
  have hspace : isSpace 10 = true := by decide
  refine ⟨hspace, ?_, ?_⟩
  · obtain ⟨body, hbody, hiff⟩ := tokens_separated (ascii "{u}a = 1.-") (ascii "5") hspace
    have htokens : tokens (ascii "{u}a = 1.-") =
        [⟨⟨.qualifiedName, ascii "{u}a"⟩, 0⟩, ⟨⟨.equal, ascii "="⟩, 5⟩, ⟨⟨.number, ascii "1"⟩, 7⟩,
          ⟨⟨.invalid, ascii "."⟩, 8⟩, ⟨⟨.invalid, ascii "-"⟩, 9⟩] ++ [⟨⟨.endOfText, []⟩, 10⟩] := by
      decide +kernel
    obtain ⟨rfl, -⟩ := List.append_inj' (htokens.symm.trans hbody) rfl
    refine hiff.2 ?_
    rw [htokens]
    unfold Lexeme.IsUnclosed
    decide +kernel
  · obtain ⟨body, hbody, hiff⟩ := tokens_separated (ascii "x 'y") (ascii "z'") hspace
    have htokens : tokens (ascii "x 'y") =
        [⟨⟨.identifier, ascii "x"⟩, 0⟩, ⟨⟨.invalid, ascii "'y"⟩, 2⟩, ⟨⟨.endOfText, []⟩, 4⟩] := by
      decide +kernel
    refine ⟨body, hbody, fun heq => ?_⟩
    refine hiff.1 heq ⟨⟨.invalid, ascii "'y"⟩, 2⟩ ?_ ⟨rfl, '\''.toUInt8, by decide, by decide⟩
    simp [htokens]

end DocSearch
