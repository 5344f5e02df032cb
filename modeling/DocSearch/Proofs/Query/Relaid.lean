import DocSearch.Proofs.Query.Position
import DocSearch.Proofs.Query.Recognition
import DocSearch.Proofs.Token.Relaid

/-!
# Reading a text in another layout

A reading state looks at the kind of a keyword only, never at its letters, so tokens that match are read alike
(`State.run_matches_ok`, `State.run_matches_error`).  Hence a text in another layout denotes the same query, or it is
refused at the same token for the same reason (`Query.parse_relaid`).
-/

namespace DocSearch

open State (run)

variable {rule : NameRule}

/-! ### Letters of keywords -/

/-- The letters of a keyword do not matter to a state. -/
theorem State.step_keyword (st : State) (k : Keyword) (text text' : Text) (p : Nat) :
    step rule st ⟨⟨.keyword k, text⟩, p⟩ = step rule st ⟨⟨.keyword k, text'⟩, p⟩ := by
  cases st with
  | criteria q n place => cases k <;> cases place <;> rfl
  | sort q keys place => cases k <;> cases place <;> rfl
  | _ => cases k <;> rfl

namespace State

variable {t t' : Token}

/-- Matching tokens differ for a state in their positions only. -/
private theorem step_matches (h : t.toLexeme.Matches t'.toLexeme) (st : State) :
    step rule st t' = step rule st ⟨t.toLexeme, t'.position⟩ := by
  obtain ⟨⟨kind, text⟩, p⟩ := t
  obtain ⟨⟨kind', text'⟩, p'⟩ := t'
  obtain rfl : kind' = kind := h.kind
  by_cases hk : ∃ k, kind' = .keyword k
  · obtain ⟨k, rfl⟩ := hk
    exact step_keyword st k text' text p'
  · obtain rfl : text' = text := h.text fun k hkind => hk ⟨k, hkind⟩
    rfl

theorem step_matches_ok {st st' : State} (h : t.toLexeme.Matches t'.toLexeme) (hs : step rule st t = .ok st') :
    step rule st t' = .ok st' := by
  rw [step_matches h]
  exact (settled_step st t.toLexeme).eq_ok hs t'.position

theorem step_matches_error {st : State} {e : ParseError} (h : t.toLexeme.Matches t'.toLexeme)
    (hs : step rule st t = .error e) : step rule st t' = .error ⟨e.fault, t'.position⟩ := by
  rw [step_matches h]
  exact (settled_step st t.toLexeme).eq_error hs t'.position

/-! ### Runs -/

variable {ts ts' : List Token}

/-- Matching tokens are read alike. -/
theorem run_matches_ok {st st' : State} (h : List.Forall₂ (fun t t' => t.toLexeme.Matches t'.toLexeme) ts ts')
    (hrun : run rule st ts = .ok st') : run rule st ts' = .ok st' := by
  induction h generalizing st with
  | nil => exact hrun
  | cons ht _ ih =>
    obtain ⟨st₁, hstep, hrest⟩ := run_cons_eq_ok.1 hrun
    rw [run_cons_of_ok (step_matches_ok ht hstep)]
    exact ih hrest

/-- Of matching tokens the same is refused. -/
theorem run_matches_error {st : State} {e : ParseError}
    (h : List.Forall₂ (fun t t' => t.toLexeme.Matches t'.toLexeme) ts ts') (hrun : run rule st ts = .error e) :
    ∃ (i : Nat) (t t' : Token), ts[i]? = some t ∧ ts'[i]? = some t' ∧ e.position = t.position ∧
      run rule st ts' = .error ⟨e.fault, t'.position⟩ := by
  induction h generalizing st with
  | nil => cases hrun
  | @cons t t' ts ts' ht _ ih =>
    cases hstep : step rule st t with
    | error e' =>
      rw [run_cons, hstep] at hrun
      cases hrun
      refine ⟨0, t, t', rfl, rfl, position_of_step hstep, ?_⟩
      exact run_cons_of_error (step_matches_error ht hstep) ts'
    | ok st₁ =>
      rw [run_cons_of_ok hstep] at hrun
      obtain ⟨i, u, u', hu, hu', hp, hrest⟩ := ih hrun
      refine ⟨i + 1, u, u', hu, hu', hp, ?_⟩
      rw [run_cons_of_ok (step_matches_ok ht hstep), hrest]

end State

/-! ### Texts -/

/-- A text in another layout has the same tokens up to the letter case of keywords.  It denotes the same query, or it
is refused for the same reason at the token with the same number. -/
theorem Query.parse_relaid (rule : NameRule) (s s' : Text) (h : Relaid (pieces s) s') :
    List.Forall₂ (fun t t' => t.toLexeme.Matches t'.toLexeme) (tokens s) (tokens s') ∧
      (∀ q, Query.parse s rule = .ok q → Query.parse s' rule = .ok q) ∧
      ∀ e, Query.parse s rule = .error e → ∃ (i : Nat) (t t' : Token), (tokens s)[i]? = some t ∧
        (tokens s')[i]? = some t' ∧ e.position = t.position ∧ Query.parse s' rule = .error ⟨e.fault, t'.position⟩ := by
  obtain ⟨ts', hts', hmatches⟩ := (layout_iff.2 rfl).relaid h 0
  obtain rfl : tokens s' = ts' := layout_iff.1 hts'
  refine ⟨hmatches, fun q hq => ?_, fun e he => ?_⟩
  · exact parse_eq_ok.2 (State.run_matches_ok hmatches (parse_eq_ok.1 hq))
  · obtain ⟨i, t, t', ht, ht', hp, hrun⟩ := State.run_matches_error hmatches (parse_eq_error.1 he)
    exact ⟨i, t, t', ht, ht', hp, parse_eq_error.2 hrun⟩

theorem Query.parse_relaid_spread :
    Relaid (pieces (ascii "search IN 'b'limit 1;")) (ascii "\tSEARCH  iN\n'b' LIMIT 1 ;") ∧
      Query.parse (ascii "\tSEARCH  iN\n'b' LIMIT 1 ;") = .ok { collection := some (ascii "b"), limit := some 1 } := by
  have hpieces : pieces (ascii "search IN 'b'limit 1;") =
      [⟨[], ascii "search", ⟨.keyword .search, ascii "search"⟩⟩, ⟨ascii " ", ascii "IN", ⟨.keyword .in_, ascii "IN"⟩⟩,
        ⟨ascii " ", ascii "'b'", ⟨.string, ascii "b"⟩⟩, ⟨[], ascii "limit", ⟨.keyword .limit, ascii "limit"⟩⟩,
        ⟨ascii " ", ascii "1", ⟨.number, ascii "1"⟩⟩, ⟨[], ascii ";", ⟨.semicolon, ascii ";"⟩⟩,
        ⟨[], [], ⟨.endOfText, []⟩⟩] := by
    decide +kernel
  have hgap : ∀ s : Text, s.all isSpace = true → IsGap s := fun s hs => List.all_eq_true.1 hs
  have hrelaid : Relaid (pieces (ascii "search IN 'b'limit 1;")) (ascii "\tSEARCH  iN\n'b' LIMIT 1 ;") := by
    have htext : ascii "\tSEARCH  iN\n'b' LIMIT 1 ;" =
        ascii "\t" ++ ascii "SEARCH" ++ (ascii "  " ++ ascii "iN" ++ (ascii "\n" ++ ascii "'b'" ++
          (ascii " " ++ ascii "LIMIT" ++ (ascii " " ++ ascii "1" ++ (ascii " " ++ ascii ";" ++
            ([] ++ [] ++ [])))))) := by
      decide +kernel
    rw [hpieces, htext]
    have hsearch : (ascii "SEARCH").map toUpper = (ascii "search").map toUpper := by decide +kernel
    have hin : (ascii "iN").map toUpper = (ascii "IN").map toUpper := by decide +kernel
    have hlimit : (ascii "LIMIT").map toUpper = (ascii "limit").map toUpper := by decide +kernel
    refine .cons (hgap _ rfl) (by decide) hsearch nofun <| .cons (hgap _ rfl) (by decide) hin nofun <|
      .cons (hgap _ rfl) (by decide) rfl nofun <| .cons (hgap _ rfl) (by decide) hlimit nofun <|
      .cons (hgap _ rfl) (by decide) rfl nofun <| .cons (hgap _ rfl) (by decide) rfl nofun <|
      .cons (hgap _ rfl) (by decide) rfl nofun .nil
  have hparse : Query.parse (ascii "search IN 'b'limit 1;") =
      .ok { collection := some (ascii "b"), limit := some 1 } := by
    decide +kernel
  exact ⟨hrelaid, (Query.parse_relaid .ascii _ _ hrelaid).2.1 _ hparse⟩

end DocSearch
