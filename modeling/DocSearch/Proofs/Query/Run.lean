import DocSearch.Proofs.Query.Step

/-!
# Runs of reading states

A run takes a state through a list of tokens.  It stops at the first token that is refused, and that token is where the
error lies (`State.run_eq_error`).  Some kinds of tokens are read only where a clause may end
(`State.stepBoundary_of_step`), and none that is invalid (`State.kind_ne_invalid_of_run`).
-/

namespace DocSearch

theorem Token.refuse_of_number {α : Type} {t : Token} (h : t.kind = .number) (fault : Fault) :
    (t.refuse fault : Except ParseError α) = .error ⟨fault, t.position⟩ := by
  rw [Token.eq_of_kind h]
  rfl

/-- The kinds of tokens that are read only where a clause may end, if at all. -/
def Kind.endsClause : Kind → Bool
  | .keyword .where_ | .keyword .order | .keyword .limit | .keyword .offset => true
  | .semicolon | .endOfText | .invalid => true
  | _ => false

namespace State

variable {rule : NameRule}

/-- The state after a list of tokens, or why one of them is refused. -/
def run (rule : NameRule) (st : State) (ts : List Token) : Except ParseError State := ts.foldlM (step rule) st

theorem run_cons (st : State) (t : Token) (ts : List Token) :
    run rule st (t :: ts) = step rule st t >>= fun st' => run rule st' ts := by
  simp [run]

theorem run_cons_eq_ok {st st' : State} {t : Token} {ts : List Token} :
    run rule st (t :: ts) = .ok st' ↔ ∃ st₁, step rule st t = .ok st₁ ∧ run rule st₁ ts = .ok st' := by
  rw [run_cons, bind_eq_ok]

theorem run_cons_of_ok {st st' : State} {t : Token} (h : step rule st t = .ok st') (ts : List Token) :
    run rule st (t :: ts) = run rule st' ts := by
  rw [run_cons, h]
  rfl

theorem run_cons_of_error {st : State} {t : Token} {e : ParseError} (h : step rule st t = .error e) (ts : List Token) :
    run rule st (t :: ts) = .error e := by
  rw [run_cons, h]
  rfl

theorem run_append_of_ok {st st' : State} {ts : List Token} (h : run rule st ts = .ok st') (us : List Token) :
    run rule st (ts ++ us) = run rule st' us := by
  unfold run at *
  rw [List.foldlM_append, h]
  rfl

theorem run_singleton (st : State) (t : Token) : run rule st [t] = step rule st t := by
  rw [run_cons]
  cases step rule st t <;> rfl

theorem Step.run_cons {st st' : State} {t : Token} (h : Step rule t st st') (ts : List Token) :
    run rule st (t :: ts) = run rule st' ts :=
  run_cons_of_ok (step_eq_ok.2 h) ts

theorem Step.run_singleton {st st' : State} {t : Token} (h : Step rule t st st') : run rule st [t] = .ok st' := by
  rw [State.run_singleton, step_eq_ok.2 h]

/-- A run that gets through a list gets through any part of it at the front. -/
theorem run_append_eq_ok {st st' : State} {ts us : List Token} (h : run rule st (ts ++ us) = .ok st') :
    ∃ st₁, run rule st ts = .ok st₁ ∧ run rule st₁ us = .ok st' := by
  unfold run at *
  rw [List.foldlM_append] at h
  exact bind_eq_ok.1 h

/-- Where a run fails: the tokens before that place are read, and the one there is refused. -/
theorem run_eq_error {st : State} {ts : List Token} {e : ParseError} (h : run rule st ts = .error e) :
    ∃ before t after st', ts = before ++ t :: after ∧ run rule st before = .ok st' ∧
      step rule st' t = .error e := by
  induction ts generalizing st with
  | nil => cases h
  | cons t ts ih =>
    cases hs : step rule st t with
    | error e' =>
      rw [run_cons, hs] at h
      cases h
      exact ⟨[], t, ts, st, rfl, rfl, hs⟩
    | ok st₁ =>
      rw [run_cons_of_ok hs] at h
      obtain ⟨before, u, after, st', rfl, hb, hu⟩ := ih h
      exact ⟨t :: before, u, after, st', rfl, by rw [run_cons_of_ok hs, hb], hu⟩

/-! ### Tokens behind a clause -/

private theorem endsClause_cases {kind : Kind} (h : kind.endsClause = true) :
    (∃ k, kind = .keyword k ∧ (k = .where_ ∨ k = .order ∨ k = .limit ∨ k = .offset)) ∨ kind = .semicolon ∨
      kind = .endOfText ∨ kind = .invalid := by
  cases kind with
  | keyword k => cases k <;> simp [Kind.endsClause] at h ⊢
  | _ => simp [Kind.endsClause] at h ⊢

/-- Some tokens are read only where a clause may end. -/
theorem stepBoundary_of_step {st st' : State} {t : Token} (ht : t.kind.endsClause = true)
    (h : step rule st t = .ok st') : st.stepBoundary t = .ok st' := by
  obtain ⟨⟨kind, text⟩, p⟩ := t
  rcases endsClause_cases ht with ⟨k, rfl, rfl | rfl | rfl | rfl⟩ | rfl | rfl | rfl
  all_goals
    -- where a field, a literal or a count is expected, each of these tokens is refused
    cases st with
    | criteria q n place => cases place <;> first | exact h | cases h
    | sort q keys place => cases place <;> exact h
    | _ => exact h

/-- So these tokens are read as one for the next clause. -/
theorem nextClause_of_step {st st' : State} {t : Token} (ht : t.kind.endsClause = true)
    (h : step rule st t = .ok st') : ∃ last q, nextClause last q t = .ok st' := by
  obtain ⟨last, q, -, hnext⟩ := stepBoundary_eq_ok.1 (stepBoundary_of_step ht h)
  exact ⟨last, q, hnext⟩

/-- The end of the text finishes the query or is refused. -/
theorem step_endOfText {st st' : State} {t : Token} (ht : t.kind = .endOfText) (h : step rule st t = .ok st') :
    ∃ q, st' = .done q := by
  obtain ⟨last, q, hnext⟩ := nextClause_of_step (by rw [ht]; rfl) h
  simp only [nextClause, ht] at hnext
  cases hnext
  exact ⟨q, rfl⟩

/-- No invalid token is read. -/
theorem kind_ne_invalid_of_step {st st' : State} {t : Token} (h : step rule st t = .ok st') :
    t.kind ≠ .invalid := by
  intro ht
  obtain ⟨last, q, hnext⟩ := nextClause_of_step (by rw [ht]; rfl) h
  simp only [nextClause, ht] at hnext
  cases hnext

theorem kind_ne_invalid_of_run {st st' : State} {ts : List Token} (h : run rule st ts = .ok st') :
    ∀ t ∈ ts, t.kind ≠ .invalid := by
  induction ts generalizing st with
  | nil => simp
  | cons t ts ih =>
    obtain ⟨st₁, hstep, hrun⟩ := run_cons_eq_ok.1 h
    intro u hu
    rcases List.mem_cons.1 hu with rfl | hu
    · exact kind_ne_invalid_of_step hstep
    · exact ih hrun u hu

end State

end DocSearch
