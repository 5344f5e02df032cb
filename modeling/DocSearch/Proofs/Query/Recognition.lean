import DocSearch.Proofs.Query.Completeness
import DocSearch.Proofs.Query.Soundness
import DocSearch.Proofs.Token.Layout

/-!
# The texts that denote queries

A text denotes a query when its tokens are a sentence of the grammar, and the query is the meaning of the
sentence.  The end of the text leaves no state but a finished one, so that a text is refused at a token or
denotes a query (`Query.parse_eq_error`).
-/

namespace DocSearch

open State (run)

variable {rule : NameRule}

/-! ### Runs over texts -/

/-- The tokens of a text are read to a query, unless one of them is refused. -/
private theorem done_of_run {s : Text} {st : State} (h : run rule .start (tokens s) = .ok st) :
    ∃ q, st = .done q := by
  obtain ⟨body, e, hts, he, -⟩ := tokens_eq_append_end s
  rw [hts] at h
  obtain ⟨st₁, -, hlast⟩ := State.run_append_eq_ok h
  rw [State.run_singleton] at hlast
  exact State.step_endOfText (by rw [he]) hlast

theorem isRead_of_mem_tokens {s : Text} {t : Token} (ht : t ∈ tokens s) : t.IsRead := by
  obtain ⟨body, e, hts, he, hbody⟩ := tokens_eq_append_end s
  rw [hts, List.mem_append, List.mem_singleton] at ht
  rcases ht with hb | rfl
  · exact Or.inr (hbody t hb)
  · exact Or.inl (by rw [he])

namespace Query

private theorem parse_eq_bind (s : Text) :
    Query.parse s rule = run rule .start (tokens s) >>= fun st =>
      match st.query? with
      | some q => .ok q
      | none => .error ⟨st.expected, 0⟩ := rfl

theorem parse_eq_ok {s : Text} {q : Query} :
    Query.parse s rule = .ok q ↔ run rule .start (tokens s) = .ok (.done q) := by
  rw [parse_eq_bind, bind_eq_ok]
  constructor
  · rintro ⟨st, hrun, hq⟩
    obtain ⟨q', rfl⟩ := done_of_run hrun
    cases hq
    exact hrun
  · exact fun hrun => ⟨_, hrun, rfl⟩

theorem parse_eq_error {s : Text} {e : ParseError} :
    Query.parse s rule = .error e ↔ run rule .start (tokens s) = .error e := by
  rw [parse_eq_bind]
  cases hrun : run rule .start (tokens s) with
  | error e' => exact ⟨fun h => by cases h; rfl, fun h => by cases h; rfl⟩
  | ok st =>
    obtain ⟨q, rfl⟩ := done_of_run hrun
    exact ⟨nofun, nofun⟩

/-- A text denotes the query that its tokens are a sentence for. -/
theorem parse_eq_ok_iff_isSentence {s : Text} {q : Query} :
    Query.parse s rule = .ok q ↔ IsSentence rule q (tokens s) := by
  rw [parse_eq_ok]
  exact ⟨isSentence_of_run fun _ => isRead_of_mem_tokens, IsSentence.run_eq⟩

/-- The texts that denote queries are those whose tokens are sentences, and no token list is a sentence for
two queries. -/
theorem recognises_grammar (rule : NameRule) (s : Text) :
    (∀ q, Query.parse s rule = .ok q ↔ IsSentence rule q (tokens s)) ∧
      ∀ ts q q', IsSentence rule q ts → IsSentence rule q' ts → q = q' :=
  ⟨fun _ => parse_eq_ok_iff_isSentence, fun _ _ _ => IsSentence.unique⟩

theorem recognises_grammar_chain :
    IsSentence .ascii
      { criteria := some (.composite .or
          [.leaf ⟨[], ascii "a"⟩ (.scalar (.int 1)),
            .composite .and [.leaf ⟨ascii "u", ascii "b"⟩ (.scalar (.bool true)),
              .composite .or
                [.leaf ⟨[], ascii "c"⟩ (.scalar .null), .leaf ⟨[], ascii "c"⟩ (.scalar (.int (-2)))]]]),
        limit := some 5, skip := some 0 }
      (tokens (ascii "SEARCH WHERE a = 1 OR {u}b = true AND c IN (NULL, -2) LIMIT 5 OFFSET 0;")) :=
  ((recognises_grammar .ascii _).1 _).1 (by decide +kernel)

end Query

end DocSearch
