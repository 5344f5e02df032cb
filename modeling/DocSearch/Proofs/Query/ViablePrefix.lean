import DocSearch.Proofs.Query.Position
import DocSearch.Proofs.Query.Recognition

/-!
# Where query text is refused

From every state that is not done, some tokens lead to the end of a query (`State.finishable`).  Hence the
tokens in front of an error begin some query text, and together with the token of the error they begin none.
-/

namespace DocSearch

open State (run)

variable {rule : NameRule}

/-! ### Finishing a query -/

/-- The rule accepts the names of one letter. -/
def NameRule.AdmitsLetters (rule : NameRule) : Prop := ∀ b, isLetter b = true → rule [b] = true

theorem NameRule.admitsLetters_ascii : NameRule.ascii.AdmitsLetters := by
  intro b hb
  simp [NameRule.ascii, hb]

/-- A lexeme that some bytes spell and that may be followed by others. -/
def Lexeme.Writable (l : Lexeme) : Prop := l.kind ≠ .invalid ∧ ∃ x, l.Spelled x

private theorem writable_punctuation {b : UInt8} {kind : Kind} (hk : Lexeme.punctuation? b = some kind) :
    Lexeme.Writable ⟨kind, [b]⟩ := by
  refine ⟨?_, [b], .punctuation hk⟩
  rcases Lexeme.punctuation?_cases hk with rfl | rfl | rfl | rfl | rfl <;> nofun

private theorem writable_keyword {b : UInt8} {s : Text} {k : Keyword} (hb : startsWord b = true)
    (hs : s.all continuesWord = true) (hk : Keyword.ofWord? (b :: s) = some k) :
    Lexeme.Writable ⟨.keyword k, b :: s⟩ := ⟨nofun, b :: s, .keyword hb (List.all_eq_true.1 hs) hk⟩

private theorem writable_digit {b : UInt8} (hb : isDigit b = true) : Lexeme.Writable ⟨.number, [b]⟩ :=
  ⟨nofun, [b], .number ⟨false, [b], none, isDigits_singleton hb, nofun⟩⟩

namespace State

/-- Some tokens that can be written lead from the state to the end of a query. -/
def Finishable (rule : NameRule) (st : State) : Prop :=
  ∃ us q, (∀ u ∈ us, u.toLexeme.Writable) ∧ run rule st (us ++ [⟨⟨.endOfText, []⟩, 0⟩]) = .ok (.done q)

private theorem Finishable.of_step {st st' : State} {l : Lexeme} (h : st'.Finishable rule) (hl : l.Writable)
    (hs : step rule st ⟨l, 0⟩ = .ok st') : st.Finishable rule := by
  obtain ⟨us, q, hus, hrun⟩ := h
  refine ⟨⟨l, 0⟩ :: us, q, fun u hu => ?_, ?_⟩
  · rcases List.mem_cons.1 hu with rfl | hu
    · exact hl
    · exact hus u hu
  · rw [List.cons_append, run_cons_of_ok hs, hrun]

private theorem finishable_of_boundary {st : State} {last : Clause} {q : Query}
    (h : st.boundary? = some (last, q)) : st.Finishable rule := by
  exact ⟨[], q, by simp, (Step.boundary h (.endOfText rfl)).run_singleton⟩

/-- Behind an operand every level is closed, from the inside out. -/
private theorem finishable_joint (q : Query) (l : Level) (ls : List Level) :
    (criteria q ⟨l, ls⟩ .joint).Finishable rule := by
  induction ls generalizing l with
  | nil => exact finishable_of_boundary rfl
  | cons l' ls ih => exact (ih (l'.push l.criteria)).of_step (writable_punctuation (b := ')'.toUInt8) rfl) rfl

private theorem writable_true : Lexeme.Writable ⟨.keyword .true, ascii "TRUE"⟩ :=
  writable_keyword (by decide) (by decide) (by decide)

private theorem writable_name : Lexeme.Writable ⟨.identifier, ascii "a"⟩ :=
  ⟨nofun, ascii "a", .identifier (b := 'a'.toUInt8) (s := []) (by decide) nofun (by decide)⟩

private theorem field_letter (hrule : rule.AdmitsLetters) :
    Token.field rule ⟨⟨.identifier, ascii "a"⟩, 0⟩ = .ok ⟨[], ascii "a"⟩ := by
  have hn : rule.admits (ascii "a") = true := hrule 'a'.toUInt8 (by decide)
  exact if_pos hn

private theorem finishable_criteria (hrule : rule.AdmitsLetters) (q : Query) (n : Nesting) (place : CriteriaPlace) :
    (criteria q n place).Finishable rule := by
  have hvalue : ∀ name, (criteria q n (.value name)).Finishable rule := fun name =>
    (finishable_joint q _ n.outer).of_step writable_true rfl
  have hnext : ∀ name vs, (criteria q n (.listNext name vs)).Finishable rule := fun name vs =>
    (finishable_joint q _ n.outer).of_step (writable_punctuation (b := ')'.toUInt8) rfl) rfl
  have hlist : ∀ name vs, (criteria q n (.listValue name vs)).Finishable rule := fun name vs =>
    (hnext name _).of_step writable_true rfl
  have hcomparator : ∀ name, (criteria q n (.comparator name)).Finishable rule := fun name =>
    (hvalue name).of_step (writable_punctuation (b := '='.toUInt8) rfl) rfl
  cases place with
  | operand =>
    exact (hcomparator ⟨[], ascii "a"⟩).of_step writable_name
      (step_eq_ok.2 (.criteria (.field (field_letter hrule))))
  | comparator name => exact hcomparator name
  | value name => exact hvalue name
  | listStart name => exact (hlist name []).of_step (writable_punctuation (b := '('.toUInt8) rfl) rfl
  | listValue name vs => exact hlist name vs
  | listNext name vs => exact hnext name vs
  | joint => exact finishable_joint q n.inner n.outer

private theorem finishable_sort (hrule : rule.AdmitsLetters) (q : Query) (keys : List SortKey) (place : SortPlace) :
    (sort q keys place).Finishable rule := by
  cases place with
  | field =>
    have hdirection : (sort q keys (.direction ⟨[], ascii "a"⟩)).Finishable rule := finishable_of_boundary rfl
    exact hdirection.of_step writable_name (step_eq_ok.2 (.sort (.field (field_letter hrule))))
  | direction name => exact finishable_of_boundary rfl
  | next => exact finishable_of_boundary rfl

/-- Every query that is not yet done can be finished. -/
theorem finishable (hrule : rule.AdmitsLetters) {st : State} (hst : ∀ q, st ≠ .done q) : st.Finishable rule := by
  cases st with
  | start =>
    have hclauses : (clauses .search {}).Finishable rule := finishable_of_boundary rfl
    exact hclauses.of_step (l := ⟨.keyword .search, ascii "SEARCH"⟩)
      (writable_keyword (by decide) (by decide) (by decide)) rfl
  | clauses last q => exact finishable_of_boundary rfl
  | collection q =>
    have hclauses : (clauses .collection { q with collection := some [] }).Finishable rule :=
      finishable_of_boundary rfl
    exact hclauses.of_step (l := ⟨.string, []⟩) ⟨nofun, [39, 39], .string (by decide) (by simp)⟩ rfl
  | criteria q n place => exact finishable_criteria hrule q n place
  | by_ q =>
    exact (finishable_sort hrule q [] .field).of_step (l := ⟨.keyword .by_, ascii "BY"⟩)
      (writable_keyword (by decide) (by decide) (by decide)) rfl
  | sort q keys place => exact finishable_sort hrule q keys place
  | limit q =>
    have hclauses : (clauses .limit { q with limit := some 1 }).Finishable rule := finishable_of_boundary rfl
    have hone : Token.Counts ⟨⟨.number, [ '1'.toUInt8]⟩, 0⟩ 1 := ⟨rfl, isDigits_singleton (by decide), by decide⟩
    exact hclauses.of_step (writable_digit (b := '1'.toUInt8) (by decide))
      (step_eq_ok.2 (.limit (hone.count_eq _) (by decide)))
  | offset q =>
    have hclauses : (clauses .offset { q with skip := some 0 }).Finishable rule := finishable_of_boundary rfl
    have hzero : Token.Counts ⟨⟨.number, [ '0'.toUInt8]⟩, 0⟩ 0 := ⟨rfl, isDigits_singleton (by decide), by decide⟩
    exact hclauses.of_step (writable_digit (b := '0'.toUInt8) (by decide))
      (step_eq_ok.2 (.offset (hzero.count_eq _) UInt64.zero_le))
  | done q => exact absurd rfl (hst q)

end State

/-! ### Errors -/

/-- Some text that denotes a query begins with the tokens, whatever their positions. -/
def BeginsQuery (rule : NameRule) (ts : List Token) : Prop :=
  ∃ s q, Query.parse s rule = .ok q ∧ ts.map Token.toLexeme <+: (tokens s).map Token.toLexeme

private theorem exists_spellings {ls : List Lexeme} (h : ∀ l ∈ ls, ∃ x, l.Spelled x) :
    ∃ xs, List.Forall₂ Lexeme.Spelled ls xs := by
  induction ls with
  | nil => exact ⟨[], .nil⟩
  | cons l ls ih =>
    obtain ⟨x, hx⟩ := h l (List.mem_cons_self ..)
    obtain ⟨xs, hxs⟩ := ih fun l' hl' => h l' (List.mem_cons_of_mem _ hl')
    exact ⟨x :: xs, .cons hx hxs⟩

/-- What leads to a state that can be finished begins a query. -/
private theorem beginsQuery_of_run {ts : List Token} {st : State} (hts : ∀ t ∈ ts, t.toLexeme.Writable)
    (hrun : run rule .start ts = .ok st) (hst : st.Finishable rule) : BeginsQuery rule ts := by
  obtain ⟨us, q, hus, hend⟩ := hst
  have hall : ∀ l ∈ (ts ++ us).map Token.toLexeme, l.Writable := by
    intro l hl
    obtain ⟨t, ht, rfl⟩ := List.mem_map.1 hl
    rcases List.mem_append.1 ht with ht | ht
    · exact hts t ht
    · exact hus t ht
  obtain ⟨xs, hxs⟩ := exists_spellings fun l hl => (hall l hl).2
  have hlexemes := lexemes_spaced hxs fun l hl => (hall l hl).1
  refine ⟨spaced xs, q, Query.parse_eq_ok.2 ?_, ?_⟩
  · have hwhole : run rule .start (ts ++ (us ++ [⟨⟨.endOfText, []⟩, 0⟩])) = .ok (.done q) := by
      rw [State.run_append_of_ok hrun, hend]
    refine State.run_congr hwhole ?_
    rw [hlexemes]
    simp
  · rw [hlexemes, List.map_append, List.append_assoc]
    exact List.prefix_append _ _

/-- Where a token is refused, no query begins with the tokens up to it. -/
private theorem not_beginsQuery_of_step {before : List Token} {t : Token} {st : State} {e : ParseError}
    (hrun : run rule .start before = .ok st) (ht : State.step rule st t = .error e) :
    ¬ BeginsQuery rule (before ++ [t]) := by
  rintro ⟨s, q, hq, rest, hrest⟩
  have hdone := Query.parse_eq_ok.1 hq
  obtain ⟨front, back, hs, hfront, -⟩ := List.map_eq_append_iff.1 hrest.symm
  rw [hs] at hdone
  obtain ⟨st', hst', -⟩ := State.run_append_eq_ok hdone
  have hbefore := State.run_congr hst' hfront
  rw [State.run_append_of_ok hrun, State.run_singleton, ht] at hbefore
  cases hbefore

/-- In front of a token of a text all tokens are spelled. -/
private theorem spelled_of_tokens_eq {s : Text} {before after : List Token} {t : Token}
    (h : tokens s = before ++ t :: after) : ∀ u ∈ before, ∃ x, u.toLexeme.Spelled x := by
  obtain ⟨body, e, hts, -, hbody⟩ := tokens_eq_append_end s
  obtain ⟨mid, last, hmid⟩ : ∃ mid last, t :: after = mid ++ [last] :=
    ⟨_, _, (List.dropLast_append_getLast (List.cons_ne_nil t after)).symm⟩
  rw [hts, hmid, ← List.append_assoc] at h
  obtain ⟨rfl, -⟩ := List.append_inj' h rfl
  exact fun u hu => hbody u (List.mem_append_left _ hu)

/-- An error lies at the first token with which no query begins any more. -/
theorem Query.error_at_first_hopeless_token (rule : NameRule) (hrule : rule.AdmitsLetters) (s : Text)
    (e : ParseError) (h : Query.parse s rule = .error e) :
    ∃ before t after, tokens s = before ++ t :: after ∧ e.position = t.position ∧
      BeginsQuery rule before ∧ ¬ BeginsQuery rule (before ++ [t]) := by
  obtain ⟨before, t, after, st, hts, hrun, ht⟩ := State.run_eq_error (Query.parse_eq_error.1 h)
  have hspelled := spelled_of_tokens_eq hts
  have hst : ∀ q, st ≠ .done q := by
    rintro q rfl
    obtain ⟨body, u, rfl, hu, -⟩ := isSentence_of_run (fun v hv => Or.inr (hspelled v hv)) hrun
    obtain ⟨x, hx⟩ := hspelled u (by simp)
    exact hx.kind_ne_endOfText hu
  refine ⟨before, t, after, hts, State.position_of_step ht, ?_, not_beginsQuery_of_step hrun ht⟩
  have hwritable : ∀ u ∈ before, u.toLexeme.Writable := fun u hu =>
    ⟨State.kind_ne_invalid_of_run hrun u hu, hspelled u hu⟩
  exact beginsQuery_of_run hwritable hrun (State.finishable hrule hst)

theorem Query.error_at_offset :
    NameRule.AdmitsLetters .ascii ∧
      Query.parse (ascii "SEARCH LIMIT 1 OFFSET 18446744073709551615;") = .error ⟨.offsetOutOfRange, 22⟩ ∧
      ∃ before t after, tokens (ascii "SEARCH LIMIT 1 OFFSET 18446744073709551615;") = before ++ t :: after ∧
        22 = t.position ∧ BeginsQuery .ascii before ∧ ¬ BeginsQuery .ascii (before ++ [t]) := by
  have h : Query.parse (ascii "SEARCH LIMIT 1 OFFSET 18446744073709551615;") = .error ⟨.offsetOutOfRange, 22⟩ := by
    decide +kernel
  exact ⟨NameRule.admitsLetters_ascii, h,
    Query.error_at_first_hopeless_token .ascii NameRule.admitsLetters_ascii _ _ h⟩

end DocSearch
