import DocSearch.Proofs.Query.Run

/-!
# Positions of tokens

A state reads a token by its kind and text: the position of the token goes into errors only
(`State.settled_step`).  So an error lies at the token that is refused, and what is read at some positions is
read at all others (`State.run_congr`).
-/

namespace DocSearch

open State (run)

variable {rule : NameRule}

/-- What is made of a lexeme at a position: the same result at each, or the same fault at that position. -/
def Settled {α : Type} (f : Nat → Except ParseError α) : Prop :=
  (∃ a, ∀ p, f p = .ok a) ∨ ∃ fault, ∀ p, f p = .error ⟨fault, p⟩

namespace Settled

variable {α β : Type}

theorem ok (a : α) : Settled fun _ => .ok a := Or.inl ⟨a, fun _ => rfl⟩

theorem refuse (l : Lexeme) (fault : Fault) : Settled fun p => (Token.refuse ⟨l, p⟩ fault : Except ParseError α) :=
  Or.inr ⟨(Token.fault? ⟨l, 0⟩).getD fault, fun _ => rfl⟩

theorem bind {f : Nat → Except ParseError α} {g : α → Nat → Except ParseError β} (hf : Settled f)
    (hg : ∀ a, Settled (g a)) : Settled fun p => f p >>= fun a => g a p := by
  rcases hf with ⟨a, ha⟩ | ⟨fault, hfault⟩
  · simp only [ha]
    exact hg a
  · simp only [hfault]
    exact Or.inr ⟨fault, fun _ => rfl⟩

theorem ite {f g : Nat → Except ParseError α} {c : Prop} [Decidable c] (hf : Settled f) (hg : Settled g) :
    Settled fun p => if c then f p else g p := by
  by_cases hc : c
  · simpa only [if_pos hc] using hf
  · simpa only [if_neg hc] using hg

theorem eq_ok {f : Nat → Except ParseError α} (hf : Settled f) {p : Nat} {a : α} (h : f p = .ok a) (p' : Nat) :
    f p' = .ok a := by
  rcases hf with ⟨b, hb⟩ | ⟨fault, hfault⟩
  · rw [hb] at h ⊢
    exact h
  · rw [hfault] at h
    cases h

theorem position_eq {f : Nat → Except ParseError α} (hf : Settled f) {p : Nat} {e : ParseError}
    (h : f p = .error e) : e.position = p := by
  rcases hf with ⟨b, hb⟩ | ⟨fault, hfault⟩
  · rw [hb] at h
    cases h
  · rw [hfault] at h
    cases h
    rfl

theorem eq_error {f : Nat → Except ParseError α} (hf : Settled f) {p : Nat} {e : ParseError} (h : f p = .error e)
    (p' : Nat) : f p' = .error ⟨e.fault, p'⟩ := by
  rcases hf with ⟨b, hb⟩ | ⟨fault, hfault⟩
  · rw [hb] at h
    cases h
  · rw [hfault] at h ⊢
    cases h
    rfl

end Settled

/-! ### Single tokens -/

private theorem settled_checked (l : Lexeme) (name : ElementName) :
    Settled fun p => Token.checked rule ⟨l, p⟩ name :=
  .ite (.ok _) (.refuse l _)

private theorem settled_field (l : Lexeme) : Settled fun p => Token.field rule ⟨l, p⟩ := by
  obtain ⟨kind, text⟩ := l
  cases kind with
  | identifier => exact settled_checked ⟨.identifier, text⟩ ⟨[], text⟩
  | qualifiedName =>
    cases hcut : Text.cut '}'.toUInt8 (text.drop 1) with
    | none =>
      simp only [Token.field, hcut]
      exact .refuse _ _
    | some parts =>
      simp only [Token.field, hcut]
      exact settled_checked _ _
  | _ => exact .refuse _ _

private theorem settled_literal (l : Lexeme) : Settled fun p => Token.literal ⟨l, p⟩ := by
  obtain ⟨kind, text⟩ := l
  cases kind with
  | string => exact .ok (Value.scalar (.string text))
  | number =>
    cases hs : Scalar.ofNumeral? text with
    | none =>
      simp only [Token.literal, hs]
      exact .refuse _ _
    | some s =>
      simp only [Token.literal, hs]
      exact .ok _
  | keyword k =>
    cases k with
    | «true» | «false» | null => exact .ok _
    | _ => exact .refuse _ _
  | _ => exact .refuse _ _

private theorem settled_count (l : Lexeme) (clause : CountClause) : Settled fun p => Token.count ⟨l, p⟩ clause := by
  refine Settled.ite (c := l.kind = .number ∧ l.text.all isDigit) ?_ (.refuse l _)
  cases hn : Decimal.word? l.text with
  | none =>
    simp only [hn]
    exact .refuse l _
  | some n =>
    simp only [hn]
    exact .ok _

/-! ### Steps -/

private theorem settled_nextClause (last : Clause) (q : Query) (l : Lexeme) :
    Settled fun p => State.nextClause last q ⟨l, p⟩ := by
  obtain ⟨kind, text⟩ := l
  cases kind with
  | keyword k =>
    cases k with
    | in_ | where_ | order | limit => exact .ite (.ok _) (.refuse _ _)
    | offset => exact .ite (.ok _) (.ite (.refuse _ _) (.refuse _ _))
    | _ => exact .refuse _ _
  | semicolon => exact .ite (.ok _) (.refuse _ _)
  | endOfText => exact .ok _
  | _ => exact .refuse _ _

private theorem settled_stepBoundary (st : State) (l : Lexeme) : Settled fun p => st.stepBoundary ⟨l, p⟩ := by
  unfold State.stepBoundary
  cases st.boundary? with
  | none => exact .refuse l _
  | some b => exact settled_nextClause b.1 b.2 l

private theorem settled_stepCriteria (q : Query) (n : Nesting) (place : CriteriaPlace) (l : Lexeme) :
    Settled fun p => State.stepCriteria rule q n place ⟨l, p⟩ := by
  have hboundary := settled_stepBoundary (.criteria q n place) l
  have hfield : Settled fun p => Token.field rule ⟨l, p⟩ >>= fun name =>
      Except.ok (State.criteria q n (.comparator name)) := (settled_field l).bind fun _ => .ok _
  obtain ⟨kind, text⟩ := l
  cases place with
  | operand =>
    cases kind with
    | openParen => exact .ok _
    | _ => exact hfield
  | comparator name =>
    cases kind with
    | equal => exact .ok _
    | keyword k =>
      cases k with
      | in_ => exact .ok _
      | _ => exact hboundary
    | _ => exact hboundary
  | value name => exact (settled_literal _).bind fun _ => .ok _
  | listStart name =>
    cases kind with
    | openParen => exact .ok _
    | _ => exact hboundary
  | listValue name values => exact (settled_literal _).bind fun _ => .ok _
  | listNext name values =>
    cases kind with
    | comma | closeParen => exact .ok _
    | _ => exact hboundary
  | joint =>
    cases kind with
    | keyword k =>
      cases k with
      | and | or => exact .ok _
      | _ => exact hboundary
    | closeParen =>
      cases hn : n.leave? with
      | none =>
        simp only [State.stepCriteria, hn]
        exact hboundary
      | some n' =>
        simp only [State.stepCriteria, hn]
        exact .ok _
    | _ => exact hboundary

private theorem settled_stepSort (q : Query) (keys : List SortKey) (place : SortPlace) (l : Lexeme) :
    Settled fun p => State.stepSort rule q keys place ⟨l, p⟩ := by
  have hboundary := settled_stepBoundary (.sort q keys place) l
  cases place with
  | field => exact (settled_field l).bind fun _ => .ok _
  | direction name =>
    obtain ⟨kind, text⟩ := l
    cases kind with
    | comma => exact .ok _
    | keyword k =>
      cases k with
      | asc | desc => exact .ok _
      | _ => exact hboundary
    | _ => exact hboundary
  | next =>
    obtain ⟨kind, text⟩ := l
    cases kind with
    | comma => exact .ok _
    | _ => exact hboundary

/-- A step depends on the position of the token in its error only. -/
theorem State.settled_step (st : State) (l : Lexeme) : Settled fun p => State.step rule st ⟨l, p⟩ := by
  cases st with
  | start => exact Settled.ite (c := l.kind = .keyword .search) (.ok _) (.refuse l _)
  | collection q =>
    exact Settled.ite (c := l.kind = .string) (.ok (State.clauses .collection { q with collection := some l.text }))
      (.refuse l _)
  | by_ q => exact Settled.ite (c := l.kind = .keyword .by_) (.ok _) (.refuse l _)
  | criteria q n place => exact settled_stepCriteria q n place l
  | sort q keys place => exact settled_stepSort q keys place l
  | limit q => exact (settled_count l .limit).bind fun _ => .ite (.refuse l _) (.ok _)
  | offset q => exact (settled_count l .offset).bind fun _ => .ite (.ok _) (.refuse l _)
  | clauses last q => exact settled_stepBoundary (.clauses last q) l
  | done q => exact settled_stepBoundary (.done q) l

theorem State.position_of_step {st : State} {t : Token} {e : ParseError} (h : State.step rule st t = .error e) :
    e.position = t.position := (State.settled_step st t.toLexeme).position_eq h

/-- What is read at some positions is read at all others. -/
theorem State.run_congr {st st' : State} {ts us : List Token} (h : run rule st ts = .ok st')
    (hts : ts.map Token.toLexeme = us.map Token.toLexeme) : run rule st us = .ok st' := by
  induction ts generalizing st us with
  | nil =>
    cases us with
    | nil => exact h
    | cons u us => cases hts
  | cons t ts ih =>
    cases us with
    | nil => cases hts
    | cons u us =>
      rw [List.map_cons, List.map_cons, List.cons.injEq] at hts
      obtain ⟨st₁, hstep, hrun⟩ := State.run_cons_eq_ok.1 h
      have hu : State.step rule st u = .ok st₁ := by
        obtain ⟨l, p⟩ := u
        obtain ⟨l', p'⟩ := t
        cases hts.1
        exact (State.settled_step st l).eq_ok hstep p
      rw [State.run_cons_of_ok hu]
      exact ih hrun hts.2

end DocSearch
