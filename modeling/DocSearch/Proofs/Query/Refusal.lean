import DocSearch.Proofs.Query.Recognition

/-!
# What errors repeat of the text

Two kinds of fault repeat bytes of the text: a name that is not admitted, and a byte that starts no token.  A name
consists of bytes that continue words, so any other byte in a message is the stray one at the position of the
error (`Query.parse_error_quotes`), and a stray byte at that position is always the fault
(`Query.parse_error_of_stray`).
-/

namespace DocSearch

open Lexeme (isStray)

variable {rule : NameRule}

/-- The bytes of the text that the message of a fault repeats. -/
def Fault.quoted : Fault → Text
  | invalidName name => name
  | unexpectedByte text => text
  | _ => []

namespace Fault

/-- All that is repeated are bytes of a word. -/
def QuotesWord (f : Fault) : Prop := ∀ b ∈ f.quoted, continuesWord b = true

theorem quotesWord_of_quoted_eq_nil {f : Fault} (h : f.quoted = []) : f.QuotesWord := by
  simp [QuotesWord, h]

end Fault

/-- What is made of a token: it is read or refused, and what else is expected repeats at most a word. -/
def Refuses {α : Type} (t : Token) (x : Except ParseError α) : Prop :=
  ∀ e, x = .error e → ∃ f : Fault, e = ⟨t.fault?.getD f, t.position⟩ ∧ f.QuotesWord

namespace Refuses

variable {α β : Type} {t : Token}

theorem ok (a : α) : Refuses t (.ok a) := nofun

theorem refuse {f : Fault} (hf : f.QuotesWord) : Refuses t (t.refuse f : Except ParseError α) := by
  intro e he
  cases he
  exact ⟨f, rfl, hf⟩

theorem expect {f : Fault} (hf : f.quoted = []) : Refuses t (t.refuse f : Except ParseError α) :=
  refuse (Fault.quotesWord_of_quoted_eq_nil hf)

theorem bind {x : Except ParseError α} {f : α → Except ParseError β} (hx : Refuses t x)
    (hf : ∀ a, Refuses t (f a)) : Refuses t (x >>= f) := by
  intro e he
  rcases bind_eq_error.1 he with hx' | ⟨a, -, ha⟩
  · exact hx e hx'
  · exact hf a e ha

theorem ite {x y : Except ParseError α} {c : Prop} [Decidable c] (hx : Refuses t x) (hy : Refuses t y) :
    Refuses t (if c then x else y) := by
  split
  · exact hx
  · exact hy

end Refuses

/-! ### Single tokens -/

private theorem refuses_field {t : Token} (ht : t.IsRead) : Refuses t (t.field rule) := by
  have hend : t.kind ≠ .endOfText → ∃ x, t.toLexeme.Spelled x := fun hk => ht.resolve_left hk
  unfold Token.field
  split
  · rename_i hk
    obtain ⟨x, hx⟩ := hend (by simp [hk])
    exact .ite (.ok _) (.refuse (hx.identifier_bytes hk))
  · rename_i hk
    obtain ⟨x, hx⟩ := hend (by simp [hk])
    split
    · exact .ite (.ok _) (.refuse (hx.localName_bytes hk ‹_›))
    · exact .expect rfl
  · exact .expect rfl

private theorem refuses_literal (t : Token) : Refuses t t.literal := by
  unfold Token.literal
  split
  · exact .ok _
  · split
    · exact .ok _
    · exact .expect rfl
  · exact .ok _
  · exact .ok _
  · exact .ok _
  · exact .expect rfl

private theorem refuses_count (t : Token) (clause : CountClause) : Refuses t (t.count clause) := by
  unfold Token.count
  refine .ite ?_ (.expect rfl)
  split
  · exact .ok _
  · exact .expect rfl

/-! ### Steps -/

private theorem quoted_expected (st : State) : st.expected.quoted = [] := by
  unfold State.expected
  split <;> rfl

private theorem refuses_nextClause (last : Clause) (q : Query) (t : Token) :
    Refuses t (State.nextClause last q t) := by
  unfold State.nextClause
  split
  · exact .ite (.ok _) (.expect rfl)
  · exact .ite (.ok _) (.expect rfl)
  · exact .ite (.ok _) (.expect rfl)
  · exact .ite (.ok _) (.expect rfl)
  · exact .ite (.ok _) (.ite (.expect rfl) (.expect rfl))
  · exact .ite (.ok _) (.expect rfl)
  · exact .ok _
  · exact .expect rfl

private theorem refuses_stepBoundary (st : State) (t : Token) : Refuses t (st.stepBoundary t) := by
  unfold State.stepBoundary
  split
  · exact refuses_nextClause _ _ t
  · exact .expect (quoted_expected st)

private theorem refuses_stepCriteria (q : Query) (n : Nesting) (place : CriteriaPlace) {t : Token}
    (ht : t.IsRead) : Refuses t (State.stepCriteria rule q n place t) := by
  unfold State.stepCriteria
  split
  · exact .ok _
  · exact (refuses_field ht).bind fun _ => .ok _
  · exact .ok _
  · exact .ok _
  · exact (refuses_literal t).bind fun _ => .ok _
  · exact .ok _
  · exact (refuses_literal t).bind fun _ => .ok _
  · exact .ok _
  · exact .ok _
  · exact .ok _
  · exact .ok _
  · split
    · exact .ok _
    · exact refuses_stepBoundary _ t
  · exact refuses_stepBoundary _ t

private theorem refuses_stepSort (q : Query) (keys : List SortKey) (place : SortPlace) {t : Token}
    (ht : t.IsRead) : Refuses t (State.stepSort rule q keys place t) := by
  unfold State.stepSort
  split
  · exact (refuses_field ht).bind fun _ => .ok _
  · exact .ok _
  · exact .ok _
  · exact .ok _
  · exact .ok _
  · exact refuses_stepBoundary _ t

theorem State.refuses_step (st : State) {t : Token} (ht : t.IsRead) : Refuses t (State.step rule st t) := by
  unfold State.step
  split
  · exact .ite (.ok _) (.expect rfl)
  · exact .ite (.ok _) (.expect rfl)
  · exact refuses_stepCriteria _ _ _ ht
  · exact .ite (.ok _) (.expect rfl)
  · exact refuses_stepSort _ _ _ ht
  · exact (refuses_count t _).bind fun _ => .ite (.expect rfl) (.ok _)
  · exact (refuses_count t _).bind fun _ => .ite (.ok _) (.expect rfl)
  · exact refuses_stepBoundary _ t

/-! ### Texts -/

/-- A stray byte is at fault itself. -/
theorem Token.fault?_of_stray {t : Token} {b : UInt8} (hb : isStray b = true) (ht : t.toLexeme = ⟨.invalid, [b]⟩) :
    t.fault? = some (.unexpectedByte [b]) := by
  have hquote : isQuote b = false := by
    cases hq : isQuote b with
    | false => rfl
    | true => simp [isStray, hq] at hb
  have hbrace : b ≠ '{'.toUInt8 := by
    rintro rfl
    exact absurd hb (by decide)
  simp [Token.fault?, ht, hquote, hbrace]

/-- An invalid token is at fault itself: it repeats nothing unless it is a stray byte. -/
theorem Token.fault?_of_spelled {t : Token} {b : UInt8} {x : Text} (h : t.toLexeme.Spelled (b :: x)) {f : Fault}
    (hf : t.fault? = some f) : f.quoted = [] ∨ (isStray b = true ∧ f = .unexpectedByte [b]) := by
  obtain ⟨l, p⟩ := t
  generalize hy : b :: x = y at h
  cases h with
  | unclosed hopen hs =>
    cases hy
    simp only [Lexeme.isOpening, Bool.or_eq_true, beq_iff_eq] at hopen
    rcases hopen with hquote | rfl
    · simp only [Token.fault?, hquote, if_true, Option.some.injEq] at hf
      exact Or.inl (hf ▸ rfl)
    · cases hf
      exact Or.inl rfl
  | stray hstray =>
    cases hy
    rw [fault?_of_stray hstray rfl, Option.some.injEq] at hf
    exact Or.inr ⟨hstray, hf.symm⟩
  | punctuation hk => rcases Lexeme.punctuation?_cases hk with rfl | rfl | rfl | rfl | rfl <;> cases hf
  | _ => cases hf

namespace Query

variable {s : Text} {e : ParseError}

/-- An error lies at a token of the text and is its own fault, or what was expected in its place. -/
theorem exists_refused (h : Query.parse s rule = .error e) :
    ∃ t ∈ tokens s, e.position = t.position ∧ ∃ f : Fault, e.fault = t.fault?.getD f ∧ f.QuotesWord := by
  obtain ⟨before, t, after, st, hts, -, ht⟩ := State.run_eq_error (parse_eq_error.1 h)
  have hmem : t ∈ tokens s := by simp [hts]
  obtain ⟨f, rfl, hf⟩ := State.refuses_step st (isRead_of_mem_tokens hmem) e ht
  exact ⟨t, hmem, rfl, f, rfl, hf⟩

/-- A message repeats a word or the stray byte at the position of the error. -/
theorem parse_error_quotes (h : Query.parse s rule = .error e) :
    e.fault.QuotesWord ∨
      ∃ b, isStray b = true ∧ s[e.position]? = some b ∧ e.fault = .unexpectedByte [b] := by
  obtain ⟨t, ht, hp, f, hfault, hf⟩ := exists_refused h
  rw [hp, hfault]
  cases hown : t.fault? with
  | none => exact Or.inl hf
  | some g =>
    rcases byte_at_position ht with ⟨hl, -⟩ | ⟨b, x, hx, hb⟩
    · simp [Token.fault?, hl] at hown
    · rcases Token.fault?_of_spelled hx hown with hg | ⟨hstray, rfl⟩
      · exact Or.inl (Fault.quotesWord_of_quoted_eq_nil hg)
      · exact Or.inr ⟨b, hstray, hb, rfl⟩

/-- A stray byte at the position of an error is the fault, whatever was expected in its place. -/
theorem parse_error_of_stray (h : Query.parse s rule = .error e) {b : UInt8} (hb : isStray b = true)
    (hne : b ≠ '-'.toUInt8) (hs : s[e.position]? = some b) : e.fault = .unexpectedByte [b] := by
  obtain ⟨t, ht, hp, f, hfault, -⟩ := exists_refused h
  rw [hp] at hs
  rcases byte_at_position ht with ⟨-, hnone⟩ | ⟨c, x, hx, hc⟩
  · rw [hnone] at hs
    cases hs
  · obtain rfl : c = b := by simpa [hc] using hs
    rw [hfault, Token.fault?_of_stray hb (hx.eq_of_stray hb hne), Option.getD_some]

end Query

end DocSearch
