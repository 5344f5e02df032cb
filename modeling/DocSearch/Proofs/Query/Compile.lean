import DocSearch.Proofs.Decimal
import DocSearch.Proofs.Except
import DocSearch.Query.Compile

/-!
# The text of a compiled query

The text is that of the call of `search`, followed by the bounds of the page; the bounds are the numerals of
sums of natural numbers, whether or not the sums are words.
-/

namespace DocSearch

theorem spellAll_append (prefixes : Bool) (xs ys : List Segment) :
    spellAll prefixes (xs ++ ys) = spellAll prefixes xs ++ spellAll prefixes ys := List.flatMap_append

namespace Criteria

/-- A composite with children compiles to the call of its function on theirs. -/
theorem expression?_cons (op : Connective) (c : Criteria) (cs : List Criteria) :
    (composite op (c :: cs)).expression? =
      expressions? (c :: cs) >>= fun es => .ok (.call op.function [.sequence es]) := by
  rw [expression?, expressions?]
  cases c.expression? with
  | error f => rfl
  | ok e => cases expressions? cs <;> rfl

theorem expression?_composite {op : Connective} {c : Criteria} {cs : List Criteria} {e : Expression} :
    (composite op (c :: cs)).expression? = .ok e ↔
      ∃ es, expressions? (c :: cs) = .ok es ∧ .call op.function [.sequence es] = e := by
  rw [expression?_cons, bind_eq_ok]
  simp only [Except.ok.injEq]

theorem expressions?_cons {c : Criteria} {cs : List Criteria} {es : List Expression} :
    expressions? (c :: cs) = .ok es ↔ ∃ d ds, c.expression? = .ok d ∧ expressions? cs = .ok ds ∧ d :: ds = es := by
  rw [expressions?, bind_eq_ok]
  constructor
  · rintro ⟨d, hd, h⟩
    obtain ⟨ds, hds, h⟩ := bind_eq_ok.1 h
    exact ⟨d, ds, hd, hds, Except.ok.inj h⟩
  · rintro ⟨d, ds, hd, hds, rfl⟩
    exact ⟨d, hd, bind_eq_ok.2 ⟨ds, hds, rfl⟩⟩

end Criteria

namespace Query

/-- The call of `search` with the given criteria. -/
def call (q : Query) (criteria : Expression) : Expression :=
  .call .search [q.collectionExpression, criteria, q.sortExpression]

/-- A query compiles as its criteria do. -/
theorem compile_eq_map (q : Query) (prefixes : Bool) :
    q.compile prefixes =
      q.criteriaExpression?.map fun e => spellAll prefixes (q.call e).segments ++ q.pageBounds := by
  have hspell : ∀ e, spellAll prefixes ((q.call e).segments ++ [.literal q.pageBounds]) =
      spellAll prefixes (q.call e).segments ++ q.pageBounds := by
    intro e
    rw [spellAll_append]
    simp [spellAll, Segment.spell]
  unfold compile segments? expression?
  cases q.criteriaExpression? with
  | error f => rfl
  | ok e => exact congrArg Except.ok (hspell e)

theorem compile_eq_ok {q : Query} {prefixes : Bool} {text : Text} :
    q.compile prefixes = .ok text ↔
      ∃ e, q.criteriaExpression? = .ok e ∧ spellAll prefixes (q.call e).segments ++ q.pageBounds = text := by
  rw [compile_eq_map]
  cases q.criteriaExpression? with
  | error f => exact ⟨nofun, nofun⟩
  | ok e =>
    constructor
    · intro h
      exact ⟨e, rfl, Except.ok.inj h⟩
    · rintro ⟨_, ⟨⟩, rfl⟩
      rfl

theorem pageBounds_of_limit {q : Query} {n : UInt64} (h : q.limit = some n) :
    q.pageBounds = ascii "[" ++ Decimal.ofNat (q.offset.toNat + 1) ++ ascii " to " ++
      Decimal.ofNat (q.offset.toNat + n.toNat) ++ ascii "]" := by
  have hone : (1 : UInt64).toNat = 1 := by decide
  simp only [pageBounds, h, Decimal.sum_eq, hone]

theorem pageBounds_of_no_limit {q : Query} (h : q.limit = none) : q.pageBounds = [] := by
  simp only [pageBounds, h]

end Query

end DocSearch
