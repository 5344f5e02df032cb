import DocSearch.Proofs.Expression.Balance
import DocSearch.Proofs.Query.Counts
import DocSearch.Proofs.Query.Decoding
import DocSearch.Proofs.Query.PageBounds

/-!
# Balanced queries

The text of a compiled query is balanced if nothing in the query contains a quote, whatever else it contains.  The
parentheses and strings in it are counted by the numbers that the summary of the query shows
(`Query.compile_balanced`).
-/

namespace DocSearch

namespace Query

variable {q : Query} {e : Expression}

/-! ### Pages -/

private theorem balanced_ofNat (n : Nat) : Balanced (Decimal.ofNat n) 0 0 := by
  refine .plain fun b hb => ?_
  have hdigit := (Decimal.isDigits_ofNat n).2 b hb
  exact ⟨ne_of_isDigit (by decide) hdigit, ne_of_isDigit (by decide) hdigit, ne_of_isDigit (by decide) hdigit⟩

theorem balanced_pageBounds (q : Query) : Balanced q.pageBounds 0 0 := by
  cases hlimit : q.limit with
  | none =>
    rw [pageBounds_of_no_limit hlimit]
    exact .plain nofun
  | some limit =>
    have hopen : Balanced (ascii "[") 0 0 := .plain (by decide +kernel)
    have hword : Balanced (ascii " to ") 0 0 := .plain (by decide +kernel)
    have hclose : Balanced (ascii "]") 0 0 := .plain (by decide +kernel)
    rw [pageBounds_of_limit hlimit]
    exact (((hopen.append (balanced_ofNat _)).append hword).append (balanced_ofNat _)).append hclose

/-! ### Parentheses and strings -/

/-- The parentheses of a compiled query, one for each call and each sequence. -/
theorem weight_groups (h : q.criteriaExpression? = .ok e) :
    (q.call e).weight .groups =
      3 + (if q.criteria.isNone then 1 else 0) + 2 * q.leaves + 2 * q.composites + 4 * q.sortKeys.length := by
  have heven : Weights.groups.IsEven := rfl
  have hcalls : Weights.groups.call .search + Weights.groups.call .collection + Weights.groups.sequence = 3 := rfl
  have hleaf : Weights.groups.leaf = 2 := rfl
  have hcomposite : Weights.groups.composite = 2 := rfl
  have hkey : Weights.groups.sortKey = 4 := rfl
  have hstring : Weights.groups.string = 0 := rfl
  have hsequence : Weights.groups.sequence = 1 := rfl
  rw [weight_call heven h, hcalls, hleaf, hcomposite, hkey, hstring, hsequence, ite_self]
  omega

/-- The strings of a compiled query: two for each name and one for each value, each direction and the collection. -/
theorem weight_strings (h : q.criteriaExpression? = .ok e) :
    (q.call e).weight .strings =
      (if q.collection.isSome then 1 else 0) + 3 * q.leaves + 3 * q.sortKeys.length := by
  have heven : Weights.strings.IsEven := rfl
  have hcalls : Weights.strings.call .search + Weights.strings.call .collection + Weights.strings.sequence = 0 := rfl
  have hleaf : Weights.strings.leaf = 3 := rfl
  have hcomposite : Weights.strings.composite = 0 := rfl
  have hkey : Weights.strings.sortKey = 3 := rfl
  have hstring : Weights.strings.string = 1 := rfl
  have hsequence : Weights.strings.sequence = 0 := rfl
  rw [weight_call heven h, hcalls, hleaf, hcomposite, hkey, hstring, hsequence, ite_self]
  omega

/-! ### Compiled queries -/

/-- If nothing in a query contains a quote, a scan of its text closes every string and every parenthesis, and closes
none that is not open.  The numbers in the summary of the query tell how many there are. -/
theorem compile_balanced {prefixes : Bool} {text : Text} {leaves composites keys : Nat} (hq : q.IsQuoteFree)
    (h : q.compile prefixes = .ok text) (hshows : q.Shows leaves composites keys) :
    (Scan.after {} text).quoted = false ∧
      (∀ front, front <+: text → 0 ≤ (Scan.after {} front).depth) ∧
      (Scan.after {} text).depth = 0 ∧
      (Scan.after {} text).opened =
        3 + (if q.criteria = none then 1 else 0) + 2 * leaves + 2 * composites + 4 * keys ∧
      (Scan.after {} text).strings = (if q.collection = none then 0 else 1) + 3 * leaves + 3 * keys := by
  obtain ⟨rfl, rfl, rfl⟩ := shows_iff.1 hshows
  obtain ⟨e, he, rfl⟩ := compile_eq_ok.1 h
  have hbalanced := ((hq.call he).balanced prefixes).append q.balanced_pageBounds
  have hafter := hbalanced.after_eq {} rfl
  have hopened : ((q.call e).weight .groups) + 0 =
      3 + (if q.criteria = none then 1 else 0) + 2 * q.leaves + 2 * q.composites + 4 * q.sortKeys.length := by
    rw [Nat.add_zero, weight_groups he]
    cases q.criteria <;> rfl
  have hstrings : ((q.call e).weight .strings) + 0 =
      (if q.collection = none then 0 else 1) + 3 * q.leaves + 3 * q.sortKeys.length := by
    rw [Nat.add_zero, weight_strings he]
    cases q.collection <;> rfl
  change Scan.after {} ((q.call e).text prefixes ++ q.pageBounds) = _ at hafter
  refine ⟨?_, fun front hfront => hbalanced.depth_le {} rfl front hfront, ?_, ?_, ?_⟩
  · exact congrArg Scan.quoted hafter
  · exact congrArg Scan.depth hafter
  · exact (congrArg Scan.opened hafter).trans ((Nat.zero_add _).trans hopened)
  · exact (congrArg Scan.strings hafter).trans ((Nat.zero_add _).trans hstrings)

/-- A query with parentheses in its strings. -/
private def parentheses : Query where
  collection := some (ascii ")(")
  criteria := some (.composite .and [.leaf ⟨ascii "u(", ascii "a"⟩ (.scalar (.string (ascii "), ())")))])
  sort := some [⟨⟨[], ascii "b"⟩, true⟩]

private theorem isQuoteFree_parentheses : parentheses.IsQuoteFree := by
  refine ⟨?_, ?_, ?_⟩
  · rintro c ⟨⟩
    decide
  · rintro c ⟨⟩
    exact .composite (List.forall_mem_singleton.2 (.leaf ⟨by decide, by decide⟩ (by decide)))
  · exact List.forall_mem_singleton.2 ⟨by decide, by decide⟩

/-- Parentheses in strings are not counted. -/
theorem compile_balanced_parentheses :
    ∃ text, parentheses.compile false = .ok text ∧ (Scan.after {} text).depth = 0 ∧
      (Scan.after {} text).opened = 11 ∧ (Scan.after {} text).strings = 7 := by
  have htext : parentheses.compile false = .ok
      (ascii "search(collection(')('), and-query((element-value-query(QName('u(', 'a'), '), ())'))), " ++
        ascii "(index-order(element-reference(QName('', 'b')), ('descending'))))") := by decide +kernel
  have h := compile_balanced isQuoteFree_parentheses htext (shows_iff.2 ⟨rfl, rfl, rfl⟩)
  exact ⟨_, htext, h.2.2⟩

end Query

end DocSearch
