import DocSearch.Proofs.Decimal
import DocSearch.Proofs.Expression.Weight
import DocSearch.Proofs.Query.Compile
import DocSearch.Query.Summary

/-!
# Counting the parts of compiled queries

The parts of a compiled query are counted by the leaves, the composites and the sort keys of the query
(`Query.weight_call`), which are the numbers that its summary shows (`Query.shows_iff`).  With prefixes the text of a
query has the same segments as without, and it is longer by the prefixes of the functions that these numbers tell of
(`Query.compile_decorated`).
-/

namespace DocSearch

/-! ### Summaries -/

namespace Query

/-- The summary of the query shows these numbers of leaves, composites and sort keys. -/
def Shows (q : Query) (leaves composites keys : Nat) : Prop :=
  ∃ page, StopsRun isDigit page ∧
    q.summary = ascii "collection=" ++ q.collection.getD (ascii "*") ++
      ascii " leaves=" ++ Decimal.ofNat leaves ++
      ascii " composites=" ++ Decimal.ofNat composites ++
      ascii " sort_keys=" ++ Decimal.ofNat keys ++ page

theorem stopsRun_pageSummary (q : Query) : StopsRun isDigit q.pageSummary := by
  unfold pageSummary
  cases q.limit <;> exact stopsRun_cons.2 rfl

private theorem shows_counts (q : Query) : q.Shows q.leaves q.composites q.sortKeys.length :=
  ⟨q.pageSummary, q.stopsRun_pageSummary, rfl⟩

private theorem stopsRun_append {p : UInt8 → Bool} {b : UInt8} {s t : Text} (hs : s.head? = some b) (hb : p b = false) :
    StopsRun p (s ++ t) := by
  intro c hc
  rw [List.head?_append, hs, Option.some_or, Option.mem_some_iff] at hc
  rw [← hc, hb]

/-- Behind a numeral follows no digit, so the numeral is known from the text. -/
private theorem ofNat_append_inj {m n : Nat} {s t : Text} (hs : StopsRun isDigit s) (ht : StopsRun isDigit t)
    (h : Decimal.ofNat m ++ s = Decimal.ofNat n ++ t) : m = n ∧ s = t := by
  have htake := congrArg (List.takeWhile isDigit) h
  rw [takeWhile_run (Decimal.isDigits_ofNat m).2 hs, takeWhile_run (Decimal.isDigits_ofNat n).2 ht] at htake
  have hmn : m = n := by rw [← Decimal.value_ofNat m, htake, Decimal.value_ofNat]
  subst hmn
  exact ⟨rfl, List.append_cancel_left h⟩

/-- The summary shows the numbers of leaves, composites and sort keys, and no others. -/
theorem shows_iff {q : Query} {leaves composites keys : Nat} :
    q.Shows leaves composites keys ↔
      leaves = q.leaves ∧ composites = q.composites ∧ keys = q.sortKeys.length := by
  constructor
  · rintro ⟨page, hpage, hsummary⟩
    obtain ⟨page', hpage', hsummary'⟩ := q.shows_counts
    rw [hsummary'] at hsummary
    simp only [List.append_assoc, List.append_cancel_left_eq] at hsummary
    have hcomposites : (ascii " composites=").head? = some 32 := by decide
    have hkeys : (ascii " sort_keys=").head? = some 32 := by decide
    obtain ⟨hleaves, hrest⟩ :=
      ofNat_append_inj (stopsRun_append hcomposites rfl) (stopsRun_append hcomposites rfl) hsummary
    rw [List.append_cancel_left_eq] at hrest
    obtain ⟨hcomposites, hrest⟩ := ofNat_append_inj (stopsRun_append hkeys rfl) (stopsRun_append hkeys rfl) hrest
    rw [List.append_cancel_left_eq] at hrest
    obtain ⟨hkeys, -⟩ := ofNat_append_inj hpage' hpage hrest
    exact ⟨hleaves.symm, hcomposites.symm, hkeys.symm⟩
  · rintro ⟨rfl, rfl, rfl⟩
    exact q.shows_counts

end Query

/-! ### Weights of compiled queries -/

namespace Weights

variable (w : Weights)

/-- What the expression of a name counts for. -/
def name : Nat := w.call .qname + 2 * w.string

/-- What the expression of a leaf counts for. -/
def leaf : Nat := w.call .elementValueQuery + w.name + w.string

/-- What the expression of a composite counts for, its children apart. -/
def composite : Nat := w.call .andQuery + w.sequence

/-- What the expression of a sort key counts for. -/
def sortKey : Nat := w.call .indexOrder + w.call .elementReference + w.name + w.sequence + w.string

/-- Both connectives count alike. -/
def IsEven : Prop := w.call .orQuery = w.call .andQuery

end Weights

variable {w : Weights}

theorem ElementName.weight_expression (name : ElementName) : name.expression.weight w = w.name := by
  simp only [ElementName.expression, Expression.weight, Expression.weightAll, Weights.name]
  omega

theorem SortKey.weight_expression (key : SortKey) : key.expression.weight w = w.sortKey := by
  simp only [SortKey.expression, Expression.weight, Expression.weightAll, ElementName.weight_expression,
    Weights.sortKey]
  omega

theorem SortKey.weightAll_expressions (keys : List SortKey) :
    Expression.weightAll w (keys.map SortKey.expression) = keys.length * w.sortKey := by
  induction keys with
  | nil => rw [List.map_nil, Expression.weightAll, List.length_nil, Nat.zero_mul]
  | cons key keys ih =>
    rw [List.map_cons, Expression.weightAll, weight_expression, ih, List.length_cons, Nat.succ_mul, Nat.add_comm]

namespace Criteria

private theorem weight_function (hw : w.IsEven) (op : Connective) : w.call op.function = w.call .andQuery := by
  cases op with
  | and => rfl
  | or => exact hw

mutual

/-- Each leaf and each composite of criteria has its part in their expression. -/
theorem weight_of_expression? (hw : w.IsEven) : ∀ {c : Criteria} {e : Expression}, c.expression? = .ok e →
    e.weight w = c.leaves * w.leaf + c.composites * w.composite
  | leaf name value, e, h => by
    cases h
    simp only [Expression.weight, Expression.weightAll, ElementName.weight_expression, leaves, composites,
      Weights.leaf]
    omega
  | composite op [], e, h => by cases h
  | composite op (c :: cs), e, h => by
    obtain ⟨es, hes, rfl⟩ := expression?_composite.1 h
    have hchildren := weightAll_of_expressions? hw hes
    simp only [Expression.weight, Expression.weightAll, weight_function hw, hchildren, leaves, composites,
      Nat.add_mul, Weights.composite]
    omega
  | null, e, h => by cases h

theorem weightAll_of_expressions? (hw : w.IsEven) : ∀ {cs : List Criteria} {es : List Expression},
    expressions? cs = .ok es →
    Expression.weightAll w es = leavesAll cs * w.leaf + compositesAll cs * w.composite
  | [], es, h => by
    cases h
    simp [Expression.weightAll, leavesAll, compositesAll]
  | c :: cs, es, h => by
    obtain ⟨d, ds, hd, hds, rfl⟩ := expressions?_cons.1 h
    have hfirst := weight_of_expression? hw hd
    have hothers := weightAll_of_expressions? hw hds
    simp only [Expression.weightAll, hfirst, hothers, leavesAll, compositesAll, Nat.add_mul]
    omega

end

end Criteria

namespace Query

variable {q : Query} {e : Expression}

theorem weight_collectionExpression (q : Query) :
    q.collectionExpression.weight w = w.call .collection + if q.collection.isSome then w.string else 0 := by
  unfold collectionExpression
  cases q.collection <;> rfl

theorem weight_of_criteriaExpression? (hw : w.IsEven) (h : q.criteriaExpression? = .ok e) :
    e.weight w = (if q.criteria.isNone then w.sequence else 0) + q.leaves * w.leaf + q.composites * w.composite := by
  unfold criteriaExpression? at h
  unfold leaves composites
  cases hc : q.criteria with
  | none =>
    rw [hc] at h
    cases h
    simp [Expression.weight, Expression.weightAll]
  | some c =>
    rw [hc] at h
    have hcriteria := Criteria.weight_of_expression? hw h
    simpa using hcriteria

/-- What the parts of a compiled query count for. -/
theorem weight_call (hw : w.IsEven) (h : q.criteriaExpression? = .ok e) :
    (q.call e).weight w =
      w.call .search + w.call .collection + w.sequence +
        (if q.collection.isSome then w.string else 0) + (if q.criteria.isNone then w.sequence else 0) +
        q.leaves * w.leaf + q.composites * w.composite + q.sortKeys.length * w.sortKey := by
  have hcollection := q.weight_collectionExpression (w := w)
  have hcriteria := weight_of_criteriaExpression? hw h
  have hsort : q.sortExpression.weight w = w.sequence + q.sortKeys.length * w.sortKey := by
    rw [sortExpression, Expression.weight, SortKey.weightAll_expressions]
  simp only [call, Expression.weight, Expression.weightAll, hcollection, hcriteria, hsort]
  omega

/-! ### Decoration -/

/-- The text of segments with the given names in the slots for functions. -/
def fill (name : Function → Text) (segments : List Segment) : Text :=
  segments.flatMap fun
    | .literal s => s
    | .name f => name f

/-- Spelling segments fills their slots. -/
theorem spellAll_eq_fill (prefixes : Bool) (segments : List Segment) :
    spellAll prefixes segments =
      fill (fun f => if prefixes then f.prefixName ++ f.bareName else f.bareName) segments := by
  induction segments with
  | nil => rfl
  | cons segment segments ih =>
    unfold spellAll fill at *
    rw [List.flatMap_cons, List.flatMap_cons, ih]
    cases segment <;> rfl

/-- What the prefixes add to the text of a compiled query. -/
theorem weight_prefixes (h : q.criteriaExpression? = .ok e) :
    (q.call e).weight .prefixes = 7 + 7 * q.leaves + 4 * q.composites + 11 * q.sortKeys.length := by
  have heven : Weights.prefixes.IsEven := rfl
  have hsearch : Weights.prefixes.call .search + Weights.prefixes.call .collection = 7 := by decide
  have hleaf : Weights.prefixes.leaf = 7 := by decide
  have hcomposite : Weights.prefixes.composite = 4 := by decide
  have hkey : Weights.prefixes.sortKey = 11 := by decide
  have hstring : Weights.prefixes.string = 0 := rfl
  have hsequence : Weights.prefixes.sequence = 0 := rfl
  rw [weight_call heven h, hsearch, hleaf, hcomposite, hkey, hstring, hsequence, ite_self, ite_self]
  omega

/-- Prefixes are decoration: a query is refused for the same fault with them and without, or both texts fill the same
slots in the same segments.  The numbers in the summary of the query tell how much longer the decorated text is. -/
theorem compile_decorated (q : Query) :
    ((∃ f, q.compile false = .error f ∧ q.compile true = .error f) ∨
      ∃ segments bare prefixed, q.compile false = .ok bare ∧ q.compile true = .ok prefixed ∧
        bare = fill Function.bareName segments ∧
        prefixed = fill (fun f => f.prefixName ++ f.bareName) segments ∧
        prefixed.length = bare.length + (7 + 7 * q.leaves + 4 * q.composites + 11 * q.sortKeys.length)) ∧
    (∀ f : Function, f.prefixName = if f = .collection ∨ f = .qname then ascii "fn:" else ascii "cts:") ∧
    ∀ leaves composites keys, q.Shows leaves composites keys ↔
      leaves = q.leaves ∧ composites = q.composites ∧ keys = q.sortKeys.length := by
  refine ⟨?_, fun f => by cases f <;> rfl, fun _ _ _ => shows_iff⟩
  cases he : q.criteriaExpression? with
  | error f =>
    refine Or.inl ⟨f, ?_, ?_⟩
    · rw [compile_eq_map, he, Except.map]
    · rw [compile_eq_map, he, Except.map]
  | ok e =>
    -- both texts come from the segments of one call and the bounds of the page
    have hfill : ∀ prefixes, (q.call e).text prefixes ++ q.pageBounds =
        fill (fun f => if prefixes then f.prefixName ++ f.bareName else f.bareName)
          ((q.call e).segments ++ [.literal q.pageBounds]) := by
      intro prefixes
      rw [← spellAll_eq_fill, spellAll_append]
      simp [spellAll, Segment.spell, Expression.text]
    have hbare := hfill false
    have hprefixed := hfill true
    simp only [Bool.false_eq_true, if_false, if_true] at hbare hprefixed
    refine Or.inr ⟨_, _, _, compile_eq_ok.2 ⟨e, he, rfl⟩, compile_eq_ok.2 ⟨e, he, rfl⟩, hbare, hprefixed, ?_⟩
    have hlength := (q.call e).length_text
    have hweight := weight_prefixes he
    change ((q.call e).text true ++ q.pageBounds).length = ((q.call e).text false ++ q.pageBounds).length + _
    simp only [List.length_append]
    omega

/-- A query whose collection reads like a call. -/
private def callLike : Query where
  collection := some (ascii "cts:search(")
  criteria := some (.leaf ⟨[], ascii "a"⟩ (.scalar (.bool true)))

/-- The texts of a query, and its segments: the name of the collection is a literal among them. -/
theorem compile_decorated_callLike :
    (∃ segments bare prefixed, callLike.compile false = .ok bare ∧ callLike.compile true = .ok prefixed ∧
      bare = fill Function.bareName segments ∧ prefixed = fill (fun f => f.prefixName ++ f.bareName) segments ∧
      bare = ascii "search(collection('cts:search('), element-value-query(QName('', 'a'), 'true'), ())" ∧
      prefixed = ascii "cts:search(fn:collection('cts:search('), " ++
        ascii "cts:element-value-query(fn:QName('', 'a'), 'true'), ())" ∧
      prefixed.length = bare.length + 14) ∧
    callLike.segments? = .ok
      [.name .search, .literal (ascii "("),
        .name .collection, .literal (ascii "("), .literal (ascii "'cts:search('"), .literal (ascii ")"),
        .literal (ascii ", "),
        .name .elementValueQuery, .literal (ascii "("),
        .name .qname, .literal (ascii "("), .literal (ascii "''"), .literal (ascii ", "), .literal (ascii "'a'"),
        .literal (ascii ")"), .literal (ascii ", "), .literal (ascii "'true'"), .literal (ascii ")"),
        .literal (ascii ", "), .literal (ascii "("), .literal (ascii ")"), .literal (ascii ")"), .literal []] := by
  have htext : callLike.compile false =
      .ok (ascii "search(collection('cts:search('), element-value-query(QName('', 'a'), 'true'), ())") := by
    decide +kernel
  have htext' : callLike.compile true =
      .ok (ascii "cts:search(fn:collection('cts:search('), " ++
        ascii "cts:element-value-query(fn:QName('', 'a'), 'true'), ())") := by
    decide +kernel
  refine ⟨?_, by decide +kernel⟩
  rcases (compile_decorated callLike).1 with ⟨f, hf, -⟩ | ⟨segments, bare, prefixed, hbare, hprefixed, h, h', hlength⟩
  · cases hf.symm.trans htext
  · exact ⟨segments, bare, prefixed, hbare, hprefixed, h, h', Except.ok.inj (hbare.symm.trans htext),
      Except.ok.inj (hprefixed.symm.trans htext'), hlength⟩

end Query

end DocSearch
