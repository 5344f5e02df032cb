import DocSearch.Proofs.Expression.Reader
import DocSearch.Proofs.Numeral
import DocSearch.Proofs.Query.Compile

/-!
# Decoding compiled queries

The text of a compiled query is read back to its expression, and the expression to a query.  What the text
tells of a query is its normal form: values are known by their lexical forms, absent sort keys are no keys,
and what is left out matters only for a page.  If no name, value or collection contains a quote, decoding the
text of a query yields its normal form (`Query.decode?_of_compile`), so a text is that of one normal form
only.
-/

namespace DocSearch

/-! ### Normal forms -/

namespace Criteria

mutual

/-- The criteria with the lexical form of each value in place of the value. -/
def lexical : Criteria → Criteria
  | leaf name value => leaf name (.scalar (.string value.lexical))
  | composite op cs => composite op (lexicalAll cs)
  | null => null

def lexicalAll : List Criteria → List Criteria
  | [] => []
  | c :: cs => c.lexical :: lexicalAll cs

end

end Criteria

/-- The query with all that its compiled text tells of it. -/
def Query.normal (q : Query) : Query where
  collection := q.collection
  criteria := q.criteria.map Criteria.lexical
  skip := q.limit.map fun _ => q.offset
  limit := q.limit
  sort := some q.sortKeys

/-! ### Decoding expressions -/

def ElementName.ofExpression? : Expression → Option ElementName
  | .call .qname [.string uri, .string localName] => some ⟨uri, localName⟩
  | _ => none

def Connective.ofFunction? : Function → Option Connective
  | .andQuery => some .and
  | .orQuery => some .or
  | _ => none

namespace Criteria

mutual

def ofExpression? : Expression → Option Criteria
  | .call .elementValueQuery [name, .string v] =>
    (ElementName.ofExpression? name).map fun n => .leaf n (.scalar (.string v))
  | .call f [.sequence es] => do
    let op ← Connective.ofFunction? f
    let cs ← ofExpressions? es
    return .composite op cs
  | _ => none

def ofExpressions? : List Expression → Option (List Criteria)
  | [] => some []
  | e :: es => do
    let c ← ofExpression? e
    let cs ← ofExpressions? es
    return c :: cs

end

end Criteria

def SortKey.ofExpression? : Expression → Option SortKey
  | .call .indexOrder [.call .elementReference [name], .sequence [.string direction]] =>
    if direction = ascii "descending" then (ElementName.ofExpression? name).map fun n => ⟨n, true⟩
    else if direction = ascii "ascending" then (ElementName.ofExpression? name).map fun n => ⟨n, false⟩
    else none
  | _ => none

namespace Query

def collectionOfExpression? : Expression → Option (Option Text)
  | .call .collection [] => some none
  | .call .collection [.string s] => some (some s)
  | _ => none

def criteriaOfExpression? : Expression → Option (Option Criteria)
  | .sequence [] => some none
  | e => (Criteria.ofExpression? e).map some

/-- The query without its page. -/
def ofExpression? : Expression → Option Query
  | .call .search [collection, criteria, .sequence keys] => do
    let collection ← collectionOfExpression? collection
    let criteria ← criteriaOfExpression? criteria
    let keys ← keys.mapM SortKey.ofExpression?
    return { collection, criteria, sort := some keys }
  | _ => none

/-- The query with the page whose bounds follow it. -/
def withPage? (q : Query) : Text → Option Query
  | [] => some q
  | b :: s => do
    let (lo, s) ← Text.cut ' '.toUInt8 s
    let (word, s) ← Text.cut ' '.toUInt8 s
    let (hi, s) ← Text.cut ']'.toUInt8 s
    if b = '['.toUInt8 ∧ word = ascii "to" ∧ s = [] then
      return { q with
        skip := some (UInt64.ofNat (Decimal.value lo - 1))
        limit := some (UInt64.ofNat (Decimal.value hi + 1 - Decimal.value lo)) }
    else none

/-- The normal form of the queries with the given compiled text. -/
def decode? (prefixes : Bool) (text : Text) : Option Query := do
  let (e, s) ← Reader.read prefixes (.inside [] (.item [])) text
  let q ← ofExpression? e
  q.withPage? s

end Query

/-! ### Expressions of parts -/

@[simp]
theorem ElementName.ofExpression?_expression (name : ElementName) : ofExpression? name.expression = some name := rfl

theorem SortKey.ofExpression?_expression (key : SortKey) : ofExpression? key.expression = some key := by
  obtain ⟨name, descending⟩ := key
  cases descending <;> rfl

private theorem mapM_sortKeys (keys : List SortKey) :
    (keys.map SortKey.expression).mapM SortKey.ofExpression? = some keys := by
  induction keys with
  | nil => rfl
  | cons key keys ih => simp [SortKey.ofExpression?_expression, ih]

namespace Criteria

theorem exists_of_mem_expressions? {cs : List Criteria} {es : List Expression} (h : expressions? cs = .ok es) :
    ∀ e ∈ es, ∃ c ∈ cs, c.expression? = .ok e := by
  induction cs generalizing es with
  | nil =>
    cases h
    exact nofun
  | cons c cs ih =>
    obtain ⟨d, ds, hd, hds, rfl⟩ := expressions?_cons.1 h
    intro e he
    rcases List.mem_cons.1 he with rfl | he
    · exact ⟨c, List.mem_cons_self .., hd⟩
    · obtain ⟨c', hc', hce⟩ := ih hds e he
      exact ⟨c', List.mem_cons_of_mem _ hc', hce⟩

private theorem ofExpression?_call (op : Connective) (es : List Expression) :
    ofExpression? (.call op.function [.sequence es]) = (ofExpressions? es).map (composite op) := by
  cases op <;> simp [ofExpression?, Connective.function, Connective.ofFunction?] <;> cases ofExpressions? es <;> rfl

mutual

theorem ofExpression?_of_expression? : ∀ {c : Criteria} {e : Expression}, c.expression? = .ok e →
    ofExpression? e = some c.lexical
  | leaf name value, e, h => by
    cases h
    rfl
  | composite op [], e, h => by cases h
  | composite op (c :: cs), e, h => by
    obtain ⟨es, hes, rfl⟩ := expression?_composite.1 h
    rw [ofExpression?_call, ofExpressions?_of_expressions? hes, Option.map_some, lexical]
  | null, e, h => by cases h

theorem ofExpressions?_of_expressions? : ∀ {cs : List Criteria} {es : List Expression}, expressions? cs = .ok es →
    ofExpressions? es = some (lexicalAll cs)
  | [], es, h => by
    cases h
    rfl
  | c :: cs, es, h => by
    obtain ⟨d, ds, hd, hds, rfl⟩ := expressions?_cons.1 h
    rw [ofExpressions?, ofExpression?_of_expression? hd, ofExpressions?_of_expressions? hds]
    rfl

end

end Criteria

/-! ### Quotes -/

structure ElementName.IsQuoteFree (name : ElementName) : Prop where
  uri : quote ∉ name.uri
  localName : quote ∉ name.localName

/-- No name and no lexical form of a value contains a quote. -/
inductive Criteria.IsQuoteFree : Criteria → Prop
  | leaf {name : ElementName} {v : Value} (hn : name.IsQuoteFree) (hv : quote ∉ v.lexical) :
      IsQuoteFree (.leaf name v)
  | composite {op : Connective} {cs : List Criteria} (hcs : ∀ c ∈ cs, IsQuoteFree c) :
      IsQuoteFree (.composite op cs)
  | null : IsQuoteFree .null

structure Query.IsQuoteFree (q : Query) : Prop where
  collection : ∀ s ∈ q.collection, quote ∉ s
  criteria : ∀ c ∈ q.criteria, c.IsQuoteFree
  sort : ∀ key ∈ q.sortKeys, key.name.IsQuoteFree

private theorem forall_mem_pair {α : Type} {p : α → Prop} {a b : α} (ha : p a) (hb : p b) : ∀ x ∈ [a, b], p x :=
  List.forall_mem_cons.2 ⟨ha, List.forall_mem_singleton.2 hb⟩

theorem ElementName.IsQuoteFree.expression {name : ElementName} (h : name.IsQuoteFree) :
    name.expression.IsQuoteFree :=
  .call (forall_mem_pair (.string h.uri) (.string h.localName))

theorem Criteria.IsQuoteFree.expression {c : Criteria} (h : c.IsQuoteFree) {e : Expression}
    (he : c.expression? = .ok e) : e.IsQuoteFree := by
  induction h generalizing e with
  | leaf hn hv =>
    cases he
    exact .call (forall_mem_pair hn.expression (.string hv))
  | @composite op cs _ ih =>
    cases cs with
    | nil => cases he
    | cons d ds =>
      obtain ⟨es, hes, rfl⟩ := expression?_composite.1 he
      have hall : ∀ e ∈ es, e.IsQuoteFree := by
        intro e hmem
        obtain ⟨c, hc, hce⟩ := exists_of_mem_expressions? hes e hmem
        exact ih c hc hce
      exact .call (List.forall_mem_singleton.2 (.sequence hall))
  | null => cases he

theorem SortKey.isQuoteFree_expression {key : SortKey} (h : key.name.IsQuoteFree) : key.expression.IsQuoteFree := by
  have hdirection : quote ∉ (if key.descending then ascii "descending" else ascii "ascending") := by
    cases key.descending <;> decide
  exact .call (forall_mem_pair (.call (List.forall_mem_singleton.2 h.expression))
    (.sequence (List.forall_mem_singleton.2 (.string hdirection))))

namespace Query

theorem IsQuoteFree.call {q : Query} (h : q.IsQuoteFree) {e : Expression} (he : q.criteriaExpression? = .ok e) :
    (q.call e).IsQuoteFree := by
  have hcollection : q.collectionExpression.IsQuoteFree := by
    refine .call fun e' he' => ?_
    obtain ⟨s, hs, rfl⟩ := List.mem_map.1 he'
    exact .string (h.collection s (Option.mem_toList.1 hs))
  have hcriteria : e.IsQuoteFree := by
    unfold criteriaExpression? at he
    split at he
    · cases he
      exact .sequence nofun
    · rename_i c hc
      exact (h.criteria c hc).expression he
  have hsort : q.sortExpression.IsQuoteFree := by
    refine .sequence fun e' he' => ?_
    obtain ⟨key, hkey, rfl⟩ := List.mem_map.1 he'
    exact SortKey.isQuoteFree_expression (h.sort key hkey)
  exact .call (List.forall_mem_cons.2 ⟨hcollection, forall_mem_pair hcriteria hsort⟩)

/-! ### Decoding compiled queries -/

private theorem collectionOfExpression?_eq (q : Query) :
    collectionOfExpression? q.collectionExpression = some q.collection := by
  unfold collectionExpression
  cases q.collection <;> rfl

private theorem criteriaOfExpression?_eq {q : Query} {e : Expression} (h : q.criteriaExpression? = .ok e) :
    criteriaOfExpression? e = some (q.criteria.map Criteria.lexical) := by
  unfold criteriaExpression? at h
  cases hc : q.criteria with
  | none =>
    rw [hc] at h
    cases h
    rfl
  | some c =>
    rw [hc] at h
    have hdecoded := Criteria.ofExpression?_of_expression? h
    -- the expression of criteria is a call, never a sequence
    cases e with
    | sequence es => cases hdecoded
    | _ => simp only [criteriaOfExpression?, hdecoded, Option.map_some]

theorem ofExpression?_call {q : Query} {e : Expression} (h : q.criteriaExpression? = .ok e) :
    ofExpression? (q.call e) = some { q.normal with skip := none, limit := none } := by
  show (do
    let collection ← collectionOfExpression? q.collectionExpression
    let criteria ← criteriaOfExpression? e
    let keys ← (q.sortKeys.map SortKey.expression).mapM SortKey.ofExpression?
    return ({ collection, criteria, sort := some keys } : Query)) = _
  rw [collectionOfExpression?_eq, criteriaOfExpression?_eq h, mapM_sortKeys]
  rfl

private theorem cut_numeral {b : UInt8} (hb : isDigit b = false) (n : Nat) (rest : Text) :
    Text.cut b (Decimal.ofNat n ++ b :: rest) = some (Decimal.ofNat n, rest) :=
  Text.cut_eq_some.2 ⟨rfl, (Decimal.isDigits_ofNat n).not_mem hb⟩

/-- The bounds of a page give its limit and offset back, whether or not they are words. -/
theorem withPage?_pageBounds (q : Query) :
    withPage? { q.normal with skip := none, limit := none } q.pageBounds = some q.normal := by
  cases hn : q.limit with
  | none =>
    rw [pageBounds_of_no_limit hn]
    simp [withPage?, normal, hn]
  | some n =>
    have hword : Text.cut ' '.toUInt8 (ascii "to " ++ (Decimal.ofNat (q.offset.toNat + n.toNat) ++ ascii "]")) =
        some (ascii "to", Decimal.ofNat (q.offset.toNat + n.toNat) ++ ascii "]") :=
      Text.cut_eq_some.2 ⟨rfl, by decide⟩
    have hbounds : q.pageBounds = '['.toUInt8 :: (Decimal.ofNat (q.offset.toNat + 1) ++ ' '.toUInt8 ::
        (ascii "to " ++ (Decimal.ofNat (q.offset.toNat + n.toNat) ++ ascii "]"))) := by
      rw [pageBounds_of_limit hn]
      simp only [List.append_assoc]
      rfl
    have hoffset : UInt64.ofNat (q.offset.toNat + 1 - 1) = q.offset := by simp
    have hlimit : UInt64.ofNat (q.offset.toNat + n.toNat + 1 - (q.offset.toNat + 1)) = n := by
      have hsub : q.offset.toNat + n.toNat + 1 - (q.offset.toNat + 1) = n.toNat := by omega
      rw [hsub, UInt64.ofNat_toNat]
    rw [hbounds, withPage?, cut_numeral (by decide)]
    simp only [Option.bind_eq_bind, Option.bind_some, hword]
    rw [show ascii "]" = ']'.toUInt8 :: [] from rfl, cut_numeral (by decide)]
    simp only [Option.bind_some, and_self, if_true, Decimal.value_ofNat, hoffset, hlimit]
    simp only [normal, hn, Option.map_some]
    rfl

/-- The text of a query is decoded to the normal form of the query. -/
theorem decode?_of_compile {q : Query} (hq : q.IsQuoteFree) {prefixes : Bool} {text : Text}
    (h : q.compile prefixes = .ok text) : decode? prefixes text = some q.normal := by
  obtain ⟨e, he, rfl⟩ := compile_eq_ok.1 h
  have hread :
      Reader.read prefixes (.inside [] (.item [])) (spellAll prefixes (q.call e).segments ++ q.pageBounds) =
        some (q.call e, q.pageBounds) := (hq.call he).read_text q.pageBounds
  unfold decode?
  rw [hread]
  simp only [Option.bind_eq_bind, Option.bind_some, ofExpression?_call he]
  exact withPage?_pageBounds q

/-- Two queries with the same compiled text agree in all that the text tells, and decoding the text tells it. -/
theorem compile_uniquely_readable {q₁ q₂ : Query} {prefixes : Bool} {text : Text} (hq₁ : q₁.IsQuoteFree)
    (hq₂ : q₂.IsQuoteFree) (h₁ : q₁.compile prefixes = .ok text) (h₂ : q₂.compile prefixes = .ok text) :
    q₁.collection = q₂.collection ∧
      q₁.criteria.map Criteria.lexical = q₂.criteria.map Criteria.lexical ∧
      q₁.sortKeys = q₂.sortKeys ∧
      (q₁.limit = none ∧ q₂.limit = none ∨ q₁.limit = q₂.limit ∧ q₁.offset = q₂.offset) ∧
      decode? prefixes text = some q₁.normal := by
  have hdecoded := decode?_of_compile hq₁ h₁
  have hnormal : q₁.normal = q₂.normal := Option.some.inj (hdecoded.symm.trans (decode?_of_compile hq₂ h₂))
  have hcollection : q₁.normal.collection = q₂.normal.collection := by rw [hnormal]
  have hcriteria : q₁.normal.criteria = q₂.normal.criteria := by rw [hnormal]
  have hsort : q₁.normal.sort = q₂.normal.sort := by rw [hnormal]
  have hlimit : q₁.normal.limit = q₂.normal.limit := by rw [hnormal]
  have hskip : q₁.normal.skip = q₂.normal.skip := by rw [hnormal]
  refine ⟨hcollection, hcriteria, Option.some.inj hsort, ?_, hdecoded⟩
  change q₁.limit = q₂.limit at hlimit
  change (q₁.limit.map fun _ => q₁.offset) = q₂.limit.map fun _ => q₂.offset at hskip
  cases hn : q₁.limit with
  | none => exact Or.inl ⟨rfl, hlimit.symm.trans hn⟩
  | some n =>
    rw [← hlimit, hn] at hskip
    exact Or.inr ⟨hn.symm.trans hlimit, Option.some.inj hskip⟩

/-- A query of one leaf with a page that ends behind the last word. -/
private def pageOfLeaf (v : Value) (sort : Option (List SortKey)) : Query where
  criteria := some (.composite .or [.leaf ⟨ascii "u", ascii "a"⟩ v])
  skip := some 1
  limit := some 0xFFFFFFFFFFFFFFFF
  sort := sort

private theorem isQuoteFree_pageOfLeaf {v : Value} (hv : quote ∉ v.lexical) {sort : Option (List SortKey)}
    (hsort : sort.getD [] = []) : (pageOfLeaf v sort).IsQuoteFree := by
  refine ⟨nofun, ?_, ?_⟩
  · rintro c ⟨⟩
    exact .composite (List.forall_mem_singleton.2 (.leaf ⟨by decide, by decide⟩ hv))
  · intro key hkey
    have hnil : (pageOfLeaf v sort).sortKeys = [] := hsort
    rw [hnil] at hkey
    cases hkey

private def pageOfLeafText : Text :=
  ascii "cts:search(fn:collection(), cts:or-query((cts:element-value-query(fn:QName('u', 'a'), '5'))), " ++
    ascii "())[2 to 18446744073709551616]"

theorem compile_uniquely_readable_page :
    (pageOfLeaf (.scalar (.int 5)) none).compile true = .ok pageOfLeafText ∧
      (pageOfLeaf (.scalar (.string (ascii "5"))) (some [])).compile true = .ok pageOfLeafText ∧
      decode? true pageOfLeafText = some (pageOfLeaf (.scalar (.int 5)) none).normal := by
  have h₁ : (pageOfLeaf (.scalar (.int 5)) none).compile true = .ok pageOfLeafText := by decide +kernel
  have h₂ : (pageOfLeaf (.scalar (.string (ascii "5"))) (some [])).compile true = .ok pageOfLeafText := by
    decide +kernel
  have h := compile_uniquely_readable (isQuoteFree_pageOfLeaf (by decide +kernel) rfl)
    (isQuoteFree_pageOfLeaf (by decide) rfl) h₁ h₂
  exact ⟨h₁, h₂, h.2.2.2.2⟩

end Query

end DocSearch
