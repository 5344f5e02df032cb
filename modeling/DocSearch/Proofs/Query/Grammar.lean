import DocSearch.Proofs.Numeral
import DocSearch.Query
import DocSearch.Token

/-!
# The grammar of query text

The grammar gives the token lists that a phrase may consist of, together with what the phrase means:

    query       := SEARCH [IN string] [WHERE expression] [ORDER BY key {, key}] [LIMIT n [OFFSET n]] [;]
    expression  := conjunction {OR conjunction}
    conjunction := comparison {AND comparison}
    comparison  := ( expression ) | field = literal | field IN ( literal {, literal} )
    key         := field [ASC | DESC]
    field       := name | {uri} name
    literal     := string | number | TRUE | FALSE | NULL

It speaks of the kinds and texts of tokens only, and knows nothing of how they are read.
-/

namespace DocSearch

/-- A phrase of the grammar with its meaning. -/
inductive Phrase where
  | field (name : ElementName)
  | literal (value : Value)
  | literals (values : List Value)
  | comparison (c : Criteria)
  | conjuncts (cs : List Criteria)
  | conjunction (c : Criteria)
  | disjuncts (cs : List Criteria)
  | expression (c : Criteria)
  | sortKey (key : SortKey)
  | sortKeys (keys : List SortKey)
  | collectionClause (collection : Option Text)
  | criteriaClause (criteria : Option Criteria)
  | orderClause (sort : Option (List SortKey))
  | pageClause (skip limit : Option UInt64)
  | ending
  | query (q : Query)

/-- A token of digits that stand for the given word. -/
structure Token.Counts (t : Token) (n : UInt64) : Prop where
  kind_eq : t.kind = .number
  digits : IsDigits t.text
  toNat_eq : n.toNat = Decimal.value t.text

/-- The tokens of a phrase, with local names as the given rule has them. -/
inductive Derives (rule : NameRule) : Phrase → List Token → Prop
  -- fields and literals
  | name {t : Token} (ht : t.kind = .identifier) (hn : rule.admits t.text = true) :
      Derives rule (.field ⟨[], t.text⟩) [t]
  | qualifiedName {t : Token} {uri name : Text} (ht : t.kind = .qualifiedName)
      (hs : t.text = '{'.toUInt8 :: uri ++ '}'.toUInt8 :: name) (hu : '}'.toUInt8 ∉ uri)
      (hn : rule.admits name = true) : Derives rule (.field ⟨uri, name⟩) [t]
  | string {t : Token} (ht : t.kind = .string) : Derives rule (.literal (.scalar (.string t.text))) [t]
  | number {t : Token} {n : Numeral} {s : Scalar} (ht : t.kind = .number) (hs : t.text = n.text)
      (hn : n.Denotes s) : Derives rule (.literal (.scalar s)) [t]
  | trueWord {t : Token} (ht : t.kind = .keyword .true) : Derives rule (.literal (.scalar (.bool true))) [t]
  | falseWord {t : Token} (ht : t.kind = .keyword .false) : Derives rule (.literal (.scalar (.bool false))) [t]
  | nullWord {t : Token} (ht : t.kind = .keyword .null) : Derives rule (.literal (.scalar .null)) [t]
  | oneLiteral {v : Value} {a : List Token} (ha : Derives rule (.literal v) a) : Derives rule (.literals [v]) a
  | moreLiterals {vs : List Value} {v : Value} {a b : List Token} {t : Token}
      (ha : Derives rule (.literals vs) a) (ht : t.kind = .comma) (hb : Derives rule (.literal v) b) :
      Derives rule (.literals (vs ++ [v])) (a ++ t :: b)
  -- comparisons
  | parentheses {c : Criteria} {a : List Token} {t u : Token} (ht : t.kind = .openParen)
      (ha : Derives rule (.expression c) a) (hu : u.kind = .closeParen) :
      Derives rule (.comparison c) (t :: a ++ [u])
  | equality {name : ElementName} {v : Value} {a b : List Token} {t : Token}
      (ha : Derives rule (.field name) a) (ht : t.kind = .equal) (hb : Derives rule (.literal v) b) :
      Derives rule (.comparison (.leaf name v)) (a ++ t :: b)
  | oneMember {name : ElementName} {v : Value} {a b : List Token} {t u w : Token}
      (ha : Derives rule (.field name) a) (ht : t.kind = .keyword .in_) (hu : u.kind = .openParen)
      (hb : Derives rule (.literals [v]) b) (hw : w.kind = .closeParen) :
      Derives rule (.comparison (.leaf name v)) (a ++ t :: u :: b ++ [w])
  | members {name : ElementName} {vs : List Value} {a b : List Token} {t u w : Token}
      (ha : Derives rule (.field name) a) (ht : t.kind = .keyword .in_) (hu : u.kind = .openParen)
      (hb : Derives rule (.literals vs) b) (hvs : 2 ≤ vs.length) (hw : w.kind = .closeParen) :
      Derives rule (.comparison (.composite .or (vs.map (.leaf name)))) (a ++ t :: u :: b ++ [w])
  -- chains: a single operand stands for itself, several make one composite
  | oneConjunct {c : Criteria} {a : List Token} (ha : Derives rule (.comparison c) a) :
      Derives rule (.conjuncts [c]) a
  | moreConjuncts {cs : List Criteria} {c : Criteria} {a b : List Token} {t : Token}
      (ha : Derives rule (.conjuncts cs) a) (ht : t.kind = .keyword .and) (hb : Derives rule (.comparison c) b) :
      Derives rule (.conjuncts (cs ++ [c])) (a ++ t :: b)
  | singleConjunction {c : Criteria} {a : List Token} (ha : Derives rule (.conjuncts [c]) a) :
      Derives rule (.conjunction c) a
  | conjunction {cs : List Criteria} {a : List Token} (ha : Derives rule (.conjuncts cs) a)
      (hcs : 2 ≤ cs.length) : Derives rule (.conjunction (.composite .and cs)) a
  | oneDisjunct {c : Criteria} {a : List Token} (ha : Derives rule (.conjunction c) a) :
      Derives rule (.disjuncts [c]) a
  | moreDisjuncts {cs : List Criteria} {c : Criteria} {a b : List Token} {t : Token}
      (ha : Derives rule (.disjuncts cs) a) (ht : t.kind = .keyword .or) (hb : Derives rule (.conjunction c) b) :
      Derives rule (.disjuncts (cs ++ [c])) (a ++ t :: b)
  | singleExpression {c : Criteria} {a : List Token} (ha : Derives rule (.disjuncts [c]) a) :
      Derives rule (.expression c) a
  | expression {cs : List Criteria} {a : List Token} (ha : Derives rule (.disjuncts cs) a)
      (hcs : 2 ≤ cs.length) : Derives rule (.expression (.composite .or cs)) a
  -- sort keys
  | plainKey {name : ElementName} {a : List Token} (ha : Derives rule (.field name) a) :
      Derives rule (.sortKey ⟨name, false⟩) a
  | ascendingKey {name : ElementName} {a : List Token} {t : Token} (ha : Derives rule (.field name) a)
      (ht : t.kind = .keyword .asc) : Derives rule (.sortKey ⟨name, false⟩) (a ++ [t])
  | descendingKey {name : ElementName} {a : List Token} {t : Token} (ha : Derives rule (.field name) a)
      (ht : t.kind = .keyword .desc) : Derives rule (.sortKey ⟨name, true⟩) (a ++ [t])
  | oneKey {key : SortKey} {a : List Token} (ha : Derives rule (.sortKey key) a) :
      Derives rule (.sortKeys [key]) a
  | moreKeys {keys : List SortKey} {key : SortKey} {a b : List Token} {t : Token}
      (ha : Derives rule (.sortKeys keys) a) (ht : t.kind = .comma) (hb : Derives rule (.sortKey key) b) :
      Derives rule (.sortKeys (keys ++ [key])) (a ++ t :: b)
  -- clauses, each of which may be absent
  | noCollection : Derives rule (.collectionClause none) []
  | collection {t u : Token} (ht : t.kind = .keyword .in_) (hu : u.kind = .string) :
      Derives rule (.collectionClause (some u.text)) [t, u]
  | noCriteria : Derives rule (.criteriaClause none) []
  | criteria {c : Criteria} {a : List Token} {t : Token} (ht : t.kind = .keyword .where_)
      (ha : Derives rule (.expression c) a) : Derives rule (.criteriaClause (some c)) (t :: a)
  | noOrder : Derives rule (.orderClause none) []
  | order {keys : List SortKey} {a : List Token} {t u : Token} (ht : t.kind = .keyword .order)
      (hu : u.kind = .keyword .by_) (ha : Derives rule (.sortKeys keys) a) :
      Derives rule (.orderClause (some keys)) (t :: u :: a)
  | noPage : Derives rule (.pageClause none none) []
  | limit {t u : Token} {n : UInt64} (ht : t.kind = .keyword .limit) (hu : u.Counts n) (hn : n ≠ 0) :
      Derives rule (.pageClause none (some n)) [t, u]
  | offset {t u v w : Token} {n m : UInt64} (ht : t.kind = .keyword .limit) (hu : u.Counts n) (hn : n ≠ 0)
      (hv : v.kind = .keyword .offset) (hw : w.Counts m) (hm : m.toNat + n.toNat < UInt64.size) :
      Derives rule (.pageClause (some m) (some n)) [t, u, v, w]
  | noSemicolon : Derives rule .ending []
  | semicolon {t : Token} (ht : t.kind = .semicolon) : Derives rule .ending [t]
  | query {collection : Option Text} {criteria : Option Criteria} {skip limit : Option UInt64}
      {sort : Option (List SortKey)} {t : Token} {a b c d e : List Token} (ht : t.kind = .keyword .search)
      (ha : Derives rule (.collectionClause collection) a) (hb : Derives rule (.criteriaClause criteria) b)
      (hc : Derives rule (.orderClause sort) c) (hd : Derives rule (.pageClause skip limit) d)
      (he : Derives rule .ending e) :
      Derives rule (.query ⟨collection, criteria, skip, limit, sort⟩) (t :: (a ++ b ++ c ++ d ++ e))

/-- The tokens of a whole text that denotes a query: those of the query, and the end of the text. -/
def IsSentence (rule : NameRule) (q : Query) (ts : List Token) : Prop :=
  ∃ body e, ts = body ++ [e] ∧ e.kind = .endOfText ∧ Derives rule (.query q) body

/-! ### Chains -/

namespace Derives

variable {rule : NameRule}

theorem literals_ne_nil {vs : List Value} {ts : List Token} (h : Derives rule (.literals vs) ts) : vs ≠ [] := by
  cases h <;> simp

theorem conjuncts_ne_nil {cs : List Criteria} {ts : List Token} (h : Derives rule (.conjuncts cs) ts) :
    cs ≠ [] := by
  cases h <;> simp

theorem disjuncts_ne_nil {cs : List Criteria} {ts : List Token} (h : Derives rule (.disjuncts cs) ts) :
    cs ≠ [] := by
  cases h <;> simp

end Derives

end DocSearch
