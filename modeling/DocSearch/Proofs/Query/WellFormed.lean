import DocSearch.Proofs.Double.Exact
import DocSearch.Proofs.Query.Compile
import DocSearch.Proofs.Query.Position
import DocSearch.Proofs.Query.Recognition

/-!
# Well-formed queries

What the grammar derives is well-formed (`Derives.wellFormed`): composites join at least two children, values
are finite scalars, names are names, and a page lies inside the words.  A well-formed query compiles
(`Query.WellFormed.compile_ok`), and the bounds of its page are sums of words (`Query.WellFormed.pageBounds_eq`).
-/

namespace DocSearch

variable {rule : NameRule}

/-! ### What is well-formed -/

structure ElementName.WellFormed (rule : NameRule) (name : ElementName) : Prop where
  uri : '}'.toUInt8 ∉ name.uri
  localName : rule.admits name.localName = true

/-- A scalar that is no infinity and no NaN. -/
def Scalar.IsFinite : Scalar → Prop
  | .double d => d.isFinite = true
  | _ => True

/-- A finite scalar: sequences are no literals. -/
def Value.IsLiteral : Value → Prop
  | .scalar s => s.IsFinite
  | .sequence _ => False

inductive Criteria.WellFormed (rule : NameRule) : Criteria → Prop
  | leaf {name : ElementName} {v : Value} (hn : name.WellFormed rule) (hv : v.IsLiteral) :
      WellFormed rule (.leaf name v)
  | composite {op : Connective} {cs : List Criteria} (hlen : 2 ≤ cs.length) (hcs : ∀ c ∈ cs, WellFormed rule c) :
      WellFormed rule (.composite op cs)

structure Query.WellFormed (rule : NameRule) (q : Query) : Prop where
  criteria : ∀ c ∈ q.criteria, c.WellFormed rule
  sort : ∀ keys ∈ q.sort, keys ≠ [] ∧ ∀ key ∈ keys, key.name.WellFormed rule
  skip : q.skip.isSome = true → q.limit.isSome = true
  limit : ∀ n ∈ q.limit, 1 ≤ n.toNat ∧ q.offset.toNat + n.toNat < UInt64.size

/-- What the grammar grants of the meaning of a phrase. -/
def Phrase.WellFormed (rule : NameRule) : Phrase → Prop
  | .field name => name.WellFormed rule
  | .literal v => v.IsLiteral
  | .literals vs => ∀ v ∈ vs, v.IsLiteral
  | .comparison c | .conjunction c | .expression c => c.WellFormed rule
  | .conjuncts cs | .disjuncts cs => ∀ c ∈ cs, c.WellFormed rule
  | .sortKey key => key.name.WellFormed rule
  | .sortKeys keys => keys ≠ [] ∧ ∀ key ∈ keys, key.name.WellFormed rule
  | .collectionClause _ | .ending => True
  | .criteriaClause criteria => ∀ c ∈ criteria, c.WellFormed rule
  | .orderClause sort => ∀ keys ∈ sort, keys ≠ [] ∧ ∀ key ∈ keys, key.name.WellFormed rule
  | .pageClause skip limit =>
    (skip.isSome = true → limit.isSome = true) ∧
      ∀ n ∈ limit, 1 ≤ n.toNat ∧ (skip.getD 0).toNat + n.toNat < UInt64.size
  | .query q => q.WellFormed rule

/-! ### Literals -/

private theorem isFinite_ofMagnitude {negative : Bool} {m : Nat} (h : m < Double.infinity) :
    (Double.ofMagnitude negative m).isFinite = true := by
  have hlt : m < Double.signBit := Nat.lt_trans h (by decide)
  rw [Double.isFinite, Double.magnitude_ofMagnitude hlt, decide_eq_true h]

theorem Numeral.Denotes.isFinite {n : Numeral} {s : Scalar} (h : n.Denotes s) : s.IsFinite := by
  cases h with
  | integer hf hv => trivial
  | decimal hf hd =>
    simp only [Double.ofRatio?] at hd
    split at hd
    · cases hd
    · rename_i hrange
      cases hd
      simp only [Bool.or_eq_true, decide_eq_true_eq, not_or, Nat.not_le] at hrange
      exact isFinite_ofMagnitude hrange.1

/-! ### Phrases -/

private theorem forall_mem_concat {α : Type} {p : α → Prop} {xs : List α} {x : α} (hxs : ∀ y ∈ xs, p y)
    (hx : p x) : ∀ y ∈ xs ++ [x], p y := List.forall_mem_append.2 ⟨hxs, List.forall_mem_singleton.2 hx⟩

private theorem wellFormed_members {name : ElementName} {vs : List Value} (hn : name.WellFormed rule)
    (hvs : ∀ v ∈ vs, v.IsLiteral) : ∀ c ∈ vs.map (Criteria.leaf name), c.WellFormed rule := by
  intro c hc
  obtain ⟨v, hv, rfl⟩ := List.mem_map.1 hc
  exact .leaf hn (hvs v hv)

/-- A limit is not zero, and the last result of a page has a word for its number. -/
private theorem wellFormed_page {n m : UInt64} (hn : n ≠ 0) (hm : m.toNat + n.toNat < UInt64.size) :
    ∀ k ∈ some n, 1 ≤ k.toNat ∧ m.toNat + k.toNat < UInt64.size := by
  intro k hk
  cases hk
  have hpos : n.toNat ≠ 0 := fun h => hn (UInt64.toNat_inj.1 h)
  exact ⟨by omega, hm⟩

/-- What is derived is well-formed. -/
theorem Derives.wellFormed {p : Phrase} {ts : List Token} (h : Derives rule p ts) : p.WellFormed rule := by
  induction h with
  | name ht hn => exact ⟨by simp, hn⟩
  | qualifiedName ht hs hu hn => exact ⟨hu, hn⟩
  | string ht | trueWord ht | falseWord ht | nullWord ht => trivial
  | number ht hs hn => exact hn.isFinite
  | oneLiteral _ ih | oneConjunct _ ih | oneDisjunct _ ih => exact List.forall_mem_singleton.2 ih
  | moreLiterals _ _ _ iha ihb | moreConjuncts _ _ _ iha ihb | moreDisjuncts _ _ _ iha ihb =>
    exact forall_mem_concat iha ihb
  | parentheses _ _ _ ih => exact ih
  | equality _ _ _ iha ihb => exact .leaf iha ihb
  | oneMember _ _ _ _ _ iha ihb => exact .leaf iha (ihb _ (List.mem_singleton_self _))
  | members _ _ _ _ hvs _ iha ihb => exact .composite (by simpa using hvs) (wellFormed_members iha ihb)
  | singleConjunction _ ih | singleExpression _ ih => exact ih _ (List.mem_singleton_self _)
  | conjunction _ hcs ih | expression _ hcs ih => exact .composite hcs ih
  | plainKey _ ih | ascendingKey _ _ ih | descendingKey _ _ ih => exact ih
  | oneKey _ ih => exact ⟨List.cons_ne_nil _ _, List.forall_mem_singleton.2 ih⟩
  | moreKeys _ _ _ iha ihb => exact ⟨List.concat_ne_nil _ _, forall_mem_concat iha.2 ihb⟩
  | noCollection | collection | noSemicolon | semicolon => trivial
  | noCriteria | noOrder => exact nofun
  | criteria _ _ ih => exact fun _ hc => Option.some.inj hc ▸ ih
  | order _ _ _ ih => exact fun _ hk => Option.some.inj hk ▸ ih
  | noPage => exact ⟨id, nofun⟩
  | limit _ _ hn => exact ⟨fun _ => rfl, wellFormed_page (m := 0) hn (by simpa using UInt64.toNat_lt_size _)⟩
  | offset _ _ hn _ _ hm => exact ⟨fun _ => rfl, wellFormed_page hn hm⟩
  | query _ _ _ _ _ _ _ ihb ihc ihd _ => exact ⟨ihb, ihc, ihd.1, ihd.2⟩

/-! ### Compiling -/

private theorem expressions?_ok {cs : List Criteria} (h : ∀ c ∈ cs, ∃ e, c.expression? = .ok e) :
    ∃ es, Criteria.expressions? cs = .ok es := by
  induction cs with
  | nil => exact ⟨[], rfl⟩
  | cons c cs ih =>
    obtain ⟨e, he⟩ := h c (List.mem_cons_self ..)
    obtain ⟨es, hes⟩ := ih fun d hd => h d (List.mem_cons_of_mem _ hd)
    exact ⟨e :: es, by rw [Criteria.expressions?, he, ok_bind, hes, ok_bind]; rfl⟩

theorem Criteria.WellFormed.expression?_ok {c : Criteria} (h : c.WellFormed rule) : ∃ e, c.expression? = .ok e := by
  induction h with
  | leaf hn hv => exact ⟨_, rfl⟩
  | @composite op cs hlen hcs ih =>
    cases cs with
    | nil => simp at hlen
    | cons d ds =>
      obtain ⟨e, he⟩ := ih d (List.mem_cons_self ..)
      obtain ⟨es, hes⟩ := expressions?_ok fun c hc => ih c (List.mem_cons_of_mem _ hc)
      exact ⟨.call op.function [.sequence (e :: es)], by rw [Criteria.expression?, he, ok_bind, hes, ok_bind]; rfl⟩

namespace Query

theorem WellFormed.criteriaExpression?_ok {q : Query} (h : q.WellFormed rule) :
    ∃ e, q.criteriaExpression? = .ok e := by
  cases hc : q.criteria with
  | none => exact ⟨.sequence [], by rw [criteriaExpression?, hc]⟩
  | some c =>
    obtain ⟨e, he⟩ := (h.criteria c hc).expression?_ok
    exact ⟨e, by rw [criteriaExpression?, hc]; exact he⟩

theorem WellFormed.compile_ok {q : Query} (h : q.WellFormed rule) (prefixes : Bool) :
    ∃ text, q.compile prefixes = .ok text := by
  obtain ⟨e, he⟩ := h.criteriaExpression?_ok
  exact ⟨_, compile_eq_ok.2 ⟨e, he, rfl⟩⟩

theorem wellFormed_of_parse {s : Text} {q : Query} (h : Query.parse s rule = .ok q) : q.WellFormed rule := by
  obtain ⟨body, e, -, -, hbody⟩ := parse_eq_ok_iff_isSentence.1 h
  exact hbody.wellFormed

/-- Both bounds of the page are sums that are words. -/
theorem WellFormed.le_maxWord_sub {q : Query} (h : q.WellFormed rule) {n : UInt64} (hn : q.limit = some n) :
    q.offset ≤ Decimal.maxWord - 1 ∧ q.offset ≤ Decimal.maxWord - n := by
  have hone : (1 : UInt64).toNat = 1 := by decide
  obtain ⟨hpos, hsum⟩ := h.limit n hn
  rw [Decimal.le_maxWord_sub_iff, Decimal.le_maxWord_sub_iff, hone]
  exact ⟨by omega, hsum⟩

/-- The bounds of the page are the numbers of its first and of its last result. -/
theorem WellFormed.pageBounds_eq {q : Query} (h : q.WellFormed rule) {n : UInt64} (hn : q.limit = some n) :
    ∃ lo hi, q.pageBounds = ascii "[" ++ Decimal.ofNat lo ++ ascii " to " ++ Decimal.ofNat hi ++ ascii "]" ∧
      1 ≤ lo ∧ lo ≤ hi ∧ hi < UInt64.size ∧ hi - lo + 1 = n.toNat := by
  obtain ⟨hpos, hsum⟩ := h.limit n hn
  exact ⟨q.offset.toNat + 1, q.offset.toNat + n.toNat, pageBounds_of_limit hn, by omega, by omega, by omega,
    by omega⟩

/-- Text is refused at a place inside it, or it denotes a well-formed query that compiles.  The page is given
by its first and its last result, and no sum on the way to these exceeds a word. -/
theorem parse_compiles (rule : NameRule) (s : Text) :
    match Query.parse s rule with
    | .error e => e.position ≤ s.length
    | .ok q =>
      q.WellFormed rule ∧ ∀ prefixes, ∃ text, q.compile prefixes = .ok text ∧
        ∀ n ∈ q.limit, q.offset ≤ Decimal.maxWord - 1 ∧ q.offset ≤ Decimal.maxWord - n ∧
          ∃ front lo hi,
            text = front ++ (ascii "[" ++ Decimal.ofNat lo ++ ascii " to " ++ Decimal.ofNat hi ++ ascii "]") ∧
              1 ≤ lo ∧ lo ≤ hi ∧ hi < UInt64.size ∧ hi - lo + 1 = n.toNat := by
  cases hparse : Query.parse s rule with
  | error e =>
    obtain ⟨before, t, after, st, hts, -, ht⟩ := State.run_eq_error (parse_eq_error.1 hparse)
    have hmem : t ∈ tokens s := by simp [hts]
    show e.position ≤ s.length
    rw [State.position_of_step ht]
    exact position_le_length hmem
  | ok q =>
    obtain ⟨body, e, -, -, hbody⟩ := parse_eq_ok_iff_isSentence.1 hparse
    have hq : q.WellFormed rule := hbody.wellFormed
    refine ⟨hq, fun prefixes => ?_⟩
    obtain ⟨c, hc⟩ := hq.criteriaExpression?_ok
    refine ⟨_, compile_eq_ok.2 ⟨c, hc, rfl⟩, fun n hn => ?_⟩
    obtain ⟨lo, hi, hbounds, hpage⟩ := hq.pageBounds_eq hn
    obtain ⟨hone, hsum⟩ := hq.le_maxWord_sub hn
    exact ⟨hone, hsum, _, lo, hi, by rw [hbounds], hpage⟩

theorem parse_compiles_page :
    Query.parse (ascii "SEARCH LIMIT 10 OFFSET 5") = .ok { skip := some 5, limit := some 10 } ∧
      ∃ text front lo hi, Query.compile true { skip := some 5, limit := some 10 } = .ok text ∧
        text = front ++ (ascii "[" ++ Decimal.ofNat lo ++ ascii " to " ++ Decimal.ofNat hi ++ ascii "]") ∧
          1 ≤ lo ∧ lo ≤ hi ∧ hi < UInt64.size ∧ hi - lo + 1 = 10 := by
  have hparse : Query.parse (ascii "SEARCH LIMIT 10 OFFSET 5") = .ok { skip := some 5, limit := some 10 } := by
    decide +kernel
  have h := parse_compiles .ascii (ascii "SEARCH LIMIT 10 OFFSET 5")
  rw [hparse] at h
  obtain ⟨text, htext, hpage⟩ := h.2 true
  obtain ⟨-, -, front, lo, hi, hbounds⟩ := hpage 10 rfl
  exact ⟨hparse, text, front, lo, hi, htext, hbounds⟩

end Query

end DocSearch
