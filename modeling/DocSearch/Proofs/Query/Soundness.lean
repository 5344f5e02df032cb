import DocSearch.Proofs.Decimal
import DocSearch.Proofs.Query.Grammar
import DocSearch.Proofs.Query.Run
import DocSearch.Proofs.Token.Spelling

/-!
# What is read is derived by the grammar

A reading state says what has been derived so far: `State.Holds st ts` splits the tokens `ts` that led to the
state `st` into whole phrases and the tokens between them, clause by clause, and within the criteria level by
level.  Each step keeps this (`State.Holds.step`), hence each run does, and a state that is done holds a whole
sentence (`isSentence_of_run`).
-/

namespace DocSearch

open State (run)

variable {rule : NameRule}

/-! ### Clauses -/

/-- The phrase of the clause with the given number, in the order of the grammar. -/
def Query.clause (q : Query) : Nat → Phrase
  | 0 => .collectionClause q.collection
  | 1 => .criteriaClause q.criteria
  | 2 => .orderClause q.sort
  | 3 => .pageClause q.skip q.limit
  | _ => .ending

/-- The tokens are `SEARCH` and the first `k` clauses of the query. -/
def HasClauses (rule : NameRule) (q : Query) : Nat → List Token → Prop
  | 0, ts => ∃ t, ts = [t] ∧ t.kind = .keyword .search
  | k + 1, ts => ∃ a b, ts = a ++ b ∧ HasClauses rule q k a ∧ Derives rule (q.clause k) b

/-- The clauses of the query from the given number on are absent. -/
def Query.EndsAt (q : Query) (k : Nat) : Prop := ∀ i, k ≤ i → q.clause i = Query.clause {} i

theorem Query.EndsAt.mono {q : Query} {k m : Nat} (h : q.EndsAt k) (hkm : k ≤ m) : q.EndsAt m :=
  fun i hi => h i (Nat.le_trans hkm hi)

theorem Query.endsAt_four (q : Query) : q.EndsAt 4 := by
  intro i hi
  obtain ⟨j, rfl⟩ := Nat.exists_eq_add_of_le' hi
  rfl

/-! What a clause says changes no other clause. -/

private theorem clause_collection (q : Query) (collection : Option Text) {i : Nat} (hi : i ≠ 0) :
    Query.clause { q with collection } i = q.clause i := by
  rcases i with _ | _ | _ | _ | i
  · exact absurd rfl hi
  all_goals rfl

private theorem clause_criteria (q : Query) (criteria : Option Criteria) {i : Nat} (hi : i ≠ 1) :
    Query.clause { q with criteria } i = q.clause i := by
  rcases i with _ | _ | _ | _ | i
  · rfl
  · exact absurd rfl hi
  all_goals rfl

private theorem clause_sort (q : Query) (sort : Option (List SortKey)) {i : Nat} (hi : i ≠ 2) :
    Query.clause { q with sort } i = q.clause i := by
  rcases i with _ | _ | _ | _ | i
  · rfl
  · rfl
  · exact absurd rfl hi
  all_goals rfl

private theorem clause_page (q : Query) (skip limit : Option UInt64) {i : Nat} (hi : i ≠ 3) :
    Query.clause { q with skip, limit } i = q.clause i := by
  rcases i with _ | _ | _ | _ | i
  · rfl
  · rfl
  · rfl
  · exact absurd rfl hi
  all_goals rfl

private theorem derives_absent {q : Query} {k : Nat} (h : q.EndsAt k) : Derives rule (q.clause k) [] := by
  rw [h k (Nat.le_refl k)]
  rcases k with _ | _ | _ | _ | k
  · exact .noCollection
  · exact .noCriteria
  · exact .noOrder
  · exact .noPage
  · exact .noSemicolon

/-- Absent clauses take no tokens. -/
private theorem HasClauses.skip {q : Query} {k : Nat} {ts : List Token} (h : HasClauses rule q k ts)
    (hq : q.EndsAt k) {m : Nat} (hkm : k ≤ m) : HasClauses rule q m ts := by
  induction m with
  | zero =>
    rwa [Nat.le_zero.1 hkm] at h
  | succ m ih =>
    rcases Nat.lt_or_eq_of_le hkm with hlt | rfl
    · exact ⟨ts, [], by simp, ih (by omega), derives_absent (hq.mono (by omega))⟩
    · exact h

private theorem HasClauses.derives {q : Query} {ts : List Token} (h : HasClauses rule q 5 ts) :
    Derives rule (.query q) ts := by
  obtain ⟨_, e, rfl, ⟨_, d, rfl, ⟨_, c, rfl, ⟨_, b, rfl, ⟨_, a, rfl, ⟨t, rfl, ht⟩, ha⟩, hb⟩, hc⟩, hd⟩, he⟩ := h
  have hq := Derives.query ht ha hb hc hd he
  simpa using hq

/-- How many clauses of the grammar are over after the given one. -/
def Clause.number : Clause → Nat
  | search => 0
  | collection => 1
  | criteria => 2
  | order => 3
  | limit | offset => 4
  | semicolon => 5

/-- The tokens of a query up to the end of the clause `last`. -/
structure HoldsClauses (rule : NameRule) (last : Clause) (q : Query) (ts : List Token) : Prop where
  clauses : HasClauses rule q last.number ts
  ends : q.EndsAt last.number
  /-- Behind `LIMIT` there may still be an `OFFSET`. -/
  page : last = .limit → q.skip = none ∧ ∃ n, q.limit = some n

/-! ### Criteria -/

/-- Items that have been read, the separator after the last of them included; there may be none. -/
def Separated {α : Type} (rule : NameRule) (phrase : List α → Phrase) (kind : Kind) (items : List α)
    (ts : List Token) : Prop :=
  (items = [] ∧ ts = []) ∨ ∃ a t, ts = a ++ [t] ∧ Derives rule (phrase items) a ∧ t.kind = kind

/-- The tokens of a level in front of its next operand. -/
def BeforeOperand (rule : NameRule) (l : Level) (ts : List Token) : Prop :=
  ∃ a b, ts = a ++ b ∧ Separated rule .disjuncts (.keyword .or) l.chains a ∧
    Separated rule .conjuncts (.keyword .and) l.operands b

/-- The tokens of a level behind an operand. -/
def AfterOperand (rule : NameRule) (l : Level) (ts : List Token) : Prop :=
  ∃ a b, ts = a ++ b ∧ Separated rule .disjuncts (.keyword .or) l.chains a ∧
    Derives rule (.conjuncts l.operands) b

/-- The tokens of the levels around the inner one, up to the parenthesis that opens it. -/
inductive AroundLevel (rule : NameRule) : List Level → List Token → Prop
  | nil : AroundLevel rule [] []
  | cons {l : Level} {ls : List Level} {a b : List Token} {t : Token} (ha : AroundLevel rule ls a)
      (hb : BeforeOperand rule l b) (ht : t.kind = .openParen) : AroundLevel rule (l :: ls) (a ++ b ++ [t])

/-- The tokens of an operand up to a place inside it. -/
def InOperand (rule : NameRule) : CriteriaPlace → List Token → Prop
  | .operand, ts => ts = []
  | .comparator name, ts => Derives rule (.field name) ts
  | .value name, ts => ∃ a t, ts = a ++ [t] ∧ Derives rule (.field name) a ∧ t.kind = .equal
  | .listStart name, ts => ∃ a t, ts = a ++ [t] ∧ Derives rule (.field name) a ∧ t.kind = .keyword .in_
  | .listValue name vs, ts =>
    ∃ a t u b, ts = a ++ t :: u :: b ∧ Derives rule (.field name) a ∧ t.kind = .keyword .in_ ∧
      u.kind = .openParen ∧ Separated rule .literals .comma vs b
  | .listNext name vs, ts =>
    ∃ a t u b, ts = a ++ t :: u :: b ∧ Derives rule (.field name) a ∧ t.kind = .keyword .in_ ∧
      u.kind = .openParen ∧ Derives rule (.literals vs) b
  | .joint, _ => False

/-- The tokens of an expression up to a place in the given nesting. -/
def InCriteria (rule : NameRule) (n : Nesting) (ts : List Token) : CriteriaPlace → Prop
  | .joint => ∃ a b, ts = a ++ b ∧ AroundLevel rule n.outer a ∧ AfterOperand rule n.inner b
  | place =>
    ∃ a b c, ts = a ++ b ++ c ∧ AroundLevel rule n.outer a ∧ BeforeOperand rule n.inner b ∧
      InOperand rule place c

/-- The tokens of sort keys up to a place. -/
def InSort (rule : NameRule) (keys : List SortKey) (ts : List Token) : SortPlace → Prop
  | .field => Separated rule .sortKeys .comma keys ts
  | .direction name =>
    ∃ a b, ts = a ++ b ∧ Separated rule .sortKeys .comma keys a ∧ Derives rule (.field name) b
  | .next => Derives rule (.sortKeys keys) ts

/-! ### States -/

/-- What the tokens that led to a state consist of. -/
def State.Holds (rule : NameRule) (ts : List Token) : State → Prop
  | .start => ts = []
  | .clauses last q => HoldsClauses rule last q ts
  | .collection q =>
    ∃ a t, ts = a ++ [t] ∧ HasClauses rule q 0 a ∧ q.EndsAt 0 ∧ t.kind = .keyword .in_
  | .criteria q n place =>
    ∃ a t b, ts = a ++ t :: b ∧ HasClauses rule q 1 a ∧ q.EndsAt 1 ∧ t.kind = .keyword .where_ ∧
      InCriteria rule n b place
  | .by_ q => ∃ a t, ts = a ++ [t] ∧ HasClauses rule q 2 a ∧ q.EndsAt 2 ∧ t.kind = .keyword .order
  | .sort q keys place =>
    ∃ a t u b, ts = a ++ t :: u :: b ∧ HasClauses rule q 2 a ∧ q.EndsAt 2 ∧ t.kind = .keyword .order ∧
      u.kind = .keyword .by_ ∧ InSort rule keys b place
  | .limit q => ∃ a t, ts = a ++ [t] ∧ HasClauses rule q 3 a ∧ q.EndsAt 3 ∧ t.kind = .keyword .limit
  | .offset q =>
    ∃ a t, ts = a ++ [t] ∧ HasClauses rule q 4 a ∧ (q.skip = none ∧ ∃ n, q.limit = some n) ∧
      t.kind = .keyword .offset
  | .done q => IsSentence rule q ts

/-! ### Single tokens -/

/-- A token of some text: it is spelled there, or it is the end. -/
def Token.IsRead (t : Token) : Prop := t.kind = .endOfText ∨ ∃ x, t.toLexeme.Spelled x

private theorem checked_eq_ok {t : Token} {name name' : ElementName} (h : t.checked rule name = .ok name') :
    name' = name ∧ rule.admits name.localName = true := by
  unfold Token.checked at h
  split at h
  · cases h
    exact ⟨rfl, ‹_›⟩
  · cases h

private theorem derives_of_field {t : Token} {name : ElementName} (ht : t.IsRead)
    (h : t.field rule = .ok name) : Derives rule (.field name) [t] := by
  unfold Token.field at h
  split at h
  · rename_i hk
    obtain ⟨rfl, hn⟩ := checked_eq_ok h
    exact .name hk hn
  · rename_i hk
    rcases ht with he | ⟨x, hx⟩
    · rw [hk] at he
      cases he
    · obtain ⟨uri, localName, htext, hu⟩ := hx.qualifiedName_text hk
      have hcut : Text.cut '}'.toUInt8 (t.text.drop 1) = some (uri, localName) := by
        rw [htext]
        exact Text.cut_eq_some.2 ⟨rfl, hu⟩
      rw [hcut] at h
      obtain ⟨rfl, hn⟩ := checked_eq_ok h
      exact .qualifiedName hk htext hu hn
  · cases h

private theorem derives_of_literal {t : Token} {v : Value} (ht : t.IsRead) (h : t.literal = .ok v) :
    Derives rule (.literal v) [t] := by
  unfold Token.literal at h
  split at h
  · cases h
    exact .string ‹_›
  · rename_i hk
    rcases ht with he | ⟨x, hx⟩
    · rw [hk] at he
      cases he
    · obtain ⟨n, hn⟩ := hx.number_text hk
      rw [hn] at h
      split at h
      · cases h
        exact .number hk hn (Numeral.ofNumeral?_text.1 ‹_›)
      · cases h
  · cases h
    exact .trueWord ‹_›
  · cases h
    exact .falseWord ‹_›
  · cases h
    exact .nullWord ‹_›
  · cases h

private theorem counts_of_count {t : Token} {clause : CountClause} {n : UInt64} (ht : t.IsRead)
    (h : t.count clause = .ok n) : t.Counts n := by
  unfold Token.count at h
  split at h
  · rename_i hk
    split at h
    · rename_i hw
      cases h
      refine ⟨hk.1, ⟨?_, List.all_eq_true.1 hk.2⟩, Decimal.word?_eq_some.1 hw⟩
      rcases ht with he | ⟨x, hx⟩
      · rw [hk.1] at he
        cases he
      · obtain ⟨m, hm⟩ := hx.number_text hk.1
        obtain ⟨b, s, hu, -⟩ := m.unsigned_eq_cons
        simp [hm, Numeral.text, hu]
    · cases h
  · cases h

/-! ### Criteria, token by token -/

/-- A further item behind items and their separators. -/
private theorem Separated.add {α : Type} {phrase : List α → Phrase} {kind : Kind} {items : List α} {x : α}
    {a b : List Token} (h : Separated rule phrase kind items a) (one : Derives rule (phrase [x]) b)
    (more : ∀ c t, Derives rule (phrase items) c → t.kind = kind →
      Derives rule (phrase (items ++ [x])) (c ++ t :: b)) : Derives rule (phrase (items ++ [x])) (a ++ b) := by
  rcases h with ⟨rfl, rfl⟩ | ⟨c, t, rfl, hc, ht⟩
  · exact one
  · rw [List.append_assoc, List.singleton_append]
    exact more c t hc ht

private theorem separated_nil {α : Type} (phrase : List α → Phrase) (kind : Kind) :
    Separated rule phrase kind [] [] := Or.inl ⟨rfl, rfl⟩

private theorem separated_append {α : Type} {phrase : List α → Phrase} {kind : Kind} {items : List α}
    {a : List Token} {t : Token} (ha : Derives rule (phrase items) a) (ht : t.kind = kind) :
    Separated rule phrase kind items (a ++ [t]) := Or.inr ⟨a, t, rfl, ha, ht⟩

private theorem Separated.addLiteral {vs : List Value} {v : Value} {a b : List Token}
    (h : Separated rule .literals .comma vs a) (hb : Derives rule (.literal v) b) :
    Derives rule (.literals (vs ++ [v])) (a ++ b) :=
  h.add (.oneLiteral hb) fun _ _ hc ht => .moreLiterals hc ht hb

private theorem Separated.addKey {keys : List SortKey} {key : SortKey} {a b : List Token}
    (h : Separated rule .sortKeys .comma keys a) (hb : Derives rule (.sortKey key) b) :
    Derives rule (.sortKeys (keys ++ [key])) (a ++ b) :=
  h.add (.oneKey hb) fun _ _ hc ht => .moreKeys hc ht hb

/-- A further operand completes what stands in front of it. -/
private theorem BeforeOperand.add {l : Level} {c : Criteria} {a b : List Token} (h : BeforeOperand rule l a)
    (hb : Derives rule (.comparison c) b) : AfterOperand rule (l.push c) (a ++ b) := by
  obtain ⟨x, y, rfl, hx, hy⟩ := h
  exact ⟨x, y ++ b, by simp, hx, hy.add (.oneConjunct hb) fun _ _ hc ht => .moreConjuncts hc ht hb⟩

private theorem derives_joined {op : Connective} {cs : List Criteria} {phrase : Criteria → Phrase}
    {a : List Token} (hne : cs ≠ []) (single : ∀ c, cs = [c] → Derives rule (phrase c) a)
    (several : 2 ≤ cs.length → Derives rule (phrase (.composite op cs)) a) :
    Derives rule (phrase (Criteria.joined op cs)) a := by
  rcases cs with _ | ⟨c, _ | ⟨d, cs⟩⟩
  · exact absurd rfl hne
  · exact single c rfl
  · exact several (by simp)

private theorem derives_conjunction {cs : List Criteria} {a : List Token} (h : Derives rule (.conjuncts cs) a) :
    Derives rule (.conjunction (Criteria.joined .and cs)) a :=
  derives_joined h.conjuncts_ne_nil (fun _ hc => .singleConjunction (hc ▸ h)) fun hcs => .conjunction h hcs

private theorem derives_membership {name : ElementName} {vs : List Value} {a b : List Token} {t u w : Token}
    (ha : Derives rule (.field name) a) (ht : t.kind = .keyword .in_) (hu : u.kind = .openParen)
    (hb : Derives rule (.literals vs) b) (hw : w.kind = .closeParen) :
    Derives rule (.comparison (membership name vs)) (a ++ t :: u :: b ++ [w]) := by
  have hne := hb.literals_ne_nil
  rcases vs with _ | ⟨v, _ | ⟨v', vs⟩⟩
  · exact absurd rfl hne
  · exact .oneMember ha ht hu hb hw
  · exact .members ha ht hu hb (by simp) hw

namespace AfterOperand

variable {l : Level} {a : List Token}

private theorem disjuncts (h : AfterOperand rule l a) : Derives rule (.disjuncts l.endChain.chains) a := by
  obtain ⟨x, y, rfl, hx, hy⟩ := h
  have hc := derives_conjunction hy
  exact hx.add (.oneDisjunct hc) fun _ _ hd ht => .moreDisjuncts hd ht hc

private theorem expression (h : AfterOperand rule l a) : Derives rule (.expression l.criteria) a := by
  have hd := h.disjuncts
  exact derives_joined hd.disjuncts_ne_nil (fun _ hc => .singleExpression (hc ▸ hd)) fun hcs => .expression hd hcs

private theorem and (h : AfterOperand rule l a) {t : Token} (ht : t.kind = .keyword .and) :
    BeforeOperand rule l (a ++ [t]) := by
  obtain ⟨x, y, rfl, hx, hy⟩ := h
  exact ⟨x, y ++ [t], by simp, hx, separated_append hy ht⟩

private theorem or (h : AfterOperand rule l a) {t : Token} (ht : t.kind = .keyword .or) :
    BeforeOperand rule l.endChain (a ++ [t]) :=
  ⟨a ++ [t], [], by simp, separated_append h.disjuncts ht, separated_nil _ _⟩

end AfterOperand

/-- A token inside the criteria leads to a place inside them. -/
private theorem InCriteria.step {n n' : Nesting} {place place' : CriteriaPlace} {ts : List Token} {t : Token}
    (h : InCriteria rule n ts place) (ht : t.IsRead) (hs : CriteriaStep rule t n place n' place') :
    InCriteria rule n' (ts ++ [t]) place' := by
  cases hs with
  -- in front of an operand
  | enter hk =>
    obtain ⟨a, b, c, rfl, ha, hb, rfl⟩ := h
    exact ⟨a ++ b ++ [t], [], [], by simp, .cons ha hb hk, ⟨[], [], rfl, separated_nil _ _, separated_nil _ _⟩, rfl⟩
  | field hname =>
    obtain ⟨a, b, c, rfl, ha, hb, rfl⟩ := h
    exact ⟨a, b, [t], by simp, ha, hb, derives_of_field ht hname⟩
  -- inside a comparison
  | equal hk | in_ hk =>
    obtain ⟨a, b, c, rfl, ha, hb, hc⟩ := h
    exact ⟨a, b, c ++ [t], by simp, ha, hb, c, t, rfl, hc, hk⟩
  | value hv =>
    obtain ⟨a, b, c, rfl, ha, hb, d, u, rfl, hd, hu⟩ := h
    have hc := hb.add (.equality hd hu (derives_of_literal ht hv))
    exact ⟨a, _, by simp, ha, hc⟩
  | listOpen hk =>
    obtain ⟨a, b, c, rfl, ha, hb, d, u, rfl, hd, hu⟩ := h
    exact ⟨a, b, d ++ [u, t], by simp, ha, hb, d, u, t, [], rfl, hd, hu, hk, separated_nil _ _⟩
  | listValue hv =>
    obtain ⟨a, b, c, rfl, ha, hb, d, u, w, e, rfl, hd, hu, hw, he⟩ := h
    exact ⟨a, b, d ++ u :: w :: (e ++ [t]), by simp, ha, hb, d, u, w, _, rfl, hd, hu, hw,
      he.addLiteral (derives_of_literal ht hv)⟩
  | listComma hk =>
    obtain ⟨a, b, c, rfl, ha, hb, d, u, w, e, rfl, hd, hu, hw, he⟩ := h
    exact ⟨a, b, d ++ u :: w :: (e ++ [t]), by simp, ha, hb, d, u, w, _, rfl, hd, hu, hw, separated_append he hk⟩
  | listClose hk =>
    obtain ⟨a, b, c, rfl, ha, hb, d, u, w, e, rfl, hd, hu, hw, he⟩ := h
    have hc := hb.add (derives_membership hd hu hw he hk)
    exact ⟨a, _, by simp, ha, hc⟩
  -- behind an operand
  | and hk =>
    obtain ⟨a, b, rfl, ha, hb⟩ := h
    exact ⟨a, b ++ [t], [], by simp, ha, hb.and hk, rfl⟩
  | or hk =>
    obtain ⟨a, b, rfl, ha, hb⟩ := h
    exact ⟨a, b ++ [t], [], by simp, ha, hb.or hk, rfl⟩
  | leave hk hn =>
    obtain ⟨a, b, rfl, ha, hb⟩ := h
    obtain ⟨inner, outer⟩ := n
    cases ha with
    | nil => cases hn
    | @cons l ls a' b' u ha' hb' hu =>
      cases hn
      have hc := hb'.add (.parentheses hu hb.expression hk)
      exact ⟨a', _, by simp, ha', hc⟩

/-! ### Sort keys, token by token -/

/-- A token inside the sort keys leads to a place inside them. -/
private theorem InSort.step {keys keys' : List SortKey} {place place' : SortPlace} {ts : List Token} {t : Token}
    (h : InSort rule keys ts place) (ht : t.IsRead) (hs : SortStep rule t keys place keys' place') :
    InSort rule keys' (ts ++ [t]) place' := by
  cases hs with
  | field hname => exact ⟨ts, [t], rfl, h, derives_of_field ht hname⟩
  | descending hk =>
    obtain ⟨a, b, rfl, ha, hb⟩ := h
    rw [List.append_assoc]
    exact ha.addKey (.descendingKey hb hk)
  | ascending hk =>
    obtain ⟨a, b, rfl, ha, hb⟩ := h
    rw [List.append_assoc]
    exact ha.addKey (.ascendingKey hb hk)
  | plain hk =>
    obtain ⟨a, b, rfl, ha, hb⟩ := h
    exact separated_append (ha.addKey (.plainKey hb)) hk
  | comma hk => exact separated_append h hk

/-! ### Clauses, token by token -/

/-- The clauses that are read depend on what the query says of them only. -/
private theorem HasClauses.congr {q q' : Query} {k : Nat} {ts : List Token} (h : HasClauses rule q k ts)
    (hq : ∀ i < k, q'.clause i = q.clause i) : HasClauses rule q' k ts := by
  induction k generalizing ts with
  | zero => exact h
  | succ k ih =>
    obtain ⟨a, b, rfl, ha, hb⟩ := h
    exact ⟨a, b, rfl, ih ha fun i hi => hq i (by omega), hq k (by omega) ▸ hb⟩

/-- A query that says one more clause. -/
private theorem HasClauses.add {q q' : Query} {k : Nat} {a b : List Token} (h : HasClauses rule q k a)
    (he : q.EndsAt k) (hq : ∀ i, i ≠ k → q'.clause i = q.clause i) (hb : Derives rule (q'.clause k) b) :
    HasClauses rule q' (k + 1) (a ++ b) ∧ q'.EndsAt (k + 1) := by
  refine ⟨⟨a, b, rfl, h.congr fun i hi => hq i (Nat.ne_of_lt hi), hb⟩, fun i hi => ?_⟩
  rw [hq i (Nat.ne_of_gt hi)]
  exact he i (Nat.le_of_lt hi)

private theorem holdsClauses_of_ne_limit {last : Clause} {q : Query} {ts : List Token} (hlast : last ≠ .limit)
    (h : HasClauses rule q last.number ts ∧ q.EndsAt last.number) : HoldsClauses rule last q ts :=
  ⟨h.1, h.2, fun hl => absurd hl hlast⟩

/-- Where a clause may end, the tokens are those of whole clauses. -/
private theorem State.Holds.boundary {st : State} {ts : List Token} {last : Clause} {q : Query}
    (h : st.Holds rule ts) (hb : st.boundary? = some (last, q)) : HoldsClauses rule last q ts := by
  rcases State.boundary?_eq_some hb with
    rfl | ⟨q', l, rfl, rfl, rfl⟩ | ⟨q', keys, name, rfl, rfl, rfl⟩ | ⟨q', keys, rfl, rfl, rfl⟩
  · exact h
  · obtain ⟨a, t, _, rfl, ha, he, ht, _, b, rfl, ⟨⟩, hb⟩ := h
    have hclauses := ha.add he (fun _ hi => clause_criteria q' (some l.criteria) hi) (.criteria ht hb.expression)
    exact holdsClauses_of_ne_limit (by decide) hclauses
  · obtain ⟨a, t, u, _, rfl, ha, he, ht, hu, b, c, rfl, hb, hc⟩ := h
    have hkeys := hb.addKey (.plainKey hc)
    have hclauses := ha.add he (fun _ hi => clause_sort q' (some _) hi) (.order ht hu hkeys)
    exact holdsClauses_of_ne_limit (by decide) hclauses
  · obtain ⟨a, t, u, b, rfl, ha, he, ht, hu, hb⟩ := h
    have hclauses := ha.add he (fun _ hi => clause_sort q' (some keys) hi) (.order ht hu hb)
    exact holdsClauses_of_ne_limit (by decide) hclauses

private theorem Clause.number_le {last next : Clause} (h : last.precedes next = true) (hnext : next ≠ .offset) :
    last.number ≤ next.number - 1 := by
  revert h hnext
  cases last <;> cases next <;> decide

/-- In front of a further clause the clauses up to it have been read, absent ones included. -/
private theorem HoldsClauses.upTo {last next : Clause} {q : Query} {ts : List Token}
    (h : HoldsClauses rule last q ts) (hp : last.precedes next = true) (hnext : next ≠ .offset) :
    HasClauses rule q (next.number - 1) ts ∧ q.EndsAt (next.number - 1) := by
  have hle := Clause.number_le hp hnext
  exact ⟨h.clauses.skip h.ends hle, h.ends.mono hle⟩

/-- The token behind a whole clause. -/
private theorem HoldsClauses.next {last : Clause} {q : Query} {ts : List Token} {t : Token} {st : State}
    (h : HoldsClauses rule last q ts) (hs : State.Follows t last q st) : st.Holds rule (ts ++ [t]) := by
  cases hs with
  | collection hk hp | order hk hp | limit hk hp =>
    obtain ⟨hclauses, hends⟩ := h.upTo hp (by decide)
    exact ⟨ts, t, rfl, hclauses, hends, hk⟩
  | criteria hk hp =>
    obtain ⟨hclauses, hends⟩ := h.upTo hp (by decide)
    exact ⟨ts, t, [], rfl, hclauses, hends, hk, [], [], [], rfl, .nil,
      ⟨[], [], rfl, separated_nil _ _, separated_nil _ _⟩, rfl⟩
  | offset hk hl =>
    subst hl
    exact ⟨ts, t, rfl, h.clauses, h.page rfl, hk⟩
  | semicolon hk hp =>
    obtain ⟨hclauses, hends⟩ := h.upTo hp (by decide)
    exact holdsClauses_of_ne_limit (by decide) ⟨⟨ts, [t], rfl, hclauses, .semicolon hk⟩, hends.mono (by decide)⟩
  | endOfText hk =>
    have hle : last.number ≤ 5 := by cases last <;> decide
    exact ⟨ts, t, rfl, hk, (h.clauses.skip h.ends hle).derives⟩

/-! ### Runs -/

/-- A step keeps what a state holds. -/
theorem State.Holds.step {st st' : State} {ts : List Token} {t : Token} (h : st.Holds rule ts) (ht : t.IsRead)
    (hs : State.step rule st t = .ok st') : st'.Holds rule (ts ++ [t]) := by
  cases State.step_eq_ok.1 hs with
  | search hk =>
    subst h
    exact holdsClauses_of_ne_limit (by decide) ⟨⟨t, rfl, hk⟩, fun _ _ => rfl⟩
  | @collection q hk =>
    obtain ⟨a, u, rfl, ha, he, hu⟩ := h
    have hclauses := ha.add he (fun _ hi => clause_collection q (some t.text) hi) (.collection hu hk)
    rw [List.append_assoc]
    exact holdsClauses_of_ne_limit (by decide) hclauses
  | criteria hstep =>
    obtain ⟨a, u, b, rfl, ha, he, hu, hb⟩ := h
    exact ⟨a, u, b ++ [t], by simp, ha, he, hu, hb.step ht hstep⟩
  | by_ hk =>
    obtain ⟨a, u, rfl, ha, he, hu⟩ := h
    exact ⟨a, u, t, [], by simp, ha, he, hu, hk, separated_nil _ _⟩
  | sort hstep =>
    obtain ⟨a, u, w, b, rfl, ha, he, hu, hw, hb⟩ := h
    exact ⟨a, u, w, b ++ [t], by simp, ha, he, hu, hw, hb.step ht hstep⟩
  | @limit q n hcount hn =>
    obtain ⟨a, u, rfl, ha, he, hu⟩ := h
    have hskip : q.skip = none := (Phrase.pageClause.inj (he 3 (Nat.le_refl 3))).1
    have hd : Derives rule (.pageClause q.skip (some n)) [u, t] := by
      rw [hskip]
      exact .limit hu (counts_of_count ht hcount) hn
    obtain ⟨hclauses, hends⟩ := ha.add he (fun _ hi => clause_page q q.skip (some n) hi) hd
    rw [List.append_assoc]
    exact ⟨hclauses, hends, fun _ => ⟨hskip, n, rfl⟩⟩
  | @offset q m hcount hle =>
    obtain ⟨a, u, rfl, ⟨b, c, rfl, hb, hc⟩, ⟨hskip, n, hn⟩, hu⟩ := h
    rw [hn] at hle
    have hsum : m.toNat + n.toNat < UInt64.size := Decimal.le_maxWord_sub_iff.1 hle
    have hc' : Derives rule (.pageClause none (some n)) c := by
      rw [← hskip, ← hn]
      exact hc
    cases hc' with
    | @limit v w _ hv hw hn0 =>
      have hd : Derives rule (.pageClause (some m) q.limit) [v, w, u, t] := by
        rw [hn]
        exact .offset hv hw hn0 hu (counts_of_count ht hcount) hsum
      have hclauses := hb.congr fun i hi => clause_page q (some m) q.limit (Nat.ne_of_lt hi)
      exact holdsClauses_of_ne_limit (by decide) ⟨⟨b, [v, w, u, t], by simp, hclauses, hd⟩, Query.endsAt_four _⟩
  | boundary hb hf => exact (h.boundary hb).next hf

/-- A run keeps what a state holds. -/
theorem State.Holds.run {st st' : State} {ts us : List Token} (h : st.Holds rule ts) (hus : ∀ t ∈ us, t.IsRead)
    (hrun : State.run rule st us = .ok st') : st'.Holds rule (ts ++ us) := by
  induction us generalizing st ts with
  | nil =>
    cases hrun
    simpa using h
  | cons t us ih =>
    obtain ⟨st₁, hstep, hrun⟩ := State.run_cons_eq_ok.1 hrun
    have hst₁ := h.step (hus t (by simp)) hstep
    simpa using ih hst₁ (fun u hu => hus u (by simp [hu])) hrun

/-- Tokens that are read to a query are those of a sentence with that query. -/
theorem isSentence_of_run {ts : List Token} {q : Query} (hts : ∀ t ∈ ts, t.IsRead)
    (h : State.run rule .start ts = .ok (.done q)) : IsSentence rule q ts := by
  have hstart : State.start.Holds rule [] := rfl
  exact hstart.run hts h

end DocSearch
