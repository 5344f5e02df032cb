import DocSearch.Proofs.Decimal
import DocSearch.Proofs.Query.Grammar
import DocSearch.Proofs.Query.Run

/-!
# What the grammar derives is read

Reading a phrase of the grammar takes every state in which the phrase may begin to the state that holds its
meaning (`Phrase.Reads`), by induction on the derivation.  The key fact: the tokens of a sentence are read to
its query (`IsSentence.run_eq`).  As a run has one result, no token list has two meanings
(`IsSentence.unique`).
-/

namespace DocSearch

open State (run Step Follows)

variable {rule : NameRule}

/-! ### Clauses -/

/-- From every state where a clause below the rank `low` may end with the query `q`, the tokens lead to one
where a clause below the rank `high` may end with the query `q'`. -/
def ReadsClause (rule : NameRule) (low high : Nat) (q q' : Query) (ts : List Token) : Prop :=
  ∀ st last, st.boundary? = some (last, q) → last.rank < low →
    ∃ st' last', run rule st ts = .ok st' ∧ st'.boundary? = some (last', q') ∧ last'.rank < high

private theorem ReadsClause.absent {low high : Nat} (h : low ≤ high) (q : Query) :
    ReadsClause rule low high q q [] :=
  fun st last hst hlast => ⟨st, last, rfl, hst, Nat.lt_of_lt_of_le hlast h⟩

private theorem ReadsClause.append {low mid high : Nat} {q q' q'' : Query} {ts us : List Token}
    (h : ReadsClause rule low mid q q' ts) (h' : ReadsClause rule mid high q' q'' us) :
    ReadsClause rule low high q q'' (ts ++ us) := by
  intro st last hst hlast
  obtain ⟨st₁, last₁, hrun, hst₁, hlast₁⟩ := h st last hst hlast
  obtain ⟨st₂, last₂, hrun', hst₂, hlast₂⟩ := h' st₁ last₁ hst₁ hlast₁
  exact ⟨st₂, last₂, by rw [State.run_append_of_ok hrun, hrun'], hst₂, hlast₂⟩

/-- A clause that is opened by its keyword is read from the state behind the keyword. -/
private theorem ReadsClause.opened {low high : Nat} {q q' : Query} {t : Token} {ts : List Token} (st : State)
    (hopen : ∀ last : Clause, last.rank < low → Follows t last q st)
    (h : ∃ st' last', run rule st ts = .ok st' ∧ st'.boundary? = some (last', q') ∧ last'.rank < high) :
    ReadsClause rule low high q q' (t :: ts) := by
  intro st₀ last hst hlast
  have hstep : Step rule t st₀ st := .boundary hst (hopen last hlast)
  rwa [hstep.run_cons]

/-! ### Phrases -/

/-- The sort keys have been read, and a further one or a new clause may follow. -/
def EndsKeys (st : State) (q : Query) (keys : List SortKey) : Prop :=
  st = .sort q keys .next ∨ ∃ keys' name, keys = keys' ++ [⟨name, false⟩] ∧ st = .sort q keys' (.direction name)

/-- What reading the tokens of a phrase does to the states in which the phrase may begin. -/
def Phrase.Reads (rule : NameRule) (ts : List Token) : Phrase → Prop
  | .field name => ∃ t, ts = [t] ∧ t.field rule = .ok name
  | .literal v => ∃ t, ts = [t] ∧ t.literal = .ok v
  | .literals vs =>
    ∀ q n name, run rule (.criteria q n (.listValue name [])) ts = .ok (.criteria q n (.listNext name vs))
  | .comparison c =>
    ∀ q l ls, run rule (.criteria q ⟨l, ls⟩ .operand) ts = .ok (.criteria q ⟨l.push c, ls⟩ .joint)
  | .conjuncts cs =>
    ∀ q chains ls,
      run rule (.criteria q ⟨⟨chains, []⟩, ls⟩ .operand) ts = .ok (.criteria q ⟨⟨chains, cs⟩, ls⟩ .joint)
  | .conjunction c =>
    ∃ cs, Criteria.joined .and cs = c ∧ ∀ q chains ls,
      run rule (.criteria q ⟨⟨chains, []⟩, ls⟩ .operand) ts = .ok (.criteria q ⟨⟨chains, cs⟩, ls⟩ .joint)
  | .disjuncts cs =>
    ∃ l : Level, l.endChain.chains = cs ∧ ∀ q ls,
      run rule (.criteria q ⟨{}, ls⟩ .operand) ts = .ok (.criteria q ⟨l, ls⟩ .joint)
  | .expression c =>
    ∃ l : Level, l.criteria = c ∧ ∀ q ls,
      run rule (.criteria q ⟨{}, ls⟩ .operand) ts = .ok (.criteria q ⟨l, ls⟩ .joint)
  | .sortKey key => ∀ q keys, ∃ st, run rule (.sort q keys .field) ts = .ok st ∧ EndsKeys st q (keys ++ [key])
  | .sortKeys keys => ∀ q, ∃ st, run rule (.sort q [] .field) ts = .ok st ∧ EndsKeys st q keys
  | .collectionClause collection =>
    ∀ q : Query, q.collection = none → ReadsClause rule 1 2 q { q with collection } ts
  | .criteriaClause criteria =>
    ∀ q : Query, q.criteria = none → ReadsClause rule 2 3 q { q with criteria } ts
  | .orderClause sort => ∀ q : Query, q.sort = none → ReadsClause rule 3 4 q { q with sort } ts
  | .pageClause skip limit =>
    ∀ q : Query, q.skip = none → q.limit = none → ReadsClause rule 4 6 q { q with skip, limit } ts
  | .ending => ∀ q, ReadsClause rule 6 7 q q ts
  | .query q => ∃ st last, run rule .start ts = .ok st ∧ st.boundary? = some (last, q)

/-! ### Single tokens -/

private theorem field_of_name {t : Token} (ht : t.kind = .identifier) (hn : rule.admits t.text = true) :
    t.field rule = .ok ⟨[], t.text⟩ := by
  simp [Token.field, ht, Token.checked, hn]

private theorem field_of_qualifiedName {t : Token} {uri name : Text} (ht : t.kind = .qualifiedName)
    (hs : t.text = '{'.toUInt8 :: uri ++ '}'.toUInt8 :: name) (hu : '}'.toUInt8 ∉ uri)
    (hn : rule.admits name = true) : t.field rule = .ok ⟨uri, name⟩ := by
  have hcut : Text.cut '}'.toUInt8 (t.text.drop 1) = some (uri, name) := by
    rw [hs]
    exact Text.cut_eq_some.2 ⟨rfl, hu⟩
  simp only [Token.field, ht, hcut, Token.checked, hn, ↓reduceIte]

private theorem literal_of_number {t : Token} {n : Numeral} {s : Scalar} (ht : t.kind = .number)
    (hs : t.text = n.text) (hn : n.Denotes s) : t.literal = .ok (.scalar s) := by
  simp [Token.literal, ht, hs, Numeral.ofNumeral?_text.2 hn]

theorem Token.Counts.count_eq {t : Token} {n : UInt64} (h : t.Counts n) (clause : CountClause) :
    t.count clause = .ok n := by
  have hdigits : t.text.all isDigit = true := List.all_eq_true.2 h.digits.2
  simp [Token.count, h.kind_eq, hdigits, Decimal.word?_eq_some.2 h.toNat_eq]

private theorem EndsKeys.comma {st : State} {q : Query} {keys : List SortKey} {t : Token} (hst : EndsKeys st q keys)
    (ht : t.kind = .comma) : Step rule t st (.sort q keys .field) := by
  rcases hst with rfl | ⟨keys', name, rfl, rfl⟩
  · exact .sort (.comma ht)
  · exact .sort (.plain ht)

private theorem EndsKeys.boundary?_eq {st : State} {q : Query} {keys : List SortKey} (hst : EndsKeys st q keys) :
    st.boundary? = some (.order, { q with sort := some keys }) := by
  rcases hst with rfl | ⟨keys', name, rfl, rfl⟩ <;> rfl

/-! ### Comparisons -/

private theorem reads_parentheses {c : Criteria} {a : List Token} {t u : Token} (ht : t.kind = .openParen)
    (ha : (Phrase.expression c).Reads rule a) (hu : u.kind = .closeParen) :
    (Phrase.comparison c).Reads rule (t :: a ++ [u]) := by
  intro q l ls
  obtain ⟨inner, rfl, hrun⟩ := ha
  have henter : Step rule t (.criteria q ⟨l, ls⟩ .operand) (.criteria q ⟨{}, l :: ls⟩ .operand) :=
    .criteria (.enter ht)
  have hleave : Step rule u (.criteria q ⟨inner, l :: ls⟩ .joint) (.criteria q ⟨l.push inner.criteria, ls⟩ .joint) :=
    .criteria (.leave hu rfl)
  rw [List.cons_append, henter.run_cons, State.run_append_of_ok (hrun q (l :: ls)), hleave.run_singleton]

private theorem reads_equality {name : ElementName} {v : Value} {a b : List Token} {t : Token}
    (ha : (Phrase.field name).Reads rule a) (ht : t.kind = .equal) (hb : (Phrase.literal v).Reads rule b) :
    (Phrase.comparison (.leaf name v)).Reads rule (a ++ t :: b) := by
  intro q l ls
  obtain ⟨w, rfl, hw⟩ := ha
  obtain ⟨u, rfl, hu⟩ := hb
  have hvalue : Step rule u (.criteria q ⟨l, ls⟩ (.value name)) (.criteria q ⟨l.push (.leaf name v), ls⟩ .joint) :=
    .criteria (.value hu)
  rw [List.singleton_append, (Step.criteria (.field hw)).run_cons, (Step.criteria (.equal ht)).run_cons,
    hvalue.run_singleton]

/-- A membership test is read to the criteria that `membership` makes of its values. -/
private theorem reads_membership {name : ElementName} {vs : List Value} {a b : List Token} {t u w : Token}
    (ha : (Phrase.field name).Reads rule a) (ht : t.kind = .keyword .in_) (hu : u.kind = .openParen)
    (hb : (Phrase.literals vs).Reads rule b) (hw : w.kind = .closeParen) :
    (Phrase.comparison (membership name vs)).Reads rule (a ++ t :: u :: b ++ [w]) := by
  intro q l ls
  obtain ⟨x, rfl, hx⟩ := ha
  have hclose : Step rule w (.criteria q ⟨l, ls⟩ (.listNext name vs))
      (.criteria q ⟨l.push (membership name vs), ls⟩ .joint) := .criteria (.listClose hw)
  rw [List.singleton_append, List.cons_append, List.cons_append, List.cons_append,
    (Step.criteria (.field hx)).run_cons, (Step.criteria (.in_ ht)).run_cons, (Step.criteria (.listOpen hu)).run_cons,
    State.run_append_of_ok (hb q _ name), hclose.run_singleton]

private theorem joined_of_two_le {op : Connective} {cs : List Criteria} (h : 2 ≤ cs.length) :
    Criteria.joined op cs = .composite op cs := by
  rcases cs with _ | ⟨c, _ | ⟨d, cs⟩⟩
  · simp at h
  · simp at h
  · rfl

/-! ### Clauses -/

private theorem precedes_of_lt {last next : Clause} (h : last.rank < next.rank) : last.precedes next = true :=
  decide_eq_true h

private theorem reads_collectionClause {t u : Token} (ht : t.kind = .keyword .in_) (hu : u.kind = .string) :
    (Phrase.collectionClause (some u.text)).Reads rule [t, u] := by
  intro q _
  have hstep : Step rule u (.collection q) (.clauses .collection { q with collection := some u.text }) := .collection hu
  exact .opened (.collection q) (fun last hlast => .collection ht (precedes_of_lt hlast))
    ⟨_, .collection, hstep.run_singleton, rfl, by decide⟩

private theorem reads_criteriaClause {c : Criteria} {a : List Token} {t : Token} (ht : t.kind = .keyword .where_)
    (ha : (Phrase.expression c).Reads rule a) : (Phrase.criteriaClause (some c)).Reads rule (t :: a) := by
  intro q _
  obtain ⟨l, rfl, hrun⟩ := ha
  exact .opened _ (fun last hlast => .criteria ht (precedes_of_lt hlast)) ⟨_, .criteria, hrun q [], rfl, by decide⟩

private theorem reads_orderClause {keys : List SortKey} {a : List Token} {t u : Token}
    (ht : t.kind = .keyword .order) (hu : u.kind = .keyword .by_) (ha : (Phrase.sortKeys keys).Reads rule a) :
    (Phrase.orderClause (some keys)).Reads rule (t :: u :: a) := by
  intro q _
  obtain ⟨st, hrun, hst⟩ := ha q
  refine .opened (.by_ q) (fun last hlast => .order ht (precedes_of_lt hlast))
    ⟨st, .order, ?_, hst.boundary?_eq, by decide⟩
  rw [(Step.by_ hu).run_cons]
  exact hrun

private theorem reads_limit {t u : Token} {n : UInt64} (ht : t.kind = .keyword .limit) (hu : u.Counts n)
    (hn : n ≠ 0) : (Phrase.pageClause none (some n)).Reads rule [t, u] := by
  intro q hskip _
  refine .opened (.limit q) (fun last hlast => .limit ht (precedes_of_lt hlast))
    ⟨.clauses .limit { q with limit := some n }, .limit, (Step.limit (hu.count_eq _) hn).run_singleton, ?_, by decide⟩
  rw [← hskip]
  rfl

private theorem reads_offset {t u v w : Token} {n m : UInt64} (ht : t.kind = .keyword .limit) (hu : u.Counts n)
    (hn : n ≠ 0) (hv : v.kind = .keyword .offset) (hw : w.Counts m) (hm : m.toNat + n.toNat < UInt64.size) :
    (Phrase.pageClause (some m) (some n)).Reads rule [t, u, v, w] := by
  intro q _ _
  refine .opened (.limit q) (fun last hlast => .limit ht (precedes_of_lt hlast))
    ⟨.clauses .offset { q with limit := some n, skip := some m }, .offset, ?_, rfl, by decide⟩
  have hword : Step rule v (.clauses .limit { q with limit := some n }) (.offset { q with limit := some n }) :=
    .boundary rfl (.offset hv rfl)
  have hoffset : Step rule w (.offset { q with limit := some n })
      (.clauses .offset { q with limit := some n, skip := some m }) :=
    .offset (hw.count_eq _) (Decimal.le_maxWord_sub_iff.2 hm)
  rw [(Step.limit (hu.count_eq _) hn).run_cons, hword.run_cons, hoffset.run_singleton]

private theorem reads_semicolon {t : Token} (ht : t.kind = .semicolon) : Phrase.ending.Reads rule [t] := by
  intro q
  exact .opened (.clauses .semicolon q) (fun last hlast => .semicolon ht (precedes_of_lt hlast))
    ⟨_, .semicolon, rfl, rfl, by decide⟩

private theorem reads_query {collection : Option Text} {criteria : Option Criteria} {skip limit : Option UInt64}
    {sort : Option (List SortKey)} {t : Token} {a b c d e : List Token} (ht : t.kind = .keyword .search)
    (ha : (Phrase.collectionClause collection).Reads rule a) (hb : (Phrase.criteriaClause criteria).Reads rule b)
    (hc : (Phrase.orderClause sort).Reads rule c) (hd : (Phrase.pageClause skip limit).Reads rule d)
    (he : Phrase.ending.Reads rule e) :
    (Phrase.query ⟨collection, criteria, skip, limit, sort⟩).Reads rule (t :: (a ++ b ++ c ++ d ++ e)) := by
  have hclauses := ((((ha {} rfl).append (hb { collection } rfl)).append (hc { collection, criteria } rfl)).append
    (hd { collection, criteria, sort } rfl rfl)).append (he { collection, criteria, sort, skip, limit })
  obtain ⟨st, last, hrun, hst, -⟩ := hclauses (.clauses .search {}) .search rfl (by decide)
  exact ⟨st, last, by rw [(Step.search ht).run_cons, hrun], hst⟩

/-! ### Derivations -/

theorem Derives.reads {p : Phrase} {ts : List Token} (h : Derives rule p ts) : p.Reads rule ts := by
  induction h with
  | name ht hn => exact ⟨_, rfl, field_of_name ht hn⟩
  | qualifiedName ht hs hu hn => exact ⟨_, rfl, field_of_qualifiedName ht hs hu hn⟩
  | string ht => exact ⟨_, rfl, by simp [Token.literal, ht]⟩
  | number ht hs hn => exact ⟨_, rfl, literal_of_number ht hs hn⟩
  | trueWord ht => exact ⟨_, rfl, by simp [Token.literal, ht]⟩
  | falseWord ht => exact ⟨_, rfl, by simp [Token.literal, ht]⟩
  | nullWord ht => exact ⟨_, rfl, by simp [Token.literal, ht]⟩
  | oneLiteral _ ih =>
    intro q n name
    obtain ⟨t, rfl, hv⟩ := ih
    exact (Step.criteria (.listValue hv)).run_singleton
  | moreLiterals _ ht _ iha ihb =>
    intro q n name
    obtain ⟨u, rfl, hv⟩ := ihb
    rw [State.run_append_of_ok (iha q n name), (Step.criteria (.listComma ht)).run_cons]
    exact (Step.criteria (.listValue hv)).run_singleton
  | parentheses ht _ hu ih => exact reads_parentheses ht ih hu
  | equality _ ht _ iha ihb => exact reads_equality iha ht ihb
  | oneMember _ ht hu _ hw iha ihb => exact reads_membership iha ht hu ihb hw
  | @members name vs _ _ _ _ _ _ ht hu _ hvs hw iha ihb =>
    have hm : membership name vs = .composite .or (vs.map (.leaf name)) := joined_of_two_le (by simpa using hvs)
    rw [← hm]
    exact reads_membership iha ht hu ihb hw
  | oneConjunct _ ih => exact fun q chains ls => ih q ⟨chains, []⟩ ls
  | @moreConjuncts cs _ _ _ _ _ ht _ iha ihb =>
    intro q chains ls
    rw [State.run_append_of_ok (iha q chains ls), (Step.criteria (.and ht)).run_cons]
    exact ihb q ⟨chains, cs⟩ ls
  | singleConjunction _ ih => exact ⟨_, rfl, ih⟩
  | conjunction _ hcs ih => exact ⟨_, joined_of_two_le hcs, ih⟩
  | oneDisjunct _ ih =>
    obtain ⟨cs, rfl, hrun⟩ := ih
    exact ⟨⟨[], cs⟩, rfl, fun q ls => hrun q [] ls⟩
  | moreDisjuncts _ ht _ iha ihb =>
    obtain ⟨l, rfl, hrun⟩ := iha
    obtain ⟨cs, rfl, hrun'⟩ := ihb
    refine ⟨⟨l.endChain.chains, cs⟩, rfl, fun q ls => ?_⟩
    rw [State.run_append_of_ok (hrun q ls), (Step.criteria (.or ht)).run_cons]
    exact hrun' q l.endChain.chains ls
  | singleExpression _ ih =>
    obtain ⟨l, hl, hrun⟩ := ih
    exact ⟨l, by rw [Level.criteria, hl]; rfl, hrun⟩
  | expression _ hcs ih =>
    obtain ⟨l, hl, hrun⟩ := ih
    exact ⟨l, by rw [Level.criteria, hl, joined_of_two_le hcs], hrun⟩
  | @plainKey name _ _ ih =>
    intro q keys
    obtain ⟨t, rfl, hn⟩ := ih
    exact ⟨_, (Step.sort (.field hn)).run_singleton, Or.inr ⟨keys, name, rfl, rfl⟩⟩
  | ascendingKey _ ht ih =>
    intro q keys
    obtain ⟨u, rfl, hn⟩ := ih
    refine ⟨_, ?_, Or.inl rfl⟩
    rw [List.singleton_append, (Step.sort (.field hn)).run_cons, (Step.sort (.ascending ht)).run_singleton]
  | descendingKey _ ht ih =>
    intro q keys
    obtain ⟨u, rfl, hn⟩ := ih
    refine ⟨_, ?_, Or.inl rfl⟩
    rw [List.singleton_append, (Step.sort (.field hn)).run_cons, (Step.sort (.descending ht)).run_singleton]
  | oneKey _ ih => exact fun q => ih q []
  | @moreKeys keys _ _ _ _ _ ht _ iha ihb =>
    intro q
    obtain ⟨st, hrun, hst⟩ := iha q
    rw [State.run_append_of_ok hrun, (hst.comma ht).run_cons]
    exact ihb q keys
  | noCollection =>
    intro q hq
    cases q
    cases hq
    exact .absent (by decide) _
  | collection ht hu => exact reads_collectionClause ht hu
  | noCriteria =>
    intro q hq
    cases q
    cases hq
    exact .absent (by decide) _
  | criteria ht _ ih => exact reads_criteriaClause ht ih
  | noOrder =>
    intro q hq
    cases q
    cases hq
    exact .absent (by decide) _
  | order ht hu _ ih => exact reads_orderClause ht hu ih
  | noPage =>
    intro q hskip hlimit
    cases q
    cases hskip
    cases hlimit
    exact .absent (by decide) _
  | limit ht hu hn => exact reads_limit ht hu hn
  | offset ht hu hn hv hw hm => exact reads_offset ht hu hn hv hw hm
  | noSemicolon => exact fun q => .absent (by decide) q
  | semicolon ht => exact reads_semicolon ht
  | query ht _ _ _ _ _ iha ihb ihc ihd ihe => exact reads_query ht iha ihb ihc ihd ihe

/-! ### Sentences -/

namespace IsSentence

/-- The tokens of a sentence are read to its query. -/
theorem run_eq {q : Query} {ts : List Token} (h : IsSentence rule q ts) : run rule .start ts = .ok (.done q) := by
  obtain ⟨body, e, rfl, he, hbody⟩ := h
  obtain ⟨st, last, hrun, hst⟩ := hbody.reads
  rw [State.run_append_of_ok hrun, (Step.boundary hst (.endOfText he)).run_singleton]

theorem unique {q q' : Query} {ts : List Token} (h : IsSentence rule q ts) (h' : IsSentence rule q' ts) :
    q = q' := by
  have heq := h.run_eq.symm.trans h'.run_eq
  rw [Except.ok.injEq, State.done.injEq] at heq
  exact heq

end IsSentence

end DocSearch
