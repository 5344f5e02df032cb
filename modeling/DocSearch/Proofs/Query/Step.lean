import DocSearch.Proofs.Except
import DocSearch.Query.Parse

/-!
# What a step does

A token that is read opens the clause behind a whole one or ends the query (`State.Follows`), or it goes on inside a
clause (`CriteriaStep`, `SortStep`).  The steps are listed once (`State.Step`), and a state takes these and no others
(`State.step_eq_ok`): what every step keeps is shown by cases on them.
-/

namespace DocSearch

theorem Token.eq_of_kind {t : Token} {kind : Kind} (h : t.kind = kind) : t = ⟨⟨kind, t.text⟩, t.position⟩ := by
  subst h
  rfl

/-- The kinds of tokens that may follow a whole clause, whatever the clause is. -/
def Kind.followsClause : Kind → Bool
  | .keyword .in_ | .keyword .where_ | .keyword .order | .keyword .limit | .keyword .offset => true
  | .semicolon | .endOfText => true
  | _ => false

variable {rule : NameRule} {t : Token}

/-! ### The steps -/

/-- A token inside the criteria. -/
inductive CriteriaStep (rule : NameRule) (t : Token) : Nesting → CriteriaPlace → Nesting → CriteriaPlace → Prop
  | enter {n : Nesting} (ht : t.kind = .openParen) : CriteriaStep rule t n .operand n.enter .operand
  | field {n : Nesting} {name : ElementName} (h : t.field rule = .ok name) :
      CriteriaStep rule t n .operand n (.comparator name)
  | equal {n : Nesting} {name : ElementName} (ht : t.kind = .equal) :
      CriteriaStep rule t n (.comparator name) n (.value name)
  | in_ {n : Nesting} {name : ElementName} (ht : t.kind = .keyword .in_) :
      CriteriaStep rule t n (.comparator name) n (.listStart name)
  | value {n : Nesting} {name : ElementName} {v : Value} (h : t.literal = .ok v) :
      CriteriaStep rule t n (.value name) (n.push (.leaf name v)) .joint
  | listOpen {n : Nesting} {name : ElementName} (ht : t.kind = .openParen) :
      CriteriaStep rule t n (.listStart name) n (.listValue name [])
  | listValue {n : Nesting} {name : ElementName} {values : List Value} {v : Value} (h : t.literal = .ok v) :
      CriteriaStep rule t n (.listValue name values) n (.listNext name (values ++ [v]))
  | listComma {n : Nesting} {name : ElementName} {values : List Value} (ht : t.kind = .comma) :
      CriteriaStep rule t n (.listNext name values) n (.listValue name values)
  | listClose {n : Nesting} {name : ElementName} {values : List Value} (ht : t.kind = .closeParen) :
      CriteriaStep rule t n (.listNext name values) (n.push (membership name values)) .joint
  | and {n : Nesting} (ht : t.kind = .keyword .and) : CriteriaStep rule t n .joint n .operand
  | or {n : Nesting} (ht : t.kind = .keyword .or) : CriteriaStep rule t n .joint n.endChain .operand
  | leave {n n' : Nesting} (ht : t.kind = .closeParen) (hn : n.leave? = some n') :
      CriteriaStep rule t n .joint n' .joint

/-- A token inside the sort keys. -/
inductive SortStep (rule : NameRule) (t : Token) : List SortKey → SortPlace → List SortKey → SortPlace → Prop
  | field {keys : List SortKey} {name : ElementName} (h : t.field rule = .ok name) :
      SortStep rule t keys .field keys (.direction name)
  | descending {keys : List SortKey} {name : ElementName} (ht : t.kind = .keyword .desc) :
      SortStep rule t keys (.direction name) (keys ++ [⟨name, true⟩]) .next
  | ascending {keys : List SortKey} {name : ElementName} (ht : t.kind = .keyword .asc) :
      SortStep rule t keys (.direction name) (keys ++ [⟨name, false⟩]) .next
  | plain {keys : List SortKey} {name : ElementName} (ht : t.kind = .comma) :
      SortStep rule t keys (.direction name) (keys ++ [⟨name, false⟩]) .field
  | comma {keys : List SortKey} (ht : t.kind = .comma) : SortStep rule t keys .next keys .field

namespace State

/-- The token behind a whole clause: it opens the next one, or ends the query. -/
inductive Follows (t : Token) (last : Clause) (q : Query) : State → Prop
  | collection (ht : t.kind = .keyword .in_) (hp : last.precedes .collection = true) :
      Follows t last q (.collection q)
  | criteria (ht : t.kind = .keyword .where_) (hp : last.precedes .criteria = true) :
      Follows t last q (.criteria q {} .operand)
  | order (ht : t.kind = .keyword .order) (hp : last.precedes .order = true) : Follows t last q (.by_ q)
  | limit (ht : t.kind = .keyword .limit) (hp : last.precedes .limit = true) : Follows t last q (.limit q)
  | offset (ht : t.kind = .keyword .offset) (hl : last = .limit) : Follows t last q (.offset q)
  | semicolon (ht : t.kind = .semicolon) (hp : last.precedes .semicolon = true) :
      Follows t last q (.clauses .semicolon q)
  | endOfText (ht : t.kind = .endOfText) : Follows t last q (.done q)

/-- The token leads from the first state to the second one. -/
inductive Step (rule : NameRule) (t : Token) : State → State → Prop
  | search (ht : t.kind = .keyword .search) : Step rule t .start (.clauses .search {})
  | collection {q : Query} (ht : t.kind = .string) :
      Step rule t (.collection q) (.clauses .collection { q with collection := some t.text })
  | criteria {q : Query} {n n' : Nesting} {place place' : CriteriaPlace} (h : CriteriaStep rule t n place n' place') :
      Step rule t (.criteria q n place) (.criteria q n' place')
  | by_ {q : Query} (ht : t.kind = .keyword .by_) : Step rule t (.by_ q) (.sort q [] .field)
  | sort {q : Query} {keys keys' : List SortKey} {place place' : SortPlace}
      (h : SortStep rule t keys place keys' place') :
      Step rule t (.sort q keys place) (.sort q keys' place')
  | limit {q : Query} {n : UInt64} (h : t.count .limit = .ok n) (hn : n ≠ 0) :
      Step rule t (.limit q) (.clauses .limit { q with limit := some n })
  | offset {q : Query} {n : UInt64} (h : t.count .offset = .ok n) (hn : n ≤ Decimal.maxWord - q.limit.getD 0) :
      Step rule t (.offset q) (.clauses .offset { q with skip := some n })
  | boundary {st st' : State} {last : Clause} {q : Query} (hb : st.boundary? = some (last, q))
      (h : Follows t last q st') : Step rule t st st'

variable {st st' : State}

/-! ### Boundaries of clauses -/

/-- The states in which a clause may end. -/
theorem boundary?_eq_some {last : Clause} {q : Query} (h : st.boundary? = some (last, q)) :
    st = clauses last q ∨
      (∃ q' l, st = criteria q' ⟨l, []⟩ .joint ∧ last = .criteria ∧ q = { q' with criteria := some l.criteria }) ∨
      (∃ q' keys name, st = sort q' keys (.direction name) ∧ last = .order ∧
        q = { q' with sort := some (keys ++ [⟨name, false⟩]) }) ∨
      ∃ q' keys, st = sort q' keys .next ∧ last = .order ∧ q = { q' with sort := some keys } := by
  unfold boundary? at h
  split at h
  · cases h
    exact Or.inl rfl
  · cases h
    exact Or.inr (Or.inl ⟨_, _, rfl, rfl, rfl⟩)
  · cases h
    exact Or.inr (Or.inr (Or.inl ⟨_, _, _, rfl, rfl, rfl⟩))
  · cases h
    exact Or.inr (Or.inr (Or.inr ⟨_, _, rfl, rfl, rfl⟩))
  · cases h

theorem stepBoundary_eq_ok :
    st.stepBoundary t = .ok st' ↔ ∃ last q, st.boundary? = some (last, q) ∧ nextClause last q t = .ok st' := by
  unfold stepBoundary
  cases hb : st.boundary? with
  | none => simp [Token.refuse]
  | some b =>
    obtain ⟨last, q⟩ := b
    constructor
    · intro h
      exact ⟨last, q, rfl, h⟩
    · rintro ⟨_, _, hb', h⟩
      cases hb'
      exact h

/-- Where a clause may end, a token that may follow a clause is one for the next clause. -/
private theorem step_of_boundary {last : Clause} {q : Query} (h : st.boundary? = some (last, q))
    (ht : t.kind.followsClause = true) : step rule st t = nextClause last q t := by
  have hb : stepBoundary st t = nextClause last q t := by
    unfold stepBoundary
    rw [h]
  rw [← hb]
  rcases boundary?_eq_some h with rfl | ⟨q', l, rfl, -⟩ | ⟨q', keys, name, rfl, -⟩ | ⟨q', keys, rfl, -⟩
  · rfl
  all_goals
    cases hk : t.kind with
    | keyword k => cases k <;> simp_all [Kind.followsClause, step, stepCriteria, stepSort]
    | _ => simp_all [Kind.followsClause, step, stepCriteria, stepSort]

theorem nextClause_eq_ok {last : Clause} {q : Query} : nextClause last q t = .ok st ↔ Follows t last q st := by
  constructor
  · intro h
    unfold nextClause at h
    split at h
    · split at h <;> cases h
      exact .collection ‹_› ‹_›
    · split at h <;> cases h
      exact .criteria ‹_› ‹_›
    · split at h <;> cases h
      exact .order ‹_› ‹_›
    · split at h <;> cases h
      exact .limit ‹_› ‹_›
    · split at h
      · cases h
        exact .offset ‹_› ‹_›
      · split at h <;> cases h
    · split at h <;> cases h
      exact .semicolon ‹_› ‹_›
    · cases h
      exact .endOfText ‹_›
    · cases h
  · intro h
    cases h with
    | collection ht hp | criteria ht hp | order ht hp | limit ht hp | semicolon ht hp =>
      simp only [nextClause, ht, hp, if_true]
    | offset ht hl => simp only [nextClause, ht, hl, if_true]
    | endOfText ht => simp only [nextClause, ht]

private theorem Follows.followsClause {last : Clause} {q : Query} (h : Follows t last q st) :
    t.kind.followsClause = true := by
  cases h <;> simp only [*, Kind.followsClause]

/-! ### Taking steps -/

private theorem step_of_stepBoundary (h : stepBoundary st t = .ok st') : Step rule t st st' := by
  obtain ⟨last, q, hb, hnext⟩ := stepBoundary_eq_ok.1 h
  exact .boundary hb (nextClause_eq_ok.1 hnext)

private theorem step_of_stepCriteria {q : Query} {n : Nesting} {place : CriteriaPlace}
    (h : stepCriteria rule q n place t = .ok st') : Step rule t (criteria q n place) st' := by
  unfold stepCriteria at h
  split at h
  · cases h
    exact .criteria (.enter ‹_›)
  · obtain ⟨name, hname, h⟩ := bind_eq_ok.1 h
    cases h
    exact .criteria (.field hname)
  · cases h
    exact .criteria (.equal ‹_›)
  · cases h
    exact .criteria (.in_ ‹_›)
  · obtain ⟨v, hv, h⟩ := bind_eq_ok.1 h
    cases h
    exact .criteria (.value hv)
  · cases h
    exact .criteria (.listOpen ‹_›)
  · obtain ⟨v, hv, h⟩ := bind_eq_ok.1 h
    cases h
    exact .criteria (.listValue hv)
  · cases h
    exact .criteria (.listComma ‹_›)
  · cases h
    exact .criteria (.listClose ‹_›)
  · cases h
    exact .criteria (.and ‹_›)
  · cases h
    exact .criteria (.or ‹_›)
  · split at h
    · cases h
      exact .criteria (.leave ‹_› ‹_›)
    · exact step_of_stepBoundary h
  · exact step_of_stepBoundary h

private theorem step_of_stepSort {q : Query} {keys : List SortKey} {place : SortPlace}
    (h : stepSort rule q keys place t = .ok st') : Step rule t (sort q keys place) st' := by
  unfold stepSort at h
  split at h
  · obtain ⟨name, hname, h⟩ := bind_eq_ok.1 h
    cases h
    exact .sort (.field hname)
  · cases h
    exact .sort (.descending ‹_›)
  · cases h
    exact .sort (.ascending ‹_›)
  · cases h
    exact .sort (.plain ‹_›)
  · cases h
    exact .sort (.comma ‹_›)
  · exact step_of_stepBoundary h

private theorem step_of_eq_ok (h : step rule st t = .ok st') : Step rule t st st' := by
  cases st with
  | start =>
    simp only [step] at h
    split at h <;> cases h
    exact .search ‹_›
  | clauses last q => exact step_of_stepBoundary h
  | collection q =>
    simp only [step] at h
    split at h <;> cases h
    exact .collection ‹_›
  | criteria q n place => exact step_of_stepCriteria h
  | by_ q =>
    simp only [step] at h
    split at h <;> cases h
    exact .by_ ‹_›
  | sort q keys place => exact step_of_stepSort h
  | limit q =>
    obtain ⟨n, hn, h⟩ := bind_eq_ok.1 h
    split at h <;> cases h
    exact .limit hn ‹_›
  | offset q =>
    obtain ⟨n, hn, h⟩ := bind_eq_ok.1 h
    split at h <;> cases h
    exact .offset hn ‹_›
  | done q => exact step_of_stepBoundary h

private theorem stepCriteria_of_step {n n' : Nesting} {place place' : CriteriaPlace}
    (h : CriteriaStep rule t n place n' place') (q : Query) :
    stepCriteria rule q n place t = .ok (criteria q n' place') := by
  cases h with
  | @field name h =>
    obtain ⟨⟨kind, text⟩, p⟩ := t
    cases kind with
    | openParen => cases h
    | _ =>
      show (Token.field rule _ >>= fun name => .ok (State.criteria q n (.comparator name))) = _
      rw [h, ok_bind]
  | @value name v h =>
    show (t.literal >>= fun v => .ok (State.criteria q (n.push (.leaf name v)) .joint)) = _
    rw [h, ok_bind]
  | @listValue name values v h =>
    show (t.literal >>= fun v => .ok (State.criteria q n (.listNext name (values ++ [v])))) = _
    rw [h, ok_bind]
  | leave ht hn => simp only [stepCriteria, ht, hn]
  | enter ht | equal ht | in_ ht | listOpen ht | listComma ht | listClose ht | and ht | or ht =>
    rw [Token.eq_of_kind ht]
    rfl

private theorem stepSort_of_step {keys keys' : List SortKey} {place place' : SortPlace}
    (h : SortStep rule t keys place keys' place') (q : Query) :
    stepSort rule q keys place t = .ok (sort q keys' place') := by
  cases h with
  | field h =>
    show (t.field rule >>= fun name => .ok (State.sort q keys (.direction name))) = _
    rw [h, ok_bind]
  | descending ht | ascending ht | plain ht | comma ht =>
    rw [Token.eq_of_kind ht]
    rfl

/-- A state takes the steps that are listed, and no others. -/
theorem step_eq_ok : step rule st t = .ok st' ↔ Step rule t st st' := by
  refine ⟨step_of_eq_ok, fun h => ?_⟩
  cases h with
  | search ht | collection ht | by_ ht => simp only [step, ht, if_true]
  | @criteria q _ _ _ _ h => exact stepCriteria_of_step h q
  | @sort q _ _ _ _ h => exact stepSort_of_step h q
  | limit h hn =>
    simp only [step, stepLimit, h, ok_bind, if_neg hn]
    rfl
  | offset h hn =>
    simp only [step, stepOffset, h, ok_bind, if_pos hn]
    rfl
  | boundary hb h => rw [step_of_boundary hb h.followsClause, nextClause_eq_ok.2 h]

end State

end DocSearch
