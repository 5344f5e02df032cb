import DocSearch.Proofs.Criteria.Broken
import DocSearch.Proofs.Query.Run
import Mathlib.Data.List.Infix

/-!
# Comparisons in the order of the text

The comparisons of criteria, from left to right, are those of the text.  A reading state holds the ones that have been
read (`State.comparisons`), and reading on only adds further ones behind them (`State.comparisons_run`).  Each of them
shows in the compiled query (`Query.shows_comparison`), its value between quotes (`Query.shows_lexical`).
-/

namespace DocSearch

/-- The name of an element and the value it is compared with. -/
abbrev Comparison := ElementName × Value

namespace Criteria

def comparison? : Criteria → Option Comparison
  | leaf name value => some (name, value)
  | _ => none

/-- The comparisons of a tree, from left to right. -/
def comparisons (c : Criteria) : List Comparison := c.nodes.filterMap comparison?

/-- Those of several trees. -/
def comparisonsAll (cs : List Criteria) : List Comparison := (nodesAll cs).filterMap comparison?

theorem comparisonsAll_cons (c : Criteria) (cs : List Criteria) :
    comparisonsAll (c :: cs) = c.comparisons ++ comparisonsAll cs := by
  rw [comparisonsAll, nodesAll, List.filterMap_append]
  rfl

theorem comparisonsAll_append (cs ds : List Criteria) :
    comparisonsAll (cs ++ ds) = comparisonsAll cs ++ comparisonsAll ds := by
  induction cs with
  | nil => rfl
  | cons c cs ih => rw [List.cons_append, comparisonsAll_cons, comparisonsAll_cons, ih, List.append_assoc]

theorem comparisonsAll_singleton (c : Criteria) : comparisonsAll [c] = c.comparisons := by
  rw [comparisonsAll_cons]
  exact List.append_nil _

theorem comparisons_joined (op : Connective) (cs : List Criteria) :
    (joined op cs).comparisons = comparisonsAll cs := by
  rcases cs with _ | ⟨c, _ | ⟨d, cs⟩⟩
  · rfl
  · exact (comparisonsAll_singleton c).symm
  · rfl

theorem comparisons_membership (name : ElementName) (values : List Value) :
    (membership name values).comparisons = values.map (Prod.mk name) := by
  rw [membership, comparisons_joined]
  induction values with
  | nil => rfl
  | cons v values ih => rw [List.map_cons, comparisonsAll_cons, ih, List.map_cons]; rfl

end Criteria

/-! ### States -/

namespace Level

def comparisons (l : Level) : List Comparison := Criteria.comparisonsAll (l.chains ++ l.operands)

theorem comparisons_push (l : Level) (c : Criteria) : (l.push c).comparisons = l.comparisons ++ c.comparisons := by
  rw [comparisons, push, ← List.append_assoc, Criteria.comparisonsAll_append _ [c], Criteria.comparisonsAll_singleton]
  rfl

theorem comparisons_endChain (l : Level) : l.endChain.comparisons = l.comparisons := by
  rw [comparisons, endChain, List.append_nil, Criteria.comparisonsAll_append, Criteria.comparisonsAll_singleton,
    Criteria.comparisons_joined, ← Criteria.comparisonsAll_append]
  rfl

theorem comparisons_criteria (l : Level) : l.criteria.comparisons = l.comparisons := by
  rw [criteria, Criteria.comparisons_joined, ← comparisons_endChain, comparisons]
  simp only [endChain, List.append_nil]

end Level

namespace Nesting

/-- Those of the outer levels come first. -/
def comparisons (n : Nesting) : List Comparison := n.outer.reverse.flatMap Level.comparisons ++ n.inner.comparisons

theorem comparisons_push (n : Nesting) (c : Criteria) : (n.push c).comparisons = n.comparisons ++ c.comparisons := by
  simp only [comparisons, push, Level.comparisons_push, List.append_assoc]

theorem comparisons_endChain (n : Nesting) : n.endChain.comparisons = n.comparisons := by
  simp only [comparisons, endChain, Level.comparisons_endChain]

theorem comparisons_enter (n : Nesting) : n.enter.comparisons = n.comparisons := by
  simp [comparisons, enter, Level.comparisons, Criteria.comparisonsAll, Criteria.nodesAll]

theorem comparisons_leave? {n n' : Nesting} (h : n.leave? = some n') : n'.comparisons = n.comparisons := by
  unfold leave? at h
  split at h
  · cases h
  · rename_i l ls houter
    cases h
    simp [comparisons, houter, Level.comparisons_push, Level.comparisons_criteria]

end Nesting

/-- The comparisons of a list that is being read. -/
def CriteriaPlace.comparisons : CriteriaPlace → List Comparison
  | listValue name values | listNext name values => values.map (Prod.mk name)
  | _ => []

def Query.comparisons (q : Query) : List Comparison := q.criteria.elim [] Criteria.comparisons

namespace State

/-- The comparisons that have been read. -/
def comparisons : State → List Comparison
  | start | collection _ => []
  | clauses last q => if last.precedes .criteria then [] else q.comparisons
  | criteria _ n place => n.comparisons ++ place.comparisons
  | by_ q | sort q _ _ | limit q | offset q | done q => q.comparisons

variable {rule : NameRule} {st st' : State} {t : Token}

private theorem comparisons_boundary {last : Clause} {q : Query} (h : st.boundary? = some (last, q)) :
    st.comparisons = (clauses last q).comparisons := by
  rcases boundary?_eq_some h with rfl | ⟨q', l, rfl, rfl, rfl⟩ | ⟨q', keys, name, rfl, rfl, rfl⟩ |
    ⟨q', keys, rfl, rfl, rfl⟩
  · rfl
  · have hcriteria : (clauses .criteria { q' with criteria := some l.criteria }).comparisons = l.criteria.comparisons :=
      rfl
    rw [hcriteria, Level.comparisons_criteria]
    simp [comparisons, Nesting.comparisons, CriteriaPlace.comparisons]
  · rfl
  · rfl

/-- In front of the criteria there is none. -/
private theorem comparisons_of_precedes {last next : Clause} {q : Query} (h : last.precedes next = true)
    (hnext : next = .collection ∨ next = .criteria) : (clauses last q).comparisons = [] := by
  have hlast : last.precedes .criteria = true := by
    rcases hnext with rfl | rfl
    · cases last <;> first | rfl | cases h
    · exact h
  rw [comparisons, if_pos hlast]

private theorem comparisons_clauses_prefix (last : Clause) (q : Query) :
    (clauses last q).comparisons <+: q.comparisons := by
  rw [comparisons]
  split
  · exact List.nil_prefix
  · exact List.prefix_rfl

private theorem comparisons_follows {last : Clause} {q : Query} (h : Follows t last q st') :
    (clauses last q).comparisons <+: st'.comparisons := by
  cases h with
  | collection _ hp =>
    rw [comparisons_of_precedes hp (Or.inl rfl)]
    exact List.nil_prefix
  | criteria _ hp =>
    rw [comparisons_of_precedes hp (Or.inr rfl)]
    exact List.nil_prefix
  | _ => exact comparisons_clauses_prefix last q

private theorem comparisons_criteriaStep {n n' : Nesting} {place place' : CriteriaPlace}
    (h : CriteriaStep rule t n place n' place') :
    n.comparisons ++ place.comparisons <+: n'.comparisons ++ place'.comparisons := by
  have hsame : ∀ m : Nesting, m.comparisons = n.comparisons → n.comparisons ++ [] <+: m.comparisons ++ [] := by
    intro m hm
    exact hm ▸ List.prefix_rfl
  cases h with
  | enter => exact hsame _ n.comparisons_enter
  | or => exact hsame _ n.comparisons_endChain
  | leave _ hn => exact hsame _ (Nesting.comparisons_leave? hn)
  | value => simp [CriteriaPlace.comparisons, Nesting.comparisons_push]
  | listValue => simp [CriteriaPlace.comparisons]
  | listClose => simp [CriteriaPlace.comparisons, Nesting.comparisons_push, Criteria.comparisons_membership]
  | field | equal | in_ | listOpen | listComma | and => exact List.prefix_rfl

/-- Reading a token forgets no comparison. -/
theorem comparisons_step (h : step rule st t = .ok st') : st.comparisons <+: st'.comparisons := by
  cases step_eq_ok.1 h with
  | search | collection => exact List.nil_prefix
  | criteria hstep => exact comparisons_criteriaStep hstep
  | by_ | sort | limit | offset => exact List.prefix_rfl
  | boundary hb hf =>
    rw [comparisons_boundary hb]
    exact comparisons_follows hf

/-- Reading on forgets no comparison. -/
theorem comparisons_run {ts : List Token} (h : run rule st ts = .ok st') : st.comparisons <+: st'.comparisons := by
  induction ts generalizing st with
  | nil =>
    cases h
    exact List.prefix_rfl
  | cons t ts ih =>
    obtain ⟨st₁, hstep, hrun⟩ := run_cons_eq_ok.1 h
    exact (comparisons_step hstep).trans (ih hrun)

/-- A literal adds the comparison of its field with its value. -/
theorem comparisons_step_value {q : Query} {n : Nesting} {name : ElementName} {v : Value} (hv : t.literal = .ok v) :
    ∃ st', step rule (criteria q n (.value name)) t = .ok st' ∧
      st'.comparisons = (criteria q n (.value name)).comparisons ++ [(name, v)] := by
  refine ⟨_, step_eq_ok.2 (.criteria (.value hv)), ?_⟩
  rw [comparisons, comparisons, Nesting.comparisons_push]
  simp only [CriteriaPlace.comparisons, List.append_nil]
  rfl

/-- So does a literal in a list. -/
theorem comparisons_step_listValue {q : Query} {n : Nesting} {name : ElementName} {values : List Value} {v : Value}
    (hv : t.literal = .ok v) :
    ∃ st', step rule (criteria q n (.listValue name values)) t = .ok st' ∧
      st'.comparisons = (criteria q n (.listValue name values)).comparisons ++ [(name, v)] := by
  refine ⟨_, step_eq_ok.2 (.criteria (.listValue hv)), ?_⟩
  simp only [comparisons, CriteriaPlace.comparisons, List.map_append, List.append_assoc]
  rfl

end State

/-! ### Compiled comparisons -/

/-- The expression that compares an element with a value, given by its text. -/
def comparisonExpression (name : ElementName) (text : Text) : Expression :=
  .call .elementValueQuery [name.expression, .string text]

theorem Expression.segments_infix_segmentsAll {e : Expression} {es : List Expression} (h : e ∈ es) :
    e.segments <:+: segmentsAll es := by
  induction es with
  | nil => cases h
  | cons d es ih =>
    rcases List.mem_cons.1 h with rfl | h
    · cases es with
      | nil => exact List.infix_rfl
      | cons _ _ => exact (List.prefix_append ..).isInfix
    · cases es with
      | nil => cases h
      | cons _ _ =>
        refine (ih h).trans ?_
        exact (List.suffix_cons ..).isInfix.trans (List.suffix_append ..).isInfix

theorem Expression.segments_infix_call {e : Expression} {f : Function} {es : List Expression} (h : e ∈ es) :
    e.segments <:+: (call f es).segments := by
  refine (segments_infix_segmentsAll h).trans ⟨[.name f, .literal (ascii "(")], [.literal (ascii ")")], ?_⟩
  rfl

theorem Expression.segments_infix_sequence {e : Expression} {es : List Expression} (h : e ∈ es) :
    e.segments <:+: (sequence es).segments := by
  refine (segments_infix_segmentsAll h).trans ⟨[.literal (ascii "(")], [.literal (ascii ")")], ?_⟩
  rfl

namespace Criteria

mutual

/-- Each comparison of a tree is part of its expression. -/
theorem comparison_infix {name : ElementName} {value : Value} : ∀ {c : Criteria} {e : Expression},
    c.expression? = .ok e → (name, value) ∈ c.comparisons →
      (comparisonExpression name value.lexical).segments <:+: e.segments
  | leaf name' value', e, h, hmem => by
    cases h
    cases List.mem_singleton.1 hmem
    exact List.infix_rfl
  | composite op [], e, h, _ => by cases h
  | composite op (c :: cs), e, h, hmem => by
    obtain ⟨es, hes, rfl⟩ := expression?_composite.1 h
    obtain ⟨d, hd, hinfix⟩ := comparison_infix_mem hes hmem
    refine hinfix.trans ((Expression.segments_infix_sequence hd).trans (Expression.segments_infix_call ?_))
    exact List.mem_singleton_self _
  | null, e, h, _ => by cases h

theorem comparison_infix_mem {name : ElementName} {value : Value} : ∀ {cs : List Criteria} {es : List Expression},
    expressions? cs = .ok es → (name, value) ∈ comparisonsAll cs →
      ∃ d ∈ es, (comparisonExpression name value.lexical).segments <:+: d.segments
  | [], es, _, hmem => by cases hmem
  | c :: cs, es, h, hmem => by
    obtain ⟨d, ds, hd, hds, rfl⟩ := expressions?_cons.1 h
    rw [comparisonsAll_cons, List.mem_append] at hmem
    rcases hmem with hmem | hmem
    · exact ⟨d, List.mem_cons_self .., comparison_infix hd hmem⟩
    · obtain ⟨d', hd', hinfix⟩ := comparison_infix_mem hds hmem
      exact ⟨d', List.mem_cons_of_mem _ hd', hinfix⟩

end

end Criteria

/-- Each comparison of a query shows in its compiled text. -/
theorem Query.shows_comparison {q : Query} {prefixes : Bool} {text : Text} (h : q.compile prefixes = .ok text)
    {name : ElementName} {value : Value} (hmem : (name, value) ∈ q.comparisons) :
    spellAll prefixes (comparisonExpression name value.lexical).segments <:+: text := by
  obtain ⟨e, he, rfl⟩ := compile_eq_ok.1 h
  have hinfix : (comparisonExpression name value.lexical).segments <:+: (q.call e).segments := by
    refine List.IsInfix.trans ?_ (Expression.segments_infix_call (List.mem_cons_of_mem _ (List.mem_cons_self ..)))
    unfold comparisons at hmem
    unfold criteriaExpression? at he
    cases hc : q.criteria with
    | none =>
      rw [hc] at hmem
      cases hmem
    | some c =>
      rw [hc] at he hmem
      exact Criteria.comparison_infix he hmem
  have hspelled := hinfix.flatMap (Segment.spell prefixes)
  exact hspelled.trans (List.prefix_append ..).isInfix

/-- So does its value, between quotes. -/
theorem Query.shows_lexical {q : Query} {prefixes : Bool} {text : Text} (h : q.compile prefixes = .ok text)
    {name : ElementName} {value : Value} (hmem : (name, value) ∈ q.comparisons) :
    ascii "'" ++ value.lexical ++ ascii "'" <:+: text := by
  have hstring : (Expression.string value.lexical).segments <:+: (comparisonExpression name value.lexical).segments :=
    Expression.segments_infix_call (List.mem_cons_of_mem _ (List.mem_singleton_self _))
  have hspelled := hstring.flatMap (Segment.spell prefixes)
  rw [Expression.segments, List.flatMap_singleton, Segment.spell] at hspelled
  exact hspelled.trans (shows_comparison h hmem)

end DocSearch
