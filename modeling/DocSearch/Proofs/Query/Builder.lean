import DocSearch.Proofs.Criteria.Broken
import DocSearch.Proofs.Query.WellFormed
import DocSearch.Query.Builder

/-!
# Queries from a builder

As long as a builder checks its composites and takes no `null`, no tree on its stack or in its query has a broken node
(`Builder.IsSound.apply`).  So its query compiles after any number of steps, failed ones among them
(`Builder.compiled_after`).  The check refuses composites of nothing, and only these (`Builder.apply_eq_criteria`).
-/

namespace DocSearch

/-- The step makes no broken node by itself. -/
def BuildStep.IsChecked : BuildStep → Prop
  | null => False
  | composite checked _ _ => checked = true
  | _ => True

namespace Builder

variable {rule : NameRule} {b b' : Builder} {step : BuildStep}

/-- No tree of the builder has a broken node. -/
structure IsSound (b : Builder) : Prop where
  stack : ∀ c ∈ b.stack, c.firstFault? = none
  criteria : ∀ c ∈ b.query.criteria, c.firstFault? = none

/-- The builder after several steps.  Those that fail change nothing. -/
def after (rule : NameRule) (b : Builder) (steps : List BuildStep) : Builder :=
  steps.foldl (fun b step => (b.apply step rule).toOption.getD b) b

theorem IsSound.push (h : b.IsSound) {c : Criteria} (hc : c.firstFault? = none) : (b.push c).IsSound :=
  ⟨List.forall_mem_cons.2 ⟨hc, h.stack⟩, h.criteria⟩

theorem IsSound.drop (h : b.IsSound) (n : Nat) : { b with stack := b.stack.drop n }.IsSound :=
  ⟨fun c hc => h.stack c (List.mem_of_mem_drop hc), h.criteria⟩

theorem IsSound.push_composite (h : b.IsSound) {op : Connective} {n : Nat} {c : Criteria}
    (hc : Criteria.composite? op (b.stack.take n).reverse = .ok c) :
    ({ b with stack := b.stack.drop n }.push c).IsSound := by
  obtain ⟨hne, rfl⟩ := Criteria.composite?_eq_ok.1 hc
  refine (h.drop n).push ?_
  rw [Criteria.firstFault?_composite hne]
  exact Criteria.firstFaultAll?_eq_none fun d hd => h.stack d (List.mem_of_mem_take (List.mem_reverse.1 hd))

/-- A checked step leaves no broken node behind. -/
theorem IsSound.apply (hb : b.IsSound) (hstep : step.IsChecked) (h : b.apply step rule = .ok b') : b'.IsSound := by
  cases step with
  | leaf name value =>
    cases h
    exact hb.push rfl
  | null => cases hstep
  | duplicate =>
    simp only [Builder.apply] at h
    split at h
    · cases h
    · rename_i c cs hstack
      cases h
      exact hb.push (hb.stack c (by simp [hstack]))
  | drop =>
    simp only [Builder.apply] at h
    split at h
    · cases h
    · rename_i c cs hstack
      cases h
      have hdrop := hb.drop 1
      rwa [hstack] at hdrop
  | composite checked op n =>
    obtain rfl : checked = true := hstep
    simp only [Builder.apply, if_true] at h
    split at h
    · cases h
    split at h
    · rename_i c hc
      cases h
      exact hb.push_composite hc
    · cases h
  | useCriteria =>
    simp only [Builder.apply] at h
    split at h
    · cases h
    · rename_i c cs hstack
      cases h
      refine ⟨hb.stack, ?_⟩
      rintro _ ⟨⟩
      exact hb.stack c (by simp [hstack])
  | noCriteria =>
    cases h
    exact ⟨hb.stack, by simp⟩
  | collection | skip | limit | sort | emptySort | noSort | prefixes =>
    cases h
    exact ⟨hb.stack, hb.criteria⟩
  | parse text =>
    simp only [Builder.apply] at h
    split at h
    · rename_i q hparse
      cases h
      exact ⟨hb.stack, Query.exists_compile.1 ((Query.wellFormed_of_parse hparse).compile_ok false)⟩
    · cases h

theorem IsSound.after (hb : b.IsSound) {steps : List BuildStep} (h : ∀ step ∈ steps, step.IsChecked) :
    (b.after rule steps).IsSound := by
  induction steps generalizing b with
  | nil => exact hb
  | cons step steps ih =>
    have hrest := fun step' hstep' => h step' (List.mem_cons_of_mem _ hstep')
    refine ih (b := (b.apply step rule).toOption.getD b) ?_ hrest
    cases hstep : b.apply step rule with
    | ok b' => exact hb.apply (h step (List.mem_cons_self ..)) hstep
    | error e => exact hb

/-- What is built with checks compiles at any point, with the builder's prefixes or without. -/
theorem compiled_after {steps : List BuildStep} (h : ∀ step ∈ steps, step.IsChecked) :
    ∃ text, (after rule {} steps).compiled = .ok text := by
  have hempty : ({} : Builder).IsSound := ⟨by simp, by simp⟩
  exact Query.exists_compile.2 (hempty.after h).criteria

/-- The check of composites fails for those of nothing. -/
theorem apply_eq_criteria {f : CriteriaFault} :
    b.apply step rule = .error (.criteria f) ↔ ∃ op, step = .composite true op 0 ∧ f = .noChild op := by
  constructor
  · intro h
    cases step with
    | composite checked op n =>
      simp only [Builder.apply] at h
      split at h
      · cases h
      rename_i hlength
      split at h
      · rename_i hchecked
        split at h
        · cases h
        · rename_i f' hf
          cases h
          obtain ⟨hnone, rfl⟩ := Criteria.composite?_eq_error.1 hf
          have hn : n = 0 := by
            rcases List.take_eq_nil_iff.1 (List.reverse_eq_nil_iff.1 hnone) with hn | hstack
            · exact hn
            · simpa [hstack] using hlength
          exact ⟨op, by rw [hchecked, hn], rfl⟩
      · cases h
    | duplicate | drop | useCriteria | parse text =>
      simp only [Builder.apply] at h
      split at h <;> cases h
    | _ => cases h
  · rintro ⟨op, rfl, rfl⟩
    simp [Builder.apply, Criteria.composite?]

end Builder

end DocSearch
