import DocSearch.Proofs.Command.Stages
import Mathlib.Data.List.FinRange

/-!
# The order of flags

The groups of the arguments may stand in another order if those of each flag keep theirs, as the options depend on the
groups of each flag alone (`Options.after_congr`), and a run depends on the options (`Command.run_reordered`).
-/

namespace DocSearch

/-- A flag that takes a value, or a switch. -/
inductive Flag where
  | value (flag : ValueFlag)
  | switch (s : Switch)
  deriving DecidableEq

namespace FlagGroup

def flag : FlagGroup → Flag
  | value flag _ => .value flag
  | switch s => .switch s

end FlagGroup

/-- The groups of a flag, in their order. -/
def groupsOf (flag : Flag) (gs : List FlagGroup) : List FlagGroup := gs.filter fun g => g.flag = flag

/-- The groups `gs'` are the groups `gs` in another order, each at its new place, and of two groups of one flag the
first one stays in front. -/
structure IsReordering (gs gs' : List FlagGroup) (place : Fin gs.length ≃ Fin gs'.length) : Prop where
  group : ∀ i, gs'[place i] = gs[i]
  order : ∀ i j, i < j → gs[i].flag = gs[j].flag → place i < place j

/-! ### The groups of each flag -/

theorem lastValue?_groupsOf (flag : ValueFlag) (gs : List FlagGroup) :
    lastValue? flag (groupsOf (.value flag) gs) = lastValue? flag gs := by
  refine lastValue?_filter (fun g hg => ?_) gs
  cases g with
  | switch s => rfl
  | value flag' v =>
    have hf : flag' ≠ flag := by
      rintro rfl
      simp [FlagGroup.flag] at hg
    simp [FlagGroup.value?, hf]

theorem mem_groupsOf {g : FlagGroup} {gs : List FlagGroup} : g ∈ groupsOf g.flag gs ↔ g ∈ gs := by
  simp [groupsOf]

/-- Two lists with the same groups of each flag have the same groups. -/
theorem mem_iff_of_groupsOf_eq {gs gs' : List FlagGroup} (h : ∀ flag, groupsOf flag gs' = groupsOf flag gs)
    (g : FlagGroup) : g ∈ gs' ↔ g ∈ gs := by
  rw [← mem_groupsOf, h, mem_groupsOf]

/-- The options depend on the groups of each flag alone. -/
theorem Options.after_congr {gs gs' : List FlagGroup} (h : ∀ flag, groupsOf flag gs' = groupsOf flag gs)
    (o : Options) : o.after gs' = o.after gs := by
  have hlast : ∀ flag, lastValue? flag gs' = lastValue? flag gs := by
    intro flag
    rw [← lastValue?_groupsOf, h, lastValue?_groupsOf]
  simp only [after, hlast, mem_iff_of_groupsOf_eq h]

/-! ### Other orders -/

/-- The places of the groups of a flag, from left to right. -/
def placesOf (flag : Flag) (gs : List FlagGroup) : List (Fin gs.length) :=
  (List.finRange gs.length).filter fun i => gs[i].flag = flag

theorem mem_placesOf {flag : Flag} {gs : List FlagGroup} {i : Fin gs.length} :
    i ∈ placesOf flag gs ↔ gs[i].flag = flag := by
  simp [placesOf]

theorem pairwise_placesOf (flag : Flag) (gs : List FlagGroup) : (placesOf flag gs).Pairwise (· < ·) :=
  (List.pairwise_lt_finRange gs.length).filter _

theorem groupsOf_eq_map (flag : Flag) (gs : List FlagGroup) :
    groupsOf flag gs = (placesOf flag gs).map fun i => gs[i] := by
  calc groupsOf flag gs
      = ((List.finRange gs.length).map fun i => gs[i]).filter fun g => g.flag = flag := by
        rw [groupsOf]
        exact congrArg _ (List.map_getElem_finRange gs).symm
    _ = (placesOf flag gs).map fun i => gs[i] := List.filter_map

namespace IsReordering

variable {gs gs' : List FlagGroup} {place : Fin gs.length ≃ Fin gs'.length}

/-- The new places of the groups of a flag are its places in the new order, as both are in order. -/
theorem map_placesOf (h : IsReordering gs gs' place) (flag : Flag) :
    (placesOf flag gs).map place = placesOf flag gs' := by
  have hup : ((placesOf flag gs).map place).Pairwise (· < ·) := by
    rw [List.pairwise_map]
    refine (pairwise_placesOf flag gs).imp_of_mem fun {i j} hi hj hij => ?_
    exact h.order i j hij ((mem_placesOf.1 hi).trans (mem_placesOf.1 hj).symm)
  have hmem : ∀ j, j ∈ (placesOf flag gs).map place ↔ j ∈ placesOf flag gs' := by
    intro j
    obtain ⟨i, rfl⟩ := place.surjective j
    rw [List.mem_map_of_injective place.injective, mem_placesOf, mem_placesOf, h.group]
  have hup' := pairwise_placesOf flag gs'
  have hperm := (List.perm_ext_iff_of_nodup hup.nodup hup'.nodup).2 hmem
  exact hperm.eq_of_pairwise (fun _ _ _ _ hab hba => absurd hab hba.asymm) hup hup'

/-- The groups of each flag stay the same, in the same order. -/
theorem groupsOf_eq (h : IsReordering gs gs' place) (flag : Flag) : groupsOf flag gs' = groupsOf flag gs := by
  rw [groupsOf_eq_map, groupsOf_eq_map, ← h.map_placesOf flag, List.map_map]
  exact List.map_congr_left fun i _ => h.group i

end IsReordering

/-! ### Runs -/

namespace Command

/-- Arguments in order fall into groups in one way only.  In any order that keeps the order of the groups of each flag
they are in order too and have the same effect, which for each flag is that of its last group, and the run is the
same. -/
theorem run_reordered {st₀ : OptionsState} {args : List Text} (h : (st₀.read args).1 = true) :
    ∃ gs, AreGroups gs args ∧ (∀ gs', gs'.flatMap FlagGroup.arguments = args → gs' = gs) ∧
      ∀ gs' place, IsReordering gs gs' place →
        (∀ st : OptionsState,
          st.read args = (true, { st with options := st.options.after gs }) ∧
            st.read (gs'.flatMap FlagGroup.arguments) = st.read args) ∧
        ∀ w, run w (gs'.flatMap FlagGroup.arguments) = run w args := by
  obtain ⟨gs, hgs, -⟩ := OptionsState.read_eq_true.1 (Prod.ext h rfl)
  refine ⟨gs, hgs, fun gs' hgs' => FlagGroup.flatMap_arguments_inj (hgs'.trans hgs.arguments.symm), ?_⟩
  intro gs' place hreorder
  have hgs' : AreGroups gs' (gs'.flatMap FlagGroup.arguments) :=
    ⟨rfl, fun g hg => hgs.suitable g ((mem_iff_of_groupsOf_eq hreorder.groupsOf_eq g).1 hg)⟩
  have hafter := Options.after_congr hreorder.groupsOf_eq
  constructor
  · intro st
    have hread : st.read args = (true, { st with options := st.options.after gs }) :=
      OptionsState.read_eq_true.2 ⟨gs, hgs, rfl⟩
    rw [hread, OptionsState.read_eq_true]
    exact ⟨rfl, gs', hgs', by rw [hafter]⟩
  · intro w
    -- the options are all that a run knows of its arguments
    simp only [run, Options.read_groups hgs', Options.read_groups hgs, hafter]

/-- Flags as the values of other ones, and two groups for the mode. -/
theorem run_reordered_flagsAsValues :
    (({} : OptionsState).read [ascii "--config", ascii "--verbose", ascii "--query", ascii "SEARCH LIMIT 1",
        ascii "--mode", ascii "json", ascii "--mode", ascii "plain", ascii "--verbose"]).1 = true ∧
      OptionsState.read ⟨{ query := ascii "--mode", color := false }, ascii "?"⟩
          [ascii "--verbose", ascii "--mode", ascii "json", ascii "--query", ascii "SEARCH LIMIT 1", ascii "--mode",
            ascii "plain", ascii "--config", ascii "--verbose"] =
        (true,
          ⟨{ query := ascii "SEARCH LIMIT 1", configPath := ascii "--verbose", mode := some .plain, verbose := true,
             color := false }, ascii "?"⟩) ∧
      run { lookup := fun _ => .contents (ascii "[compile]\nprefixes = true\n") }
          [ascii "--verbose", ascii "--mode", ascii "json", ascii "--query", ascii "SEARCH LIMIT 1", ascii "--mode",
            ascii "plain", ascii "--config", ascii "--verbose"] =
        run { lookup := fun _ => .contents (ascii "[compile]\nprefixes = true\n") }
          [ascii "--config", ascii "--verbose", ascii "--query", ascii "SEARCH LIMIT 1", ascii "--mode", ascii "json",
            ascii "--mode", ascii "plain", ascii "--verbose"] := by
  have haccepted : (({} : OptionsState).read [ascii "--config", ascii "--verbose", ascii "--query",
      ascii "SEARCH LIMIT 1", ascii "--mode", ascii "json", ascii "--mode", ascii "plain",
      ascii "--verbose"]).1 = true := by
    decide +kernel
  obtain ⟨gs, -, hunique, hreordered⟩ := run_reordered haccepted
  obtain rfl := hunique [.value .config (ascii "--verbose"), .value .query (ascii "SEARCH LIMIT 1"),
    .value .mode (ascii "json"), .value .mode (ascii "plain"), .switch .verbose] rfl
  obtain ⟨hread, hrun⟩ := hreordered [.switch .verbose, .value .mode (ascii "json"),
    .value .query (ascii "SEARCH LIMIT 1"), .value .mode (ascii "plain"), .value .config (ascii "--verbose")]
    ((Equiv.swap (0 : Fin 5) 4).trans (Equiv.swap 1 2)) ⟨by decide +kernel, by decide +kernel⟩
  obtain ⟨hargs, hargs'⟩ := hread ⟨{ query := ascii "--mode", color := false }, ascii "?"⟩
  refine ⟨haccepted, hargs'.trans (hargs.trans ?_), hrun _⟩
  decide +kernel

end Command

end DocSearch
