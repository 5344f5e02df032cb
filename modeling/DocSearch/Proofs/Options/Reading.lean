import DocSearch.Proofs.Options.Groups
import Mathlib.Data.List.Forall2

/-!
# Reading arguments in parts

Reading takes groups off an argument list, up to its end or to the first argument in error, and has the effect of these
groups (`Options.read_eq_iff`).  So an argument list may be cut behind groups, and what stands behind an argument in
error does not matter unless that argument lacks its value (`OptionsState.read_append`).
-/

namespace DocSearch

/-- An argument that forms no group with the arguments behind it, and why. -/
inductive Offends : Text → List Text → ArgumentError → Prop
  | missingValue (flag : ValueFlag) : Offends flag.spelling [] (.missingValue flag)
  | prefixes {v : Text} {rest : List Text} (h : v ≠ ascii "on" ∧ v ≠ ascii "off") :
      Offends ValueFlag.prefixes.spelling (v :: rest) .invalidPrefixes
  | mode {v : Text} {rest : List Text} (h : v ≠ ascii "plain" ∧ v ≠ ascii "json") :
      Offends ValueFlag.mode.spelling (v :: rest) .invalidMode
  | unknown {a : Text} {rest : List Text} (hflag : ∀ flag : ValueFlag, flag.spelling ≠ a)
      (hswitch : ∀ s : Switch, s.spelling ≠ a) : Offends a rest (.unknown a)

/-- The groups that an argument list starts with, and the error that ends them if they are not all of it. -/
inductive StartsWithGroups (gs : List FlagGroup) : List Text → Option ArgumentError → Prop
  | all {args : List Text} (h : AreGroups gs args) : StartsWithGroups gs args none
  | upTo {front rest : List Text} {a : Text} {e : ArgumentError} (h : AreGroups gs front) (ha : Offends a rest e) :
      StartsWithGroups gs (front ++ a :: rest) (some e)

/-! ### Arguments in error -/

/-- Unless a value is missing, what stands behind an argument in error does not matter. -/
theorem Offends.append {a : Text} {rest : List Text} {e : ArgumentError} (h : Offends a rest e)
    (he : ∀ flag, e ≠ .missingValue flag) (more : List Text) : Offends a (rest ++ more) e := by
  cases h with
  | missingValue flag => exact absurd rfl (he flag)
  | prefixes hv => exact .prefixes hv
  | mode hv => exact .mode hv
  | unknown hflag hswitch => exact .unknown hflag hswitch

theorem ValueFlag.ofArgument?_eq_none {a : Text} : ofArgument? a = none ↔ ∀ flag : ValueFlag, flag.spelling ≠ a := by
  constructor
  · rintro h flag rfl
    rw [flag.ofArgument?_spelling] at h
    cases h
  · intro h
    cases hflag : ofArgument? a with
    | none => rfl
    | some flag => exact absurd (ValueFlag.eq_spelling hflag) (h flag)

theorem Switch.ofArgument?_eq_none {a : Text} : ofArgument? a = none ↔ ∀ s : Switch, s.spelling ≠ a := by
  constructor
  · rintro h s rfl
    rw [s.ofArgument?_spelling] at h
    cases h
  · intro h
    cases hs : ofArgument? a with
    | none => rfl
    | some s => exact absurd (Switch.eq_spelling hs) (h s)

theorem OutputMode.ofName?_eq_none {v : Text} : ofName? v = none ↔ v ≠ ascii "plain" ∧ v ≠ ascii "json" := by
  constructor
  · intro h
    constructor
    · rintro rfl
      exact absurd h (by decide)
    · rintro rfl
      exact absurd h (by decide)
  · rintro ⟨hplain, hjson⟩
    cases hm : ofName? v with
    | none => rfl
    | some m =>
      have hv := OutputMode.ofName?_eq_some.1 hm
      cases m with
      | plain => exact absurd hv hplain
      | json => exact absurd hv hjson

namespace Options

/-- A flag refuses a value because of the value, whatever stands behind it. -/
theorem offends_of_set {o : Options} {flag : ValueFlag} {v : Text} {e : ArgumentError} (h : o.set flag v = .error e)
    (rest : List Text) : Offends flag.spelling (v :: rest) e := by
  cases flag with
  | query | queryFile | descriptor | config => simp [set] at h
  | prefixes =>
    by_cases hon : v = ascii "on"
    · simp [set, hon] at h
    · by_cases hoff : v = ascii "off"
      · simp only [set, if_neg hon, if_pos hoff, reduceCtorEq] at h
      · simp only [set, hon, hoff, if_false, Except.error.injEq] at h
        subst h
        exact .prefixes ⟨hon, hoff⟩
  | mode =>
    cases hm : OutputMode.ofName? v with
    | some m => simp [set, hm] at h
    | none =>
      simp only [set, hm, Except.error.injEq] at h
      subst h
      exact .mode (OutputMode.ofName?_eq_none.1 hm)

/-- Nothing is read of an argument in error. -/
theorem read_offending {a : Text} {rest : List Text} {e : ArgumentError} (h : Offends a rest e) (o : Options) :
    o.read (a :: rest) = (o, some e) := by
  cases h with
  | missingValue flag => simp [read, flag.ofArgument?_spelling]
  | prefixes hv => simp [read, ValueFlag.ofArgument?_spelling, set, hv]
  | mode hv => simp [read, ValueFlag.ofArgument?_spelling, set, OutputMode.ofName?_eq_none.2 hv]
  | unknown hflag hswitch =>
    simp [read, ValueFlag.ofArgument?_eq_none.2 hflag, Switch.ofArgument?_eq_none.2 hswitch]

end Options

/-! ### Groups and an argument in error -/

theorem AreGroups.cons {g : FlagGroup} {gs : List FlagGroup} {args : List Text} (hg : g.IsSuitable)
    (h : AreGroups gs args) : AreGroups (g :: gs) (g.arguments ++ args) :=
  ⟨by rw [List.flatMap_cons, h.arguments], List.forall_mem_cons.2 ⟨hg, h.suitable⟩⟩

namespace StartsWithGroups

variable {gs : List FlagGroup} {args : List Text} {e? : Option ArgumentError}

theorem offending {a : Text} {rest : List Text} {e : ArgumentError} (ha : Offends a rest e) :
    StartsWithGroups [] (a :: rest) (some e) := by
  have hnone : AreGroups [] [] := ⟨rfl, by simp⟩
  exact .upTo hnone ha

theorem cons {g : FlagGroup} (hg : g.IsSuitable) (h : StartsWithGroups gs args e?) :
    StartsWithGroups (g :: gs) (g.arguments ++ args) e? := by
  cases h with
  | all h => exact .all (h.cons hg)
  | upTo h ha =>
    rw [← List.append_assoc]
    exact .upTo (h.cons hg) ha

theorem suitable (h : StartsWithGroups gs args e?) : ∀ g ∈ gs, g.IsSuitable := by
  cases h with
  | all h => exact h.suitable
  | upTo h _ => exact h.suitable

/-- The groups in front take effect, and no more. -/
theorem read_eq (h : StartsWithGroups gs args e?) (o : Options) : o.read args = (o.after gs, e?) := by
  cases h with
  | all h => exact Options.read_groups h o
  | upTo h ha => rw [Options.read_groups_append h, Options.read_offending ha]

end StartsWithGroups

namespace Options

/-- Each step of reading takes one group, or ends at an argument in error. -/
theorem exists_startsWithGroups (o : Options) (args : List Text) :
    ∃ gs, StartsWithGroups gs args (o.read args).2 := by
  fun_induction Options.read o args with
  | case1 o => exact ⟨[], .all ⟨rfl, by simp⟩⟩
  | case2 o a flag hflag =>
    rw [← ValueFlag.eq_spelling hflag]
    exact ⟨[], .offending (.missingValue flag)⟩
  | case3 o a flag hflag value rest o₁ hset ih =>
    obtain ⟨gs, hgs⟩ := ih
    rw [← ValueFlag.eq_spelling hflag]
    exact ⟨_, hgs.cons (g := .value flag value) (set_eq_ok.1 hset).1⟩
  | case4 o a flag hflag value rest e hset =>
    rw [← ValueFlag.eq_spelling hflag]
    exact ⟨[], .offending (offends_of_set hset rest)⟩
  | case5 o a args hflag s hs ih =>
    obtain ⟨gs, hgs⟩ := ih
    rw [← Switch.eq_spelling hs]
    exact ⟨_, hgs.cons (g := .switch s) trivial⟩
  | case6 o a args hflag hs =>
    have ha : Offends a args (.unknown a) :=
      .unknown (ValueFlag.ofArgument?_eq_none.1 hflag) (Switch.ofArgument?_eq_none.1 hs)
    exact ⟨[], .offending ha⟩

/-- Reading has the effect of the groups that the arguments start with, and reports the error behind them. -/
theorem read_eq_iff {o o' : Options} {args : List Text} {e? : Option ArgumentError} :
    o.read args = (o', e?) ↔ ∃ gs, StartsWithGroups gs args e? ∧ o.after gs = o' := by
  constructor
  · intro h
    obtain ⟨gs, hgs⟩ := exists_startsWithGroups o args
    have hread := hgs.read_eq o
    rw [h, Prod.mk.injEq] at hread
    rw [h] at hgs
    exact ⟨gs, hgs, hread.1.symm⟩
  · rintro ⟨gs, hgs, rfl⟩
    exact hgs.read_eq o

/-- Arguments without an error are groups. -/
theorem read_eq_ok {o o' : Options} {args : List Text} :
    o.read args = (o', none) ↔ ∃ gs, AreGroups gs args ∧ o.after gs = o' := by
  constructor
  · intro h
    obtain ⟨gs, hgs, ho⟩ := read_eq_iff.1 h
    cases hgs with
    | all hgs => exact ⟨gs, hgs, ho⟩
  · rintro ⟨gs, hgs, rfl⟩
    exact read_groups hgs o

/-! ### Groups of several argument lists -/

theorem after_append {gs gs' : List FlagGroup} (h : ∀ g ∈ gs, g.IsSuitable) (h' : ∀ g ∈ gs', g.IsSuitable)
    (o : Options) : (o.after gs).after gs' = o.after (gs ++ gs') := by
  induction gs generalizing o with
  | nil => rw [after_nil, List.nil_append]
  | cons g gs ih =>
    rw [List.forall_mem_cons] at h
    have hall : ∀ g ∈ gs ++ gs', g.IsSuitable := List.forall_mem_append.2 ⟨h.2, h'⟩
    rw [← after_cons h.2, ih h.2, after_cons hall, List.cons_append]

end Options

/-- The last group for the mode names one. -/
theorem lastValue?_mode {gs : List FlagGroup} (h : ∀ g ∈ gs, g.IsSuitable) :
    lastValue? .mode gs = none ∨ lastValue? .mode gs = some (ascii "plain") ∨
      lastValue? .mode gs = some (ascii "json") := by
  cases hlast : lastValue? .mode gs with
  | none => exact Or.inl rfl
  | some v =>
    have hv : v = ascii "plain" ∨ v = ascii "json" := h _ (mem_of_lastValue? hlast)
    simpa using hv

theorem Options.mode_name_ofGroups {gs : List FlagGroup} (h : ∀ g ∈ gs, g.IsSuitable) :
    (ofGroups gs).mode.map OutputMode.name = lastValue? .mode gs := by
  rw [mode_ofGroups]
  rcases lastValue?_mode h with hlast | hlast | hlast
  · rw [hlast]
    rfl
  · rw [hlast]
    decide
  · rw [hlast]
    decide

namespace OptionsState

variable {st st' : OptionsState} {args a b : List Text}

/-- Arguments in order are groups, and the report stays. -/
theorem read_eq_true :
    st.read args = (true, st') ↔ ∃ gs, AreGroups gs args ∧ st' = { st with options := st.options.after gs } := by
  constructor
  · intro h
    obtain ⟨o, e?, hread⟩ : ∃ o e?, st.options.read args = (o, e?) := ⟨_, _, rfl⟩
    rw [read, hread] at h
    cases e? with
    | some e => cases h
    | none =>
      cases h
      obtain ⟨gs, hgs, rfl⟩ := Options.read_eq_ok.1 hread
      exact ⟨gs, hgs, rfl⟩
  · rintro ⟨gs, hgs, rfl⟩
    rw [read, Options.read_groups hgs]

/-- Arguments in error start with groups, and the report is that of the argument behind them. -/
theorem read_eq_false :
    st.read args = (false, st') ↔
      ∃ gs e, StartsWithGroups gs args (some e) ∧ st' = ⟨st.options.after gs, e.message⟩ := by
  constructor
  · intro h
    obtain ⟨o, e?, hread⟩ : ∃ o e?, st.options.read args = (o, e?) := ⟨_, _, rfl⟩
    rw [read, hread] at h
    cases e? with
    | none => cases h
    | some e =>
      cases h
      obtain ⟨gs, hgs, rfl⟩ := Options.read_eq_iff.1 hread
      exact ⟨gs, e, hgs, rfl⟩
  · rintro ⟨gs, e, hgs, rfl⟩
    rw [read, hgs.read_eq]

/-! ### Argument lists in parts -/

/-- Groups may be read on their own. -/
theorem read_append_of_true (h : st.read a = (true, st')) (b : List Text) : st.read (a ++ b) = st'.read b := by
  obtain ⟨gs, hgs, rfl⟩ := read_eq_true.1 h
  rw [read, read, Options.read_groups_append hgs]

/-- Nothing is read behind an argument in error, unless it lacks its value. -/
theorem read_append_of_false (h : st.read a = (false, st'))
    (hreport : ∀ flag, st'.report ≠ (ArgumentError.missingValue flag).message) (b : List Text) :
    st.read (a ++ b) = (false, st') := by
  obtain ⟨gs, e, hgs, rfl⟩ := read_eq_false.1 h
  refine read_eq_false.2 ⟨gs, e, ?_, rfl⟩
  cases hgs with
  | upTo hfront ha =>
    rw [List.append_assoc, List.cons_append]
    refine .upTo hfront (ha.append ?_ b)
    rintro flag rfl
    exact hreport flag rfl

/-- The state after several argument lists, each read whether or not those in front of it are in order. -/
def readAll (st : OptionsState) (calls : List (List Text)) : OptionsState :=
  calls.foldl (fun st args => (st.read args).2) st

theorem options_read (st : OptionsState) (args : List Text) :
    (st.read args).2.options = (st.options.read args).1 := by
  obtain ⟨o, e?, hread⟩ : ∃ o e?, st.options.read args = (o, e?) := ⟨_, _, rfl⟩
  rw [read, hread]
  cases e? <;> rfl

private theorem suitable_flatten {gss : List (List FlagGroup)} {calls : List (List Text)}
    (h : List.Forall₂ (fun gs args => ∃ e?, StartsWithGroups gs args e?) gss calls) :
    ∀ g ∈ gss.flatten, g.IsSuitable := by
  induction h with
  | nil => simp
  | cons hgs _ ih =>
    obtain ⟨e?, hgs⟩ := hgs
    rw [List.flatten_cons, List.forall_mem_append]
    exact ⟨hgs.suitable, ih⟩

/-- Several argument lists have the effect of the groups that they start with. -/
theorem options_readAll (st : OptionsState) (calls : List (List Text)) :
    ∃ gss, List.Forall₂ (fun gs args => ∃ e?, StartsWithGroups gs args e?) gss calls ∧
      (st.readAll calls).options = st.options.after gss.flatten := by
  induction calls generalizing st with
  | nil => exact ⟨[], .nil, (Options.after_nil st.options).symm⟩
  | cons args calls ih =>
    obtain ⟨gs, hgs⟩ := Options.exists_startsWithGroups st.options args
    obtain ⟨gss, hgss, hoptions⟩ := ih (st.read args).2
    refine ⟨gs :: gss, .cons ⟨_, hgs⟩ hgss, ?_⟩
    rw [options_read, hgs.read_eq, Options.after_append hgs.suitable (suitable_flatten hgss)] at hoptions
    exact hoptions

/-- Reading may be cut behind groups, and behind an argument in error that does not lack its value.  It has the effect
of the groups that it starts with, and the report stays unless there is an error.  After any arguments the mode is that
of the last group for it, which names one of two. -/
theorem read_append (st : OptionsState) (a b : List Text) :
    (∀ st', st.read a = (true, st') → st.read (a ++ b) = st'.read b) ∧
    (∀ st', st.read a = (false, st') → (∀ flag, st'.report ≠ (ArgumentError.missingValue flag).message) →
      st.read (a ++ b) = (false, st')) ∧
    (∀ st', st.read a = (true, st') ↔ ∃ gs, AreGroups gs a ∧ st' = { st with options := st.options.after gs }) ∧
    (∀ st', st.read a = (false, st') ↔
      ∃ gs e, StartsWithGroups gs a (some e) ∧ st' = ⟨st.options.after gs, e.message⟩) ∧
    ∀ (report : Text) (calls : List (List Text)),
      ∃ gss, List.Forall₂ (fun gs args => ∃ e?, StartsWithGroups gs args e?) gss calls ∧
        (readAll { report := report } calls).options.mode.map OutputMode.name = lastValue? .mode gss.flatten ∧
        (lastValue? .mode gss.flatten = none ∨ lastValue? .mode gss.flatten = some (ascii "plain") ∨
          lastValue? .mode gss.flatten = some (ascii "json")) := by
  refine ⟨fun st' h => read_append_of_true h b, fun st' h hreport => read_append_of_false h hreport b,
    fun st' => read_eq_true, fun st' => read_eq_false, fun report calls => ?_⟩
  obtain ⟨gss, hgss, hoptions⟩ := options_readAll { report := report } calls
  have hsuitable := suitable_flatten hgss
  refine ⟨gss, hgss, ?_, lastValue?_mode hsuitable⟩
  rw [hoptions]
  exact Options.mode_name_ofGroups hsuitable

/-- A flag as the value of another one, and a second mode behind an unsuitable one. -/
theorem read_append_help :
    read { report := ascii "?" } [ascii "--query", ascii "--help", ascii "--verbose"] =
        (true, ⟨{ query := ascii "--help", verbose := true }, ascii "?"⟩) ∧
      read {} [ascii "--verbose", ascii "--mode", ascii "xml", ascii "--mode", ascii "json"] =
        (false, ⟨{ verbose := true }, ascii "Invalid --mode value (use plain|json)"⟩) := by
  have hquery : read { report := ascii "?" } [ascii "--query", ascii "--help"] =
      (true, ⟨{ query := ascii "--help" }, ascii "?"⟩) := by
    decide +kernel
  have hmode : read {} [ascii "--verbose", ascii "--mode", ascii "xml"] =
      (false, ⟨{ verbose := true }, ascii "Invalid --mode value (use plain|json)"⟩) := by
    decide +kernel
  have hreport : ∀ flag, ascii "Invalid --mode value (use plain|json)" ≠ (ArgumentError.missingValue flag).message := by
    intro flag
    cases flag <;> decide +kernel
  constructor
  · have happend := (read_append _ _ [ascii "--verbose"]).1 _ hquery
    exact happend
  · exact (read_append _ _ [ascii "--mode", ascii "json"]).2.1 _ hmode hreport

end OptionsState

end DocSearch
