import DocSearch.Options
import DocSearch.Proofs.Except

/-!
# Flag groups

Arguments are in order if they fall into groups, each a flag with a suitable value or a switch alone, and they do so in
one way only (`AreGroups.unique`).  The options after them hold the value of the last group of each flag, or what they
held before (`Options.read_groups`).
-/

namespace DocSearch

/-- A flag with its value, or a switch. -/
inductive FlagGroup where
  | value (flag : ValueFlag) (v : Text)
  | switch (s : Switch)
  deriving DecidableEq

namespace FlagGroup

def arguments : FlagGroup → List Text
  | value flag v => [flag.spelling, v]
  | switch s => [s.spelling]

/-- The value that a group gives to a flag. -/
def value? (flag : ValueFlag) : FlagGroup → Option Text
  | value flag' v => if flag' = flag then some v else none
  | switch _ => none

/-- Two of the flags take words of their own only. -/
def IsSuitable : FlagGroup → Prop
  | value .prefixes v => v = ascii "on" ∨ v = ascii "off"
  | value .mode v => v = ascii "plain" ∨ v = ascii "json"
  | _ => True

end FlagGroup

/-- The value of the last group of a flag. -/
def lastValue? (flag : ValueFlag) (gs : List FlagGroup) : Option Text :=
  (gs.filterMap (FlagGroup.value? flag)).getLast?

/-- The value that counts for a flag, empty if the flag is not given. -/
def givenValue (flag : ValueFlag) (gs : List FlagGroup) : Text := (lastValue? flag gs).getD []

/-- The argument list is in order, and these are its groups. -/
structure AreGroups (gs : List FlagGroup) (args : List Text) : Prop where
  arguments : gs.flatMap FlagGroup.arguments = args
  suitable : ∀ g ∈ gs, g.IsSuitable

namespace Options

/-- The options after the given groups. -/
def after (o : Options) (gs : List FlagGroup) : Options where
  query := (lastValue? .query gs).getD o.query
  queryFile := (lastValue? .queryFile gs).getD o.queryFile
  descriptor := (lastValue? .descriptor gs).getD o.descriptor
  configPath := (lastValue? .config gs).getD o.configPath
  prefixes := ((lastValue? .prefixes gs).map fun v => v == ascii "on").or o.prefixes
  mode := ((lastValue? .mode gs).bind OutputMode.ofName?).or o.mode
  verbose := o.verbose || decide (.switch .verbose ∈ gs)
  color := o.color && decide (.switch .noColor ∉ gs)
  help := o.help || decide (.switch .help ∈ gs)

/-- The options that the given groups ask for. -/
def ofGroups (gs : List FlagGroup) : Options := ({} : Options).after gs

end Options

/-! ### Last values -/

theorem lastValue?_singleton (flag : ValueFlag) (g : FlagGroup) : lastValue? flag [g] = g.value? flag := by
  cases h : g.value? flag <;> simp [lastValue?, h]

theorem lastValue?_cons (flag : ValueFlag) (g : FlagGroup) (gs : List FlagGroup) :
    lastValue? flag (g :: gs) = (lastValue? flag gs).or (g.value? flag) := by
  cases hg : g.value? flag <;> cases hl : (gs.filterMap (FlagGroup.value? flag)).getLast? <;>
    simp [lastValue?, List.getLast?_cons, hg, hl]

/-- The last value of a flag is that of one of its groups. -/
theorem mem_of_lastValue? {flag : ValueFlag} {gs : List FlagGroup} {v : Text} (h : lastValue? flag gs = some v) :
    .value flag v ∈ gs := by
  obtain ⟨g, hg, hv⟩ := List.mem_filterMap.1 (List.mem_of_getLast? h)
  cases g with
  | switch s => cases hv
  | value flag' v' =>
    simp only [FlagGroup.value?] at hv
    split at hv
    · rename_i hf
      cases hv
      rwa [← hf]
    · cases hv

/-- Groups that give a flag no value may be left out. -/
theorem lastValue?_filter {flag : ValueFlag} {keep : FlagGroup → Bool}
    (h : ∀ g, keep g = false → g.value? flag = none) (gs : List FlagGroup) :
    lastValue? flag (gs.filter keep) = lastValue? flag gs := by
  have hvalue : ∀ g, (if keep g = true then g.value? flag else none) = g.value? flag := by
    intro g
    cases hg : keep g with
    | true => rfl
    | false => exact (h g hg).symm
  simp only [lastValue?, List.filterMap_filter, hvalue]

/-! ### One group -/

theorem ValueFlag.ofArgument?_spelling (flag : ValueFlag) : ofArgument? flag.spelling = some flag := by
  cases flag <;> decide

theorem Switch.ofArgument?_spelling (s : Switch) : ofArgument? s.spelling = some s := by
  cases s <;> decide

theorem Switch.spelling_is_no_value_flag (s : Switch) : ValueFlag.ofArgument? s.spelling = none := by
  cases s <;> decide

theorem ValueFlag.eq_spelling {a : Text} {flag : ValueFlag} (h : ofArgument? a = some flag) :
    flag.spelling = a := by
  unfold ofArgument? at h
  simpa using List.find?_some h

theorem Switch.eq_spelling {a : Text} {s : Switch} (h : ofArgument? a = some s) : s.spelling = a := by
  unfold ofArgument? at h
  simpa using List.find?_some h

theorem OutputMode.ofName?_eq_some {v : Text} {m : OutputMode} : ofName? v = some m ↔ v = m.name := by
  constructor
  · intro h
    unfold ofName? at h
    have hname : m.name = v := by simpa using List.find?_some h
    exact hname.symm
  · rintro rfl
    cases m <;> decide

/-! ### Splitting arguments -/

theorem ValueFlag.spelling_ne (flag : ValueFlag) (s : Switch) : flag.spelling ≠ s.spelling := by
  intro h
  have hflag := flag.ofArgument?_spelling
  rw [h, s.spelling_is_no_value_flag] at hflag
  cases hflag

namespace FlagGroup

/-- Where a group ends in front of other arguments shows in its flag. -/
theorem arguments_append_inj {g g' : FlagGroup} {args args' : List Text}
    (h : g.arguments ++ args = g'.arguments ++ args') : g = g' ∧ args = args' := by
  cases g with
  | value flag v =>
    cases g' with
    | value flag' v' =>
      simp only [arguments, List.cons_append, List.nil_append, List.cons.injEq] at h
      obtain ⟨hspelling, rfl, rfl⟩ := h
      have hflag := congrArg ValueFlag.ofArgument? hspelling
      rw [flag.ofArgument?_spelling, flag'.ofArgument?_spelling, Option.some.injEq] at hflag
      exact ⟨by rw [hflag], rfl⟩
    | switch s =>
      exact absurd (List.cons.inj h).1 (flag.spelling_ne s)
  | switch s =>
    cases g' with
    | value flag v =>
      exact absurd (List.cons.inj h).1.symm (flag.spelling_ne s)
    | switch s' =>
      simp only [arguments, List.cons_append, List.nil_append, List.cons.injEq] at h
      obtain ⟨hspelling, rfl⟩ := h
      have hs := congrArg Switch.ofArgument? hspelling
      rw [s.ofArgument?_spelling, s'.ofArgument?_spelling, Option.some.injEq] at hs
      exact ⟨by rw [hs], rfl⟩

theorem arguments_ne_nil (g : FlagGroup) : g.arguments ≠ [] := by
  cases g <;> exact List.cons_ne_nil _ _

/-- The arguments of groups tell the groups. -/
theorem flatMap_arguments_inj {gs gs' : List FlagGroup} (h : gs.flatMap arguments = gs'.flatMap arguments) :
    gs = gs' := by
  induction gs generalizing gs' with
  | nil =>
    cases gs' with
    | nil => rfl
    | cons g' gs' => simp [g'.arguments_ne_nil] at h
  | cons g gs ih =>
    cases gs' with
    | nil => simp [g.arguments_ne_nil] at h
    | cons g' gs' =>
      rw [List.flatMap_cons, List.flatMap_cons] at h
      obtain ⟨rfl, hrest⟩ := arguments_append_inj h
      rw [ih hrest]

end FlagGroup

/-- Arguments fall into groups in one way only. -/
theorem AreGroups.unique {gs gs' : List FlagGroup} {args : List Text} (h : AreGroups gs args)
    (h' : AreGroups gs' args) : gs = gs' :=
  FlagGroup.flatMap_arguments_inj (h.arguments.trans h'.arguments.symm)

/-! ### The effect of a group -/

namespace Options

theorem turn_eq (o : Options) (s : Switch) : o.turn s = o.after [.switch s] := by
  cases s <;> simp [turn, after, lastValue?_singleton, FlagGroup.value?]

/-- A flag is set by a suitable value only. -/
theorem set_eq_ok {o o' : Options} {flag : ValueFlag} {v : Text} :
    o.set flag v = .ok o' ↔ (FlagGroup.value flag v).IsSuitable ∧ o.after [.value flag v] = o' := by
  cases flag with
  | query | queryFile | descriptor | config =>
    simp [set, after, lastValue?_singleton, FlagGroup.value?, FlagGroup.IsSuitable]
  | prefixes =>
    have hoff : (ascii "off" == ascii "on") = false := by decide
    by_cases hv : v = ascii "on"
    · simp [set, after, lastValue?_singleton, FlagGroup.value?, FlagGroup.IsSuitable, hv]
    · by_cases hv' : v = ascii "off"
      · subst hv'
        simp [set, after, lastValue?_singleton, FlagGroup.value?, FlagGroup.IsSuitable, hv, hoff]
      · simp [set, FlagGroup.IsSuitable, hv, hv']
  | mode =>
    cases hm : OutputMode.ofName? v with
    | some m =>
      have hname : v = ascii "plain" ∨ v = ascii "json" := by
        rw [OutputMode.ofName?_eq_some.1 hm]
        cases m
        · exact Or.inl rfl
        · exact Or.inr rfl
      simp [set, after, lastValue?_singleton, FlagGroup.value?, FlagGroup.IsSuitable, hm, hname]
    | none =>
      have hname : ¬(v = ascii "plain" ∨ v = ascii "json") := by
        rintro (rfl | rfl)
        · exact absurd hm (by decide)
        · exact absurd hm (by decide)
      simp [set, FlagGroup.IsSuitable, hm, hname]

/-! ### Argument lists -/

theorem after_nil (o : Options) : o.after [] = o := by
  simp [after, lastValue?]

theorem after_cons {g : FlagGroup} {gs : List FlagGroup} (h : ∀ g ∈ gs, g.IsSuitable) (o : Options) :
    (o.after [g]).after gs = o.after (g :: gs) := by
  -- the last value of the mode is the name of one, so no earlier value shows
  have hmode : ∀ v, lastValue? .mode gs = some v → ∃ m, OutputMode.ofName? v = some m := by
    intro v hv
    rcases h _ (mem_of_lastValue? hv) with rfl | rfl
    · exact ⟨.plain, by decide⟩
    · exact ⟨.json, by decide⟩
  have hswitch : ∀ (b : Bool) (s : Switch), (b || decide (.switch s ∈ [g]) || decide (.switch s ∈ gs)) =
      (b || decide (.switch s ∈ g :: gs)) := by
    intro b s
    simp [Bool.or_assoc]
  have hmodes : ((lastValue? .mode gs).bind OutputMode.ofName?).or
      (((g.value? .mode).bind OutputMode.ofName?).or o.mode) =
      (((lastValue? .mode gs).or (g.value? .mode)).bind OutputMode.ofName?).or o.mode := by
    cases hl : lastValue? .mode gs with
    | none => simp
    | some v =>
      obtain ⟨m, hm⟩ := hmode v hl
      simp [hm]
  have hcolor : (o.color && decide (.switch .noColor ∉ [g]) && decide (.switch .noColor ∉ gs)) =
      (o.color && decide (.switch .noColor ∉ g :: gs)) := by
    simp [Bool.and_assoc]
  simp only [after, lastValue?_cons _ g gs, lastValue?_singleton, hswitch, hmodes, hcolor, Option.getD_or,
    Option.map_or, Option.or_assoc]

theorem read_arguments {g : FlagGroup} (h : g.IsSuitable) (o : Options) (args : List Text) :
    o.read (g.arguments ++ args) = (o.after [g]).read args := by
  cases g with
  | value flag v =>
    have hset : o.set flag v = .ok (o.after [.value flag v]) := set_eq_ok.2 ⟨h, rfl⟩
    simp [FlagGroup.arguments, read, flag.ofArgument?_spelling, hset]
  | switch s =>
    simp [FlagGroup.arguments, read, s.spelling_is_no_value_flag, s.ofArgument?_spelling, turn_eq]

/-- Groups in front of other arguments are read first, one after the other. -/
theorem read_groups_append {gs : List FlagGroup} {front : List Text} (h : AreGroups gs front) (o : Options)
    (args : List Text) : o.read (front ++ args) = (o.after gs).read args := by
  obtain ⟨rfl, hsuitable⟩ := h
  induction gs generalizing o with
  | nil => simp [after_nil]
  | cons g gs ih =>
    have hg : g.IsSuitable := hsuitable g (by simp)
    have hgs : ∀ g ∈ gs, g.IsSuitable := fun g h => hsuitable g (by simp [h])
    rw [List.flatMap_cons, List.append_assoc, read_arguments hg, ih (o.after [g]) hgs, after_cons hgs]

theorem read_groups {gs : List FlagGroup} {args : List Text} (h : AreGroups gs args) (o : Options) :
    o.read args = (o.after gs, none) := by
  have hread := read_groups_append h o []
  rwa [List.append_nil] at hread

/-! ### The options of groups -/

section OfGroups

variable (gs : List FlagGroup)

@[simp] theorem query_ofGroups : (ofGroups gs).query = givenValue .query gs := rfl

@[simp] theorem queryFile_ofGroups : (ofGroups gs).queryFile = givenValue .queryFile gs := rfl

@[simp] theorem descriptor_ofGroups : (ofGroups gs).descriptor = givenValue .descriptor gs := rfl

@[simp] theorem configPath_ofGroups : (ofGroups gs).configPath = givenValue .config gs := rfl

@[simp] theorem prefixes_ofGroups :
    (ofGroups gs).prefixes = (lastValue? .prefixes gs).map fun v => v == ascii "on" := by
  simp [ofGroups, after]

@[simp] theorem mode_ofGroups : (ofGroups gs).mode = (lastValue? .mode gs).bind OutputMode.ofName? := by
  simp [ofGroups, after]

@[simp] theorem verbose_ofGroups : (ofGroups gs).verbose = decide (.switch .verbose ∈ gs) := by
  simp [ofGroups, after]

@[simp] theorem color_ofGroups : (ofGroups gs).color = decide (.switch .noColor ∉ gs) := by
  simp [ofGroups, after]

@[simp] theorem help_ofGroups : (ofGroups gs).help = decide (.switch .help ∈ gs) := by
  simp [ofGroups, after]

end OfGroups

end Options

end DocSearch
