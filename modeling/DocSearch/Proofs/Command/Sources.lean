import DocSearch.Proofs.Command.Output

/-!
# Counting the sources

A flag for a source counts if its last value is not empty, whatever its other values are (`Options.sources_ofGroups`).
So the count is that of the flags in the arguments unless the last value of one of these is empty, and a run goes on
with the only source that counts (`Command.run_counts_sources`).
-/

namespace DocSearch

/-- The flags that give a query. -/
def sourceFlags : List ValueFlag := [.query, .queryFile, .descriptor]

/-- The flags for a source that are in the groups, each once. -/
def givenSources (gs : List FlagGroup) : List ValueFlag :=
  sourceFlags.filter fun flag => gs.any fun g => (g.value? flag).isSome

/-- The flag is given, and its last value is not empty. -/
def hasSource (gs : List FlagGroup) (flag : ValueFlag) : Bool := !(givenValue flag gs).isEmpty

/-- A flag with a value is given. -/
theorem given_of_hasSource {gs : List FlagGroup} {flag : ValueFlag} (h : hasSource gs flag = true) :
    (gs.any fun g => (g.value? flag).isSome) = true := by
  cases hlast : lastValue? flag gs with
  | none => simp [hasSource, givenValue, hlast] at h
  | some v =>
    rw [List.any_eq_true]
    exact ⟨_, mem_of_lastValue? hlast, by simp [FlagGroup.value?]⟩

namespace Options

/-- The sources that count are those of the given ones that have a value. -/
theorem sources_ofGroups (gs : List FlagGroup) : (ofGroups gs).sources = (givenSources gs).countP (hasSource gs) := by
  have hgiven : ∀ flag ∈ sourceFlags, hasSource gs flag = true ↔
      (hasSource gs flag && gs.any fun g => (g.value? flag).isSome) = true := by
    intro flag _
    rw [Bool.and_eq_true]
    exact ⟨fun h => ⟨h, given_of_hasSource h⟩, And.left⟩
  rw [givenSources, List.countP_filter, ← List.countP_congr hgiven]
  simp [sources, sourceFlags, hasSource, List.countP_cons]

end Options

/-! ### The refusal of several sources -/

/-- The second byte of the text tells it from the refusal of several sources, also in front of the first zero byte. -/
private def StartsElsewhere (s : Text) : Prop :=
  ∃ a b rest, s = a :: b :: rest ∧ a ≠ 0 ∧ b ≠ 0 ∧ b ≠ 's'.toUInt8

private theorem StartsElsewhere.mk {a b : UInt8} {rest : Text} (ha : a ≠ 0) (hb : b ≠ 0) (hs : b ≠ 's'.toUInt8) :
    StartsElsewhere (a :: b :: rest) :=
  ⟨a, b, rest, rfl, ha, hb, hs⟩

private theorem StartsElsewhere.append {s : Text} (h : StartsElsewhere s) (t : Text) : StartsElsewhere (s ++ t) := by
  obtain ⟨a, b, rest, rfl, ha, hb, hs⟩ := h
  exact ⟨a, b, rest ++ t, rfl, ha, hb, hs⟩

private theorem StartsElsewhere.beforeZero {s : Text} (h : StartsElsewhere s) : StartsElsewhere s.beforeZero := by
  obtain ⟨a, b, rest, rfl, ha, hb, hs⟩ := h
  refine ⟨a, b, Text.beforeZero rest, ?_, ha, hb, hs⟩
  simp [Text.beforeZero, ha, hb]

private theorem Fault.message_startsElsewhere (f : Fault) : StartsElsewhere f.message := by
  cases f with
  | invalidName name | unexpectedByte text | countTooLarge clause =>
    exact (StartsElsewhere.append (.mk (by decide) (by decide) (by decide)) _).append _
  | expectedCount clause => exact StartsElsewhere.append (.mk (by decide) (by decide) (by decide)) _
  | _ => exact .mk (by decide) (by decide) (by decide)

namespace Command

variable {w : World} {args : List Text} {gs gs' : List FlagGroup} {message : Text}

private theorem severalSources_ne {m : Text} (h : StartsElsewhere m) : m ≠ Failure.severalSources.message := by
  obtain ⟨a, b, rest, rfl, -, -, hs⟩ := h
  intro heq
  have hsecond := congrArg (fun s : Text => s[1]?) heq
  have hmessage : Failure.severalSources.message[1]? = some 's'.toUInt8 := rfl
  simp only [hmessage] at hsecond
  exact hs (by simpa using hsecond)

private theorem Misconfigured.startsElsewhere (h : Misconfigured w gs message) : StartsElsewhere message := by
  cases h with
  | missing hp hm => exact StartsElsewhere.append (.mk (by decide) (by decide) (by decide)) _
  | unopenable hp hu => exact StartsElsewhere.append (.mk (by decide) (by decide) (by decide)) _
  | invalid hp hc hs =>
    exact ((StartsElsewhere.append (.mk (by decide) (by decide) (by decide)) _).append _).append _

/-- A report on arguments in order is that of several sources, or starts in another way. -/
private theorem FailsWith.several_or (h : FailsWith w args gs' message) (hgs : AreGroups gs args) :
    gs' = gs ∧ (1 < (Options.ofGroups gs).sources ∨ StartsElsewhere message) := by
  cases h with
  | argument h =>
    have hread := h.read_eq {}
    rw [Options.read_groups hgs] at hread
    exact absurd (congrArg Prod.snd hread) nofun
  | severalSources h hs =>
    obtain rfl := h.groups.unique hgs
    exact ⟨rfl, Or.inl hs⟩
  | configuration h hs hm => exact ⟨h.groups.unique hgs, Or.inr hm.startsElsewhere⟩
  | file h hs hc hflag hp hne hf =>
    have hwords : StartsElsewhere (ascii "Failed to open file: ") := .mk (by decide) (by decide) (by decide)
    exact ⟨h.groups.unique hgs, Or.inr (hwords.append _).beforeZero⟩
  | @text text e s h hc ht he =>
    exact ⟨h.groups.unique hgs, Or.inr ((e.fault.message_startsElsewhere.append _).append _).beforeZero⟩

private theorem startupHelp_ne (gs : List FlagGroup) :
    startupHelp ≠ reportBytes gs Failure.severalSources.message := by
  unfold reportBytes
  split <;> decide +kernel

/-- A run is refused for several sources if more than one counts. -/
theorem run_refuses_iff (h : Proceeds gs args) :
    run w args = fail (Options.ofGroups gs) .severalSources ↔ 1 < (Options.ofGroups gs).sources := by
  rw [fail_ofGroups gs (f := .severalSources) (by simp)]
  constructor
  · intro hrun
    obtain ⟨-, -, gs', ⟨hhelp, -⟩ | ⟨message, hfails, hreport⟩⟩ := (run_fails_iff (by decide)).1 hrun
    · exact absurd hhelp.symm (startupHelp_ne gs)
    · obtain ⟨rfl, hseveral | helsewhere⟩ := hfails.several_or h.groups
      · exact hseveral
      · exact absurd (reportBytes_inj.1 hreport).symm (severalSources_ne helsewhere)
  · intro hs
    exact (FailsWith.severalSources h hs).run_eq

/-- Of the sources that the arguments give those count that have a value, so the count is that of the flags given
unless one of these has an empty value in the end.  A run is refused if several sources count. -/
theorem run_counts_sources (w : World) {args : List Text} {o : Options} (h : ({} : Options).read args = (o, none)) :
    ∃ gs, AreGroups gs args ∧ o.sources = (givenSources gs).countP (hasSource gs) ∧
      (o.sources = (givenSources gs).length ↔ ∀ flag ∈ givenSources gs, givenValue flag gs ≠ []) ∧
      (.switch .help ∉ gs →
        (run w args = fail o .severalSources ↔ 2 ≤ (givenSources gs).countP (hasSource gs))) := by
  obtain ⟨gs, hgs, rfl⟩ := Options.read_eq_ok.1 h
  have hcount := Options.sources_ofGroups gs
  refine ⟨gs, hgs, hcount, ?_, fun hhelp => ?_⟩
  · calc (Options.ofGroups gs).sources = (givenSources gs).length
      ↔ (givenSources gs).countP (hasSource gs) = (givenSources gs).length := by rw [hcount]
    _ ↔ ∀ flag ∈ givenSources gs, hasSource gs flag = true := List.countP_eq_length
    _ ↔ ∀ flag ∈ givenSources gs, givenValue flag gs ≠ [] := by simp [hasSource]
  · rw [← hcount]
    exact run_refuses_iff ⟨hgs, hhelp⟩

/-- A flag as a value, and a source that is given twice. -/
theorem run_counts_sources_twice :
    ({} : Options).read [ascii "--query", ascii "--descriptor", ascii "--query-file", [], ascii "--query-file",
        ascii "q"] = ({ query := ascii "--descriptor", queryFile := ascii "q" }, none) ∧
      ∃ gs, AreGroups gs [ascii "--query", ascii "--descriptor", ascii "--query-file", [], ascii "--query-file",
        ascii "q"] ∧ 2 = (givenSources gs).countP (hasSource gs) := by
  have hread : ({} : Options).read [ascii "--query", ascii "--descriptor", ascii "--query-file", [],
      ascii "--query-file", ascii "q"] = ({ query := ascii "--descriptor", queryFile := ascii "q" }, none) := by
    decide +kernel
  obtain ⟨gs, hgs, hcount, -⟩ := run_counts_sources {} hread
  exact ⟨hread, gs, hgs, hcount⟩

/-- An empty query and a file: two sources are given, and one counts. -/
theorem run_overlooks_empty_query :
    AreGroups [.value .query [], .value .queryFile (ascii "q")]
        [ascii "--query", [], ascii "--query-file", ascii "q"] ∧
      (givenSources [.value .query [], .value .queryFile (ascii "q")]).length = 2 ∧
      ({} : Options).read [ascii "--query", [], ascii "--query-file", ascii "q"] =
        ({ queryFile := ascii "q" }, none) ∧
      ({ queryFile := ascii "q" } : Options).sources = 1 ∧
      run { lookup := fun path => if path = ascii "q" then .contents (ascii "SEARCH") else .missing }
          [ascii "--query", [], ascii "--query-file", ascii "q"] =
        .finished 0 (ascii "search(collection(), (), ())\n") [] := by
  have hgs : AreGroups [.value .query [], .value .queryFile (ascii "q")]
      [ascii "--query", [], ascii "--query-file", ascii "q"] :=
    ⟨rfl, by simp [FlagGroup.IsSuitable]⟩
  exact ⟨hgs, by decide +kernel⟩

end Command

end DocSearch
