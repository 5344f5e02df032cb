import DocSearch.Proofs.Command.Output
import DocSearch.Proofs.Settings.Layout

/-!
# The lines of a summary

Of a summary only the name of the collection may hold a line feed (`Query.count_feed_summary`).  A default collection
comes out of one line of a configuration file and holds none (`Settings.noFeed_load`), but a text may name a
collection with line feeds.  The summary of a run has one line more than there are of these
(`Command.run_summary_lines`).
-/

namespace DocSearch

/-! ### Summaries -/

theorem Decimal.feed_not_mem_ofNat (n : Nat) : 10 ∉ ofNat n := (isDigits_ofNat n).not_mem (by decide)

namespace Query

theorem feed_not_mem_pageSummary (q : Query) : 10 ∉ q.pageSummary := by
  have hnone : 10 ∉ ascii " pagination=none" := by decide
  have hskip : 10 ∉ ascii " skip=" := by decide
  have hlimit : 10 ∉ ascii " limit=" := by decide
  unfold pageSummary
  cases q.limit with
  | none => exact hnone
  | some limit => simp [hskip, hlimit, Decimal.feed_not_mem_ofNat]

/-- A summary has the line feeds of its collection. -/
theorem count_feed_summary (q : Query) : q.summary.count 10 = (q.collection.getD []).count 10 := by
  have hpage := List.count_eq_zero.2 q.feed_not_mem_pageSummary
  have hnumber : ∀ n, (Decimal.ofNat n).count 10 = 0 := fun n => List.count_eq_zero.2 (Decimal.feed_not_mem_ofNat n)
  have hcollection : (ascii "collection=").count 10 = 0 := by decide
  have hleaves : (ascii " leaves=").count 10 = 0 := by decide
  have hcomposites : (ascii " composites=").count 10 = 0 := by decide
  have hkeys : (ascii " sort_keys=").count 10 = 0 := by decide
  have hname : (q.collection.getD (ascii "*")).count 10 = (q.collection.getD []).count 10 := by
    cases q.collection with
    | none => decide
    | some c => rfl
  simp [summary, List.count_append, hnumber, hcollection, hleaves, hcomposites, hkeys, hname, hpage]

end Query

/-! ### Default collections -/

/-- What a value stands for is a part of it. -/
private theorem mem_of_unquoted? {value c : Text} (h : unquoted? value = some c) : ∀ b ∈ c, b ∈ value := by
  intro b hb
  cases value with
  | nil => cases h
  | cons quote rest =>
    by_cases hquote : isQuote quote = true
    · by_cases hlast : rest.getLast? = some quote
      · simp only [unquoted?, hquote, hlast, if_true, Option.some.injEq] at h
        subst h
        exact List.mem_cons_of_mem _ ((List.dropLast_sublist rest).subset hb)
      · simp [unquoted?, hquote, hlast] at h
    · simp only [unquoted?, hquote, Bool.false_eq_true, if_false, Option.some.injEq] at h
      subst h
      exact hb

private theorem feed_not_mem_values {section_ : Text} {n : Nat} {lines : List Text} (h : ∀ l ∈ lines, 10 ∉ l) :
    ∀ a ∈ assignments section_ n lines, 10 ∉ a.value := by
  induction lines generalizing section_ n with
  | nil => exact nofun
  | cons line lines ih =>
    rw [List.forall_mem_cons] at h
    intro a ha
    rw [assignments, List.mem_append] at ha
    rcases ha with ha | ha
    · obtain ⟨key, hline, -, -⟩ := assignment?_eq_some (by simpa using ha)
      exact feed_not_mem_value hline h.1
    · exact ih h.2 a ha

namespace Settings

/-- The default collection holds no line feed. -/
def NoFeed (s : Settings) : Prop := ∀ c ∈ s.defaultCollection, 10 ∉ c

private theorem NoFeed.assign {s s' : Settings} {key : SettingKey} {value : Text} (hs : s.NoFeed) (hvalue : 10 ∉ value)
    (h : s.assign key value = some s') : s'.NoFeed := by
  cases key with
  | prefixes =>
    obtain ⟨b, -, rfl⟩ := Option.map_eq_some_iff.1 h
    exact hs
  | defaultCollection =>
    obtain ⟨c, hc, rfl⟩ := Option.map_eq_some_iff.1 h
    rintro c' ⟨⟩ hmem
    exact hvalue (mem_of_unquoted? hc 10 hmem)
  | mode =>
    obtain ⟨m, -, rfl⟩ := Option.map_eq_some_iff.1 h
    exact hs

private theorem NoFeed.assignAll {s : Settings} {as : List Assignment} (hs : s.NoFeed) (has : ∀ a ∈ as, 10 ∉ a.value) :
    (s.assignAll as).1.NoFeed := by
  induction as generalizing s with
  | nil => exact hs
  | cons a as ih =>
    rw [List.forall_mem_cons] at has
    cases ha : s.assign a.key a.value with
    | none =>
      rw [assignAll_cons_of_none ha]
      exact hs
    | some s₁ =>
      rw [assignAll_cons_of_some ha]
      exact ih (hs.assign has.1 ha) has.2

/-- A default collection comes out of one line. -/
theorem noFeed_ofText (text : Text) : (ofText text).1.NoFeed := by
  have hempty : ({} : Settings).NoFeed := nofun
  rw [ofText, readLines_eq]
  exact hempty.assignAll (feed_not_mem_values text.not_mem_of_mem_lines)

theorem noFeed_load (path : Text) (mustExist : Bool) (found : Lookup) : (load path mustExist found).1.NoFeed := by
  have hempty : ({} : Settings).NoFeed := nofun
  unfold load
  split
  · exact hempty
  · cases found with
    | contents text => exact noFeed_ofText text
    | missing | inaccessible | unopenable => exact hempty

end Settings

namespace Command

variable {w : World} {args : List Text} {gs : List FlagGroup} {out err : Text} {q : Query}

/-! ### Runs -/

/-- With a default collection from a configuration a summary has the line feeds of the collection that the query names
itself. -/
theorem count_feed_withDefault {s : Settings} (hs : s.NoFeed) (q : Query) :
    (withDefault s q).summary.count 10 = (q.collection.getD []).count 10 := by
  rw [Query.count_feed_summary]
  cases hq : q.collection with
  | some c => simp [withDefault, hq]
  | none =>
    cases hc : s.defaultCollection with
    | none => simp [withDefault, hq, hc]
    | some c => simpa [withDefault, hq, hc, List.count_eq_zero] using hs c hc

theorem Configured.noFeed {s : Settings} (h : Configured w gs s) : s.NoFeed := by
  cases h with
  | absent hp hm => exact nofun
  | @file path text mustExist s hp hc hs =>
    have htext := Settings.noFeed_ofText text
    rwa [hs] at htext

/-- A summary that is asked for is a line, with the line feeds in the summary and one more. -/
theorem summaryBytes_of_verbose (hverbose : .switch .verbose ∈ gs) (q : Query) :
    (∃ lines, summaryBytes gs q = lines ++ newline) ∧ (summaryBytes gs q).count 10 = q.summary.count 10 + 1 := by
  have hdim : (ascii "\x1b[2m").count 10 = 0 := by decide
  have hreset : (ascii "\x1b[0m\n").count 10 = 1 := by decide
  have hend : ascii "\x1b[0m\n" = ascii "\x1b[0m" ++ newline := by decide
  rw [summaryBytes, if_neg (not_not_intro hverbose)]
  split
  · exact ⟨⟨_, rfl⟩, by rw [List.count_append]; rfl⟩
  · constructor
    · rw [hend, ← List.append_assoc]
      exact ⟨_, rfl⟩
    · rw [List.count_append, List.count_append, hdim, hreset, Nat.zero_add]

/-- A summary holds a line feed if the query names a collection that does, whatever the configuration gives as default.
So what a run writes besides the query has one line more than there are line feeds in that name. -/
theorem run_summary_lines (w : World) :
    (∀ path mustExist found q, 10 ∈ (withDefault (Settings.load path mustExist found).1 q).summary ↔
      ∃ c ∈ q.collection, 10 ∈ c) ∧
    ∀ args gs out err, AreGroups gs args → .switch .help ∉ gs → .switch .verbose ∈ gs →
      run w args = .finished 0 out err →
      ∃ text q, IsQueryText w gs text ∧ Query.parse text w.names = .ok q ∧ (∃ lines, err = lines ++ newline) ∧
        err.count 10 = (q.collection.getD []).count 10 + 1 := by
  constructor
  · intro path mustExist found q
    have hcount := count_feed_withDefault (Settings.noFeed_load path mustExist found) q
    rw [← List.count_pos_iff, hcount, List.count_pos_iff]
    cases q.collection <;> simp
  · intro args gs out err hgs hhelp hverbose hrun
    obtain ⟨hhelp', -⟩ | ⟨-, q', compiled, hcompiles, -, rfl⟩ := (run_groups_succeeds hgs).1 hrun
    · exact absurd hhelp' hhelp
    · obtain ⟨ht, hs, hparse, hq', -, -⟩ := hcompiles
      rw [← withDefault_of_parse hparse] at hq'
      subst hq'
      obtain ⟨hlines, hcount⟩ := summaryBytes_of_verbose hverbose (withDefault _ _)
      refine ⟨_, _, ht, hparse, hlines, ?_⟩
      rw [hcount, count_feed_withDefault hs.noFeed]

/-- The default collection of a configuration file on one line. -/
theorem run_summary_lines_default :
    run { lookup := fun path =>
            if path = ascii "c" then .contents (ascii "compile.default_collection = books\n") else .missing }
        [ascii "--config", ascii "c", ascii "--verbose", ascii "--query", ascii "SEARCH"] =
      .finished 0 (ascii "search(collection('books'), (), ())\n")
        (ascii "\x1b[2mcollection=books leaves=0 composites=0 sort_keys=0 pagination=none\x1b[0m\n") ∧
      (ascii "\x1b[2mcollection=books leaves=0 composites=0 sort_keys=0 pagination=none\x1b[0m\n").count 10 = 1 := by
  have hgs : AreGroups [.value .config (ascii "c"), .switch .verbose, .value .query (ascii "SEARCH")]
      [ascii "--config", ascii "c", ascii "--verbose", ascii "--query", ascii "SEARCH"] :=
    ⟨rfl, by simp [FlagGroup.IsSuitable]⟩
  have hrun : run { lookup := fun path =>
            if path = ascii "c" then .contents (ascii "compile.default_collection = books\n") else .missing }
        [ascii "--config", ascii "c", ascii "--verbose", ascii "--query", ascii "SEARCH"] =
      .finished 0 (ascii "search(collection('books'), (), ())\n")
        (ascii "\x1b[2mcollection=books leaves=0 composites=0 sort_keys=0 pagination=none\x1b[0m\n") := by
    decide +kernel
  obtain ⟨text, q, ht, hparse, -, hcount⟩ := (run_summary_lines _).2 _ _ _ _ hgs (by decide) (by decide) hrun
  refine ⟨hrun, ?_⟩
  have hq : Query.parse (ascii "SEARCH") = .ok {} := by decide +kernel
  cases ht with
  | argument htext hne hf hd =>
    subst htext
    cases hq.symm.trans hparse
    exact hcount
  | file hp hne hc hquery hd => exact absurd hquery (by decide)

/-- A collection with a line break in its name. -/
theorem run_breaks_summary :
    Query.parse (ascii "SEARCH IN 'a\nb'") = .ok { collection := some (ascii "a\nb") } ∧
      10 ∈ ({ collection := some (ascii "a\nb") } : Query).summary ∧
      run {} [ascii "--query", ascii "SEARCH IN 'a\nb'", ascii "--verbose", ascii "--color=disabled"] =
        .finished 0 (ascii "search(collection('a\nb'), (), ())\n")
          (ascii "collection=a\nb leaves=0 composites=0 sort_keys=0 pagination=none\n") ∧
      (ascii "collection=a\nb leaves=0 composites=0 sort_keys=0 pagination=none\n").count 10 ≠ 1 := by
  decide +kernel

end Command

end DocSearch
