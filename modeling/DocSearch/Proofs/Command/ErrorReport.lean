import DocSearch.Proofs.Command.Output
import DocSearch.Proofs.Query.Refusal

/-!
# Reports of parse errors

The report of a parse error gives the words for the fault and its position, and passes through a zero-terminated
string.  The words hold a zero byte only where the text has a stray one (`Query.zero_mem_report_iff`).  So every
report is whole except for that byte, in front of which the report ends, and its position is lost
(`Command.run_reports_parse_error`).
-/

namespace DocSearch

/-! ### Zero bytes -/

namespace Text

theorem beforeZero_eq_self {s : Text} : s.beforeZero = s ↔ 0 ∉ s := by
  simp only [beforeZero, List.takeWhile_eq_self_iff, bne_iff_ne]
  exact ⟨fun h h0 => h 0 h0 rfl, fun h b hb h0 => h (h0 ▸ hb)⟩

theorem beforeZero_append {s t : Text} (h : 0 ∉ s) : beforeZero (s ++ 0 :: t) = s := by
  refine (takeWhile_run (fun b hb => ?_) (stopsRun_cons.2 (by decide))).trans rfl
  have hne : b ≠ 0 := fun h0 => h (h0 ▸ hb)
  simpa using hne

end Text

theorem Decimal.zero_not_mem_ofNat (n : Nat) : 0 ∉ ofNat n := (isDigits_ofNat n).not_mem (by decide)

/-- Of the words for a fault only those bytes can be zero that it repeats. -/
theorem Fault.zero_mem_message {f : Fault} : 0 ∈ f.message ↔ 0 ∈ f.quoted := by
  have hname : 0 ∉ ascii "Invalid element name '" := by decide
  have hbyte : 0 ∉ ascii "Unexpected character '" := by decide
  have hquote : 0 ∉ ascii "'" := by decide
  cases f with
  | invalidName name => simp [message, quoted, hname, hquote]
  | unexpectedByte text => simp [message, quoted, hbyte, hquote]
  | expectedCount clause | countTooLarge clause =>
    cases clause with
    | limit | offset => exact iff_of_false (by decide +kernel) (by simp [quoted])
  | _ => exact iff_of_false (by decide +kernel) (by simp [quoted])

/-- The words for a parse error. -/
def ParseError.report (e : ParseError) : Text :=
  e.fault.message ++ ascii " at position " ++ Decimal.ofNat e.position

theorem ParseError.zero_mem_report {e : ParseError} : 0 ∈ e.report ↔ 0 ∈ e.fault.quoted := by
  have hwords : 0 ∉ ascii " at position " := by decide
  simp [report, hwords, Decimal.zero_not_mem_ofNat, Fault.zero_mem_message]

namespace Query

variable {rule : NameRule} {s : Text} {e : ParseError}

/-- A report holds a zero byte where the text has one at the position of the error. -/
theorem zero_mem_report_iff (h : Query.parse s rule = .error e) : 0 ∈ e.report ↔ s[e.position]? = some 0 := by
  rw [ParseError.zero_mem_report]
  constructor
  · intro hzero
    rcases parse_error_quotes h with hword | ⟨b, -, hb, hfault⟩
    · exact absurd (hword 0 hzero) (by decide)
    · obtain rfl : 0 = b := by simpa [hfault, Fault.quoted] using hzero
      exact hb
  · intro hzero
    rw [parse_error_of_stray h (by decide) (by decide) hzero]
    exact List.mem_singleton_self 0

/-- The report of a stray zero byte ends in front of it. -/
theorem beforeZero_report_of_zero (h : Query.parse s rule = .error e) (hs : s[e.position]? = some 0) :
    e.report.beforeZero = ascii "Unexpected character '" := by
  have hfault : e.fault = .unexpectedByte [0] := parse_error_of_stray h (by decide) (by decide) hs
  have hreport : e.report = ascii "Unexpected character '" ++
      0 :: (ascii "'" ++ ascii " at position " ++ Decimal.ofNat e.position) := by
    simp [ParseError.report, hfault, Fault.message]
  rw [hreport, Text.beforeZero_append (by decide)]

end Query

/-! ### Runs -/

namespace Command

/-- The configuration is in order, and the query is read from a file with the given text. -/
structure ReadsQueryFile (w : World) (gs : List FlagGroup) (text : Text) : Prop where
  help : .switch .help ∉ gs
  query : givenValue .query gs = []
  descriptor : givenValue .descriptor gs = []
  queryFile : givenValue .queryFile gs ≠ []
  contents : w.lookup (givenValue .queryFile gs) = .contents text
  settings : ∃ s, settings w (Options.ofGroups gs) = .ok s

variable {w : World} {args : List Text} {gs : List FlagGroup} {text : Text} {e : ParseError}

/-- A parse error is reported as far as its first zero byte. -/
theorem run_eq_of_parse_error (hgs : AreGroups gs args) (h : ReadsQueryFile w gs text)
    (he : Query.parse text w.names = .error e) :
    run w args = .finished 1 [] (errorLine (decide (.switch .noColor ∉ gs)) e.report.beforeZero) := by
  obtain ⟨s, hs⟩ := h.settings
  have htext : IsQueryText w gs text := .file rfl h.queryFile h.contents h.query h.descriptor
  have hfails : FailsWith w args gs e.report.beforeZero := .text ⟨hgs, h.help⟩ (settings_eq_ok.1 hs) htext he
  rw [hfails.run_eq, ← errorLine_ofGroups, Options.color_ofGroups]

/-- The report of a parse error is whole unless a zero byte is the fault; it then ends in front of that byte. -/
theorem run_reports_parse_error (hgs : AreGroups gs args) (h : ReadsQueryFile w gs text)
    (he : Query.parse text w.names = .error e) :
    (run w args = .finished 1 [] (errorLine (decide (.switch .noColor ∉ gs)) e.report) ↔
        text[e.position]? ≠ some 0) ∧
      (text[e.position]? = some 0 → run w args =
        .finished 1 [] (errorLine (decide (.switch .noColor ∉ gs)) (ascii "Unexpected character '"))) := by
  rw [run_eq_of_parse_error hgs h he]
  constructor
  · calc Outcome.finished 1 [] _ = .finished 1 [] (errorLine (decide (.switch .noColor ∉ gs)) e.report)
      ↔ e.report.beforeZero = e.report := by simp [errorLine_inj]
    _ ↔ 0 ∉ e.report := Text.beforeZero_eq_self
    _ ↔ text[e.position]? ≠ some 0 := not_congr (Query.zero_mem_report_iff he)
  · intro hzero
    rw [Query.beforeZero_report_of_zero he hzero]

theorem run_reports_stray_byte :
    ReadsQueryFile { lookup := fun path => if path = ascii "q" then .contents (ascii "SEARCH ?") else .missing }
        [.value .queryFile (ascii "q")] (ascii "SEARCH ?") ∧
      run { lookup := fun path => if path = ascii "q" then .contents (ascii "SEARCH ?") else .missing }
          [ascii "--query-file", ascii "q"] =
        .finished 1 [] (ascii "\x1b[31mError: Unexpected character '?' at position 7\x1b[0m\n") := by
  have hgs : AreGroups [.value .queryFile (ascii "q")] [ascii "--query-file", ascii "q"] :=
    ⟨rfl, by simp [FlagGroup.IsSuitable]⟩
  have hreads : ReadsQueryFile
      { lookup := fun path => if path = ascii "q" then .contents (ascii "SEARCH ?") else .missing }
      [.value .queryFile (ascii "q")] (ascii "SEARCH ?") :=
    ⟨by decide, by decide, by decide, by decide, by decide, ⟨{}, by rfl⟩⟩
  have he : Query.parse (ascii "SEARCH ?") = .error ⟨.unexpectedByte (ascii "?"), 7⟩ := by decide +kernel
  have hline : errorLine (decide (FlagGroup.switch .noColor ∉ [FlagGroup.value .queryFile (ascii "q")]))
      (ParseError.report ⟨.unexpectedByte (ascii "?"), 7⟩) =
      ascii "\x1b[31mError: Unexpected character '?' at position 7\x1b[0m\n" := by decide +kernel
  have hrun := (run_reports_parse_error hgs hreads he).1.2 (by decide)
  rw [hline] at hrun
  exact ⟨hreads, hrun⟩

/-- A zero byte is refused with its position, which does not get into the report. -/
theorem run_cuts_report_of_zero_byte :
    Query.parse (ascii "SEARCH " ++ [0]) = .error ⟨.unexpectedByte [0], 7⟩ ∧
      Fault.message (.unexpectedByte [0]) = ascii "Unexpected character '" ++ [0] ++ ascii "'" ∧
      run { lookup := fun path => if path = ascii "q" then .contents (ascii "SEARCH " ++ [0]) else .missing }
          [ascii "--query-file", ascii "q"] =
        .finished 1 [] (ascii "\x1b[31mError: Unexpected character '\x1b[0m\n") ∧
      run { lookup := fun path => if path = ascii "q" then .contents (ascii "SEARCH " ++ [0]) else .missing }
          [ascii "--query-file", ascii "q"] ≠
        .finished 1 [] (ascii "\x1b[31mError: Unexpected character '" ++ [0] ++ ascii "' at position 7\x1b[0m\n") := by
  decide +kernel

end Command

end DocSearch
