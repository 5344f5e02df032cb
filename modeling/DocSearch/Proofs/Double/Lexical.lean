import DocSearch.Proofs.Double.Writing

/-!
# Lexical forms of doubles

The text of a finite double is its sign and the shorter of the two notations of its shortest decimal.  It is read back
as the double, no text that is read as the double is shorter, and it is in fixed notation unless that needs more bytes
(`Double.IsBestText`, `Double.isBestText_lexical`).  A text reads as one double at most, so that doubles with the same
text are the same; the names of the infinities and of not-a-number have a letter where a number has its first digit
(`Double.lexical_not_special`).
-/

namespace DocSearch

namespace Double

variable {d : Double} {t : Text}

/-- The text of the sign. -/
def sign (d : Double) : Text := if d.isNegative then ['-'.toUInt8] else []

theorem lexical_of_finite (hd : d.isFinite = true) :
    d.lexical = d.sign ++ if d.magnitude = 0 then ascii "0" else numeral d.magnitude := by
  have hnumber : d.isNaN = false := by
    rw [isFinite, decide_eq_true_eq] at hd
    exact isNaN_eq_false.2 hd.le
  rw [lexical, if_neg (ne_true_of_eq_false hnumber), if_pos hd, sign]

theorem lexical_of_infinite (hnumber : d.isNaN = false) (hd : d.isFinite = false) :
    d.lexical = d.sign ++ ascii "INF" := by
  rw [lexical, if_neg (ne_true_of_eq_false hnumber), if_neg (ne_true_of_eq_false hd), sign]

/-- A text in fixed notation is read by rounding what stands behind its sign. -/
theorem readsFixed_iff (hd : d.isFinite = true) :
    d.ReadsFixed t ↔ ∃ n : Numeral,
      n.negative = d.isNegative ∧ d.sign ++ n.unsigned = t ∧ RoundsTo n.size d.magnitude := by
  have hsign : ∀ n : Numeral, n.negative = d.isNegative → n.text = d.sign ++ n.unsigned := by
    intro n hn
    rw [Numeral.text, Numeral.sign, hn]
    rfl
  constructor
  · rintro ⟨n, rfl, hn, hnearest⟩
    rw [Numeral.value, hn, isNearest_iff_roundsTo hd n.size_nonneg] at hnearest
    exact ⟨n, hn, (hsign n hn).symm, hnearest⟩
  · rintro ⟨n, hn, rfl, hround⟩
    refine ⟨n, hsign n hn, hn, ?_⟩
    rw [Numeral.value, hn, isNearest_iff_roundsTo hd n.size_nonneg]
    exact hround

theorem readsScientific_iff (hd : d.isFinite = true) :
    d.ReadsScientific t ↔ ∃ n : PowerNumeral,
      n.mantissa.negative = d.isNegative ∧ d.sign ++ n.unsigned = t ∧ RoundsTo n.size d.magnitude := by
  have hsign : ∀ n : PowerNumeral, n.mantissa.negative = d.isNegative → n.text = d.sign ++ n.unsigned := by
    intro n hn
    rw [PowerNumeral.text, Numeral.text, Numeral.sign, hn, List.append_assoc]
    rfl
  constructor
  · rintro ⟨n, rfl, hn, hnearest⟩
    rw [PowerNumeral.value, hn, isNearest_iff_roundsTo hd n.size_nonneg] at hnearest
    exact ⟨n, hn, (hsign n hn).symm, hnearest⟩
  · rintro ⟨n, hn, rfl, hround⟩
    refine ⟨n, hsign n hn, hn, ?_⟩
    rw [PowerNumeral.value, hn, isNearest_iff_roundsTo hd n.size_nonneg]
    exact hround

/-- Either notation of the shortest decimal is read back. -/
theorem reads_notations (hd : d.isFinite = true) (hm : 0 < d.magnitude) :
    d.ReadsFixed (d.sign ++ positional d.magnitude (shortest d.magnitude)) ∧
      d.ReadsScientific (d.sign ++ scientific (shortest d.magnitude)) := by
  have h := isShortest_shortest hm
  rw [readsFixed_iff hd, readsScientific_iff hd]
  generalize shortest d.magnitude = x at h
  constructor
  · rcases lt_or_ge x.exponent 0 with he | he
    · obtain ⟨n, hn, htext, hsize⟩ := Scientific.exists_positional_of_neg d.isNegative he d.magnitude
      exact ⟨n, hn, by rw [htext], hsize ▸ h.rounds⟩
    · obtain ⟨n, hn, htext, hsize⟩ := Scientific.exists_positional_of_dvd d.isNegative he (h.one_dvd hm he)
      exact ⟨n, hn, by rw [htext], hsize ▸ .size_self _⟩
  · obtain ⟨n, hn, htext, hsize⟩ := Scientific.exists_scientific d.isNegative x
    exact ⟨n, hn, by rw [htext], hsize ▸ h.rounds⟩

/-- The text of a finite double is read back, no text that is read as the double is shorter, and it is in fixed notation
if that is possible without more bytes. -/
structure IsBestText (d : Double) (t : Text) : Prop where
  reads : d.ReadsFrom t
  le : ∀ t', d.ReadsFrom t' → t.length ≤ t'.length
  fixed : ∀ t', d.ReadsFixed t' → t'.length = t.length → d.ReadsFixed t

/-- A text that is read as a finite double has a digit behind its sign. -/
theorem ReadsFrom.exists_unsigned (hd : d.isFinite = true) (h : d.ReadsFrom t) :
    ∃ b s, isDigit b = true ∧ t = d.sign ++ b :: s := by
  rcases h with h | h
  · obtain ⟨n, -, rfl, -⟩ := (readsFixed_iff hd).1 h
    obtain ⟨b, s, hs, hb⟩ := n.unsigned_eq_cons
    exact ⟨b, s, hb, by rw [hs]⟩
  · obtain ⟨n, -, rfl, -⟩ := (readsScientific_iff hd).1 h
    obtain ⟨b, s, hs, hb⟩ := n.mantissa.unsigned_eq_cons
    exact ⟨b, s ++ n.powerText, hb, by rw [PowerNumeral.unsigned, hs, List.cons_append]⟩

private theorem isBestText_zero (hd : d.isFinite = true) (hm : d.magnitude = 0) :
    d.IsBestText (d.sign ++ ascii "0") := by
  have hzero : IsDigits (ascii "0") := by
    have htext : ascii "0" = ['0'.toUInt8] := by decide
    rw [htext]
    exact isDigits_singleton (by decide)
  have hreads : d.ReadsFixed (d.sign ++ ascii "0") := by
    rw [readsFixed_iff hd, hm]
    refine ⟨⟨d.isNegative, ascii "0", none, hzero, nofun⟩, rfl, congrArg (d.sign ++ ·) (List.append_nil _), ?_⟩
    have hvalue : Decimal.value (ascii "0" ++ []) = 0 := by decide
    have hround : RoundsTo (size 0) 0 := .size_self 0
    rw [size_zero] at hround
    rw [Numeral.size_eq, Numeral.digits, Option.getD_none, hvalue, Nat.cast_zero, zero_mul]
    exact hround
  refine ⟨Or.inl hreads, fun t' h => ?_, fun _ _ _ => hreads⟩
  obtain ⟨b, s, -, rfl⟩ := h.exists_unsigned hd
  have hone : (ascii "0").length = 1 := by decide
  rw [List.length_append, List.length_append, List.length_cons, hone]
  omega

private theorem isBestText_numeral (hd : d.isFinite = true) (hm : 0 < d.magnitude) :
    d.IsBestText (d.sign ++ numeral d.magnitude) := by
  have h := isShortest_shortest hm
  obtain ⟨hpositional, hscientific⟩ := reads_notations hd hm
  have hlt : d.magnitude < infinity := by simpa [isFinite] using hd
  have hscientific' : ∀ t', d.ReadsScientific t' →
      (d.sign ++ scientific (shortest d.magnitude)).length ≤ t'.length := by
    intro t' ht'
    obtain ⟨n, -, rfl, hround⟩ := (readsScientific_iff hd).1 ht'
    rw [List.length_append, List.length_append]
    exact Nat.add_le_add_left (h.length_scientific_le hm hlt hround) _
  have hfixed : ∀ t', d.ReadsFixed t' →
      (d.sign ++ positional d.magnitude (shortest d.magnitude)).length ≤ t'.length ∨
        (d.sign ++ scientific (shortest d.magnitude)).length < t'.length := by
    intro t' ht'
    obtain ⟨n, -, rfl, hround⟩ := (readsFixed_iff hd).1 ht'
    rw [List.length_append, List.length_append, List.length_append]
    have := h.length_positional_le_or hm hlt hround
    omega
  unfold numeral
  dsimp only
  generalize positional d.magnitude (shortest d.magnitude) = p at *
  generalize scientific (shortest d.magnitude) = s at *
  rw [List.length_append, List.length_append] at hfixed
  rw [List.length_append] at hscientific'
  by_cases hle : p.length ≤ s.length
  · rw [if_pos hle]
    refine ⟨Or.inl hpositional, fun t' ht' => ?_, fun _ _ _ => hpositional⟩
    rw [List.length_append]
    rcases ht' with ht' | ht'
    · have := hfixed t' ht'
      omega
    · have := hscientific' t' ht'
      omega
  · rw [if_neg hle]
    refine ⟨Or.inr hscientific, fun t' ht' => ?_, fun t' ht' hlength => ?_⟩
    · rw [List.length_append]
      rcases ht' with ht' | ht'
      · have := hfixed t' ht'
        omega
      · exact hscientific' t' ht'
    · rw [List.length_append] at hlength
      have := hfixed t' ht'
      omega

theorem isBestText_lexical (hd : d.isFinite = true) : d.IsBestText d.lexical := by
  rw [lexical_of_finite hd]
  by_cases hm : d.magnitude = 0
  · rw [if_pos hm]
    exact isBestText_zero hd hm
  · rw [if_neg hm]
    exact isBestText_numeral hd (Nat.pos_of_ne_zero hm)

/-- The names of the doubles that are not finite. -/
def specialNames : List Text := [ascii "INF", ascii "-INF", ascii "NaN"]

theorem lexical_not_special (hd : d.isFinite = true) : d.lexical ∉ specialNames := by
  obtain ⟨b, s, hb, hs⟩ := (isBestText_lexical hd).reads.exists_unsigned hd
  have hnames : specialNames = [[73, 78, 70], [45, 73, 78, 70], [78, 97, 78]] := by decide
  rw [hs, hnames, sign]
  intro hmem
  -- the name has a letter where the text has its first digit
  have hletter : b = 73 ∨ b = 45 ∨ b = 78 := by
    split at hmem
    · simp at hmem
      tauto
    · simp at hmem
      tauto
  rcases hletter with rfl | rfl | rfl <;> revert hb <;> decide

/-- The magnitude of an infinity. -/
theorem magnitude_of_infinite (hnumber : d.isNaN = false) (hd : d.isFinite = false) : d.magnitude = infinity := by
  have hle := isNaN_eq_false.1 hnumber
  rw [isFinite, decide_eq_false_iff_not] at hd
  omega

theorem lexical_of_infinite_special (hnumber : d.isNaN = false) (hd : d.isFinite = false) :
    d.lexical ∈ specialNames := by
  rw [lexical_of_infinite hnumber hd, sign]
  cases d.isNegative <;> decide

/-- Doubles with the same text are the same. -/
theorem eq_of_lexical_eq {d' : Double} (hd : d.isNaN = false) (hd' : d'.isNaN = false) (h : d.lexical = d'.lexical) :
    d = d' := by
  cases hfinite : d.isFinite with
  | true =>
    cases hfinite' : d'.isFinite with
    | true =>
      have hreads := (isBestText_lexical hfinite').reads
      rw [← h] at hreads
      exact (isBestText_lexical hfinite).reads.unique hreads
    | false => exact absurd (h ▸ lexical_of_infinite_special hd' hfinite') (lexical_not_special hfinite)
  | false =>
    cases hfinite' : d'.isFinite with
    | true => exact absurd (h ▸ lexical_of_infinite_special hd hfinite) (lexical_not_special hfinite')
    | false =>
      rw [lexical_of_infinite hd hfinite, lexical_of_infinite hd' hfinite'] at h
      have hsign := List.append_cancel_right h
      have hnegative : d.isNegative = d'.isNegative := by
        unfold sign at hsign
        revert hsign
        cases d.isNegative <;> cases d'.isNegative <;> decide
      rw [← ofMagnitude_magnitude d, ← ofMagnitude_magnitude d', magnitude_of_infinite hd hfinite,
        magnitude_of_infinite hd' hfinite', hnegative]

/-- The text of a finite double is read as that double and as no other one, no text that is read as it is shorter, fixed
notation is used where it is as short, and the text is no name of a double that is not finite.  So different numbers
have different texts. -/
theorem lexical_shortest :
    (∀ d : Double, d.isFinite = true →
      (∀ d' : Double, d'.ReadsFrom d.lexical ↔ d' = d) ∧
      (∀ t, d.ReadsFrom t → d.lexical.length ≤ t.length) ∧
      (∀ t, d.ReadsFixed t → t.length = d.lexical.length → d.ReadsFixed d.lexical) ∧
      d.lexical ∉ specialNames) ∧
    ∀ d d' : Double, d.isNaN = false → d'.isNaN = false → d ≠ d' → d.lexical ≠ d'.lexical := by
  refine ⟨fun d hd => ?_, fun d d' hd hd' hne h => hne (eq_of_lexical_eq hd hd' h)⟩
  have hbest := isBestText_lexical hd
  refine ⟨fun d' => ⟨fun h => h.unique hbest.reads, ?_⟩, hbest.le, hbest.fixed, lexical_not_special hd⟩
  rintro rfl
  exact hbest.reads

/-- The least positive double and the next one. -/
theorem lexical_shortest_leastPositive :
    (⟨1⟩ : Double).ReadsFrom (ascii "5e-324") ∧ (∀ t, (⟨1⟩ : Double).ReadsFrom t → 6 ≤ t.length) ∧
      (⟨1⟩ : Double).lexical ≠ (⟨2⟩ : Double).lexical := by
  obtain ⟨hfinite, hdifferent⟩ := lexical_shortest
  obtain ⟨hreads, hle, -, -⟩ := hfinite ⟨1⟩ (by decide)
  have htext : (⟨1⟩ : Double).lexical = ascii "5e-324" := by decide +kernel
  have hlength : (ascii "5e-324").length = 6 := by decide
  rw [htext] at hreads hle
  refine ⟨(hreads ⟨1⟩).2 rfl, fun t ht => hlength ▸ hle t ht, ?_⟩
  exact hdifferent ⟨1⟩ ⟨2⟩ (by decide) (by decide) (by decide)

end Double

end DocSearch
