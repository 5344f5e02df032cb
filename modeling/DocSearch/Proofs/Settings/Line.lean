import DocSearch.Proofs.Settings.Assignments
import Mathlib.Data.List.Basic
import Mathlib.Data.List.Induction
import Mathlib.Tactic.Conv

/-!
# Lines of a configuration file

What a line says is known from its parts without the blanks around them: a line opens a section if it is a bracketed
text (`SettingLine.ofLine_eq_header`), and it assigns a value if its first equals sign stands behind a key
(`SettingLine.ofLine_eq_assignment`).  The lines of a text assign the same whether or not the last one ends with a line
feed (`IsTextOf.assignments_eq`).
-/

namespace DocSearch

/-! ### Blanks at the ends of a text -/

def IsBlankText (s : Text) : Prop := ∀ b ∈ s, isBlank b = true

theorem isBlankText_nil : IsBlankText [] := by
  intro b hb
  cases hb

theorem IsBlankText.append {s t : Text} (hs : IsBlankText s) (ht : IsBlankText t) : IsBlankText (s ++ t) :=
  List.forall_mem_append.2 ⟨hs, ht⟩

theorem IsBlankText.not_mem {s : Text} (hs : IsBlankText s) {b : UInt8} (hb : isBlank b = false) : b ∉ s := by
  intro hmem
  rw [hs b hmem] at hb
  cases hb

namespace Text

variable {p q s t : Text}

theorem trim_eq_self (hfirst : StopsRun isBlank s) (hlast : StopsRun isBlank s.reverse) : s.trim = s := by
  rw [trim, dropWhile_eq_self_of_stopsRun hfirst, dropWhile_eq_self_of_stopsRun hlast, List.reverse_reverse]

theorem trim_of_isBlankText (hs : IsBlankText s) : s.trim = [] := by
  have hdrop : s.dropWhile isBlank = [] := List.dropWhile_eq_nil_iff.2 hs
  rw [trim, hdrop]
  rfl

/-- A text that neither starts nor ends with a blank is what remains of it between blanks. -/
theorem trim_eq_of_padded (hp : IsBlankText p) (hq : IsBlankText q) (hfirst : StopsRun isBlank t)
    (hlast : StopsRun isBlank t.reverse) : (p ++ t ++ q).trim = t := by
  cases t with
  | nil =>
    rw [List.append_nil]
    exact trim_of_isBlankText (hp.append hq)
  | cons b t =>
    have hdrop : (p ++ (b :: t ++ q)).dropWhile isBlank = b :: t ++ q :=
      dropWhile_run hp (stopsRun_cons.2 (stopsRun_cons.1 hfirst))
    have hreverse : (q.reverse ++ (b :: t).reverse).dropWhile isBlank = (b :: t).reverse :=
      dropWhile_run (fun c hc => hq c (List.mem_reverse.1 hc)) hlast
    rw [trim, List.append_assoc, hdrop, List.reverse_append, hreverse, List.reverse_reverse]

/-- Trimming takes blanks away at both ends. -/
theorem exists_trim (s : Text) : ∃ p q, IsBlankText p ∧ IsBlankText q ∧ s = p ++ s.trim ++ q := by
  have hfront := List.takeWhile_append_dropWhile (p := isBlank) (l := s)
  have hback := List.takeWhile_append_dropWhile (p := isBlank) (l := (s.dropWhile isBlank).reverse)
  have hsplit := congrArg List.reverse hback
  rw [List.reverse_append, List.reverse_reverse] at hsplit
  refine ⟨s.takeWhile isBlank, ((s.dropWhile isBlank).reverse.takeWhile isBlank).reverse, all_takeWhile _ _, ?_,
    ?_⟩
  · intro b hb
    exact all_takeWhile _ _ b (List.mem_reverse.1 hb)
  · rw [List.append_assoc, trim, hsplit, hfront]

theorem stopsRun_trim_reverse (s : Text) : StopsRun isBlank s.trim.reverse := by
  rw [trim, List.reverse_reverse]
  exact stopsRun_dropWhile _ _

theorem stopsRun_trim (s : Text) : StopsRun isBlank s.trim := by
  have hback := List.takeWhile_append_dropWhile (p := isBlank) (l := (s.dropWhile isBlank).reverse)
  have hsplit := congrArg List.reverse hback
  rw [List.reverse_append, List.reverse_reverse] at hsplit
  intro b hb
  refine stopsRun_dropWhile isBlank s b ?_
  rw [Option.mem_def, trim] at hb
  rw [← hsplit, List.head?_append, hb]
  rfl

/-- Blanks around a text do not show once it is trimmed. -/
theorem trim_padded (hp : IsBlankText p) (hq : IsBlankText q) (s : Text) : (p ++ s ++ q).trim = s.trim := by
  obtain ⟨p', q', hp', hq', hs⟩ := exists_trim s
  have hsplit : p ++ s ++ q = p ++ p' ++ s.trim ++ (q' ++ q) := by
    conv_lhs => rw [hs]
    simp only [List.append_assoc]
  rw [hsplit]
  exact trim_eq_of_padded (hp.append hp') (hq'.append hq) (stopsRun_trim s) (stopsRun_trim_reverse s)

theorem trim_append_blanks (hq : IsBlankText q) (s : Text) : (s ++ q).trim = s.trim :=
  trim_padded isBlankText_nil hq s

theorem trim_blanks_append (hp : IsBlankText p) (s : Text) : (p ++ s).trim = s.trim := by
  have h := trim_padded hp isBlankText_nil s
  rwa [List.append_nil] at h

theorem trim_trim (s : Text) : s.trim.trim = s.trim :=
  trim_eq_self (stopsRun_trim s) (stopsRun_trim_reverse s)

/-- A text that starts with no blank keeps its first byte. -/
theorem head?_trim (h : StopsRun isBlank s) : s.trim.head? = s.head? := by
  obtain ⟨p, q, hp, hq, hs⟩ := exists_trim s
  cases p with
  | nil =>
    cases ht : s.trim with
    | nil =>
      rw [ht, List.append_nil, List.nil_append] at hs
      subst hs
      cases s with
      | nil => rfl
      | cons b s =>
        have hb := hq b (List.mem_cons_self ..)
        rw [stopsRun_cons.1 h] at hb
        cases hb
    | cons b t =>
      rw [ht] at hs
      rw [hs]
      rfl
  | cons b p =>
    rw [hs, List.append_assoc, List.cons_append] at h
    have hb := hp b (List.mem_cons_self ..)
    rw [stopsRun_cons.1 h] at hb
    cases hb

theorem trim_reverse (s : Text) : trim s.reverse = s.trim.reverse := by
  obtain ⟨p, q, hp, hq, hs⟩ := exists_trim s
  have hreverse : s.reverse = q.reverse ++ s.trim.reverse ++ p.reverse := by
    conv_lhs => rw [hs]
    simp only [List.reverse_append, List.append_assoc]
  rw [hreverse]
  refine trim_eq_of_padded (fun b hb => hq b (List.mem_reverse.1 hb)) (fun b hb => hp b (List.mem_reverse.1 hb))
    (stopsRun_trim_reverse s) ?_
  rw [List.reverse_reverse]
  exact stopsRun_trim s

/-- A text that ends with no blank keeps its last byte. -/
theorem getLast?_trim (h : StopsRun isBlank s.reverse) : s.trim.getLast? = s.getLast? := by
  have hhead := head?_trim h
  rwa [trim_reverse, List.head?_reverse, List.head?_reverse] at hhead

/-- The blanks at the ends of a text around a byte that is none are those in front of the part on the left and those
behind the part on the right. -/
theorem exists_trim_append (left right : Text) {b : UInt8} (hb : isBlank b = false) :
    ∃ l r, trim (left ++ b :: right) = l ++ b :: r ∧ trim l = left.trim ∧ trim r = right.trim ∧
      l.head? = left.trim.head? ∧ r.getLast? = right.trim.getLast? ∧ ∀ c ∈ l, c ∈ left := by
  have hfront := List.takeWhile_append_dropWhile (p := isBlank) (l := left)
  have hback := congrArg List.reverse (List.takeWhile_append_dropWhile (p := isBlank) (l := right.reverse))
  rw [List.reverse_append, List.reverse_reverse] at hback
  have hp : IsBlankText (left.takeWhile isBlank) := all_takeWhile _ _
  have hq : IsBlankText (right.reverse.takeWhile isBlank).reverse :=
    fun c hc => all_takeWhile _ _ c (List.mem_reverse.1 hc)
  have hl := stopsRun_dropWhile isBlank left
  have hr := stopsRun_dropWhile isBlank right.reverse
  generalize left.takeWhile isBlank = p at hfront hp
  generalize left.dropWhile isBlank = l at hfront hl
  generalize (right.reverse.takeWhile isBlank).reverse = q at hback hq
  generalize right.reverse.dropWhile isBlank = r at hback hr
  subst hfront hback
  have htrim : trim (p ++ l ++ b :: (r.reverse ++ q)) = l ++ b :: r.reverse := by
    have hsplit : p ++ l ++ b :: (r.reverse ++ q) = p ++ (l ++ b :: r.reverse) ++ q := by simp
    rw [hsplit]
    refine trim_eq_of_padded hp hq ?_ ?_
    · cases l with
      | nil => exact stopsRun_cons.2 hb
      | cons c l => exact stopsRun_cons.2 (stopsRun_cons.1 hl)
    · rw [List.reverse_append, List.reverse_cons, List.reverse_reverse, List.append_assoc]
      cases r with
      | nil => exact stopsRun_cons.2 hb
      | cons c r => exact stopsRun_cons.2 (stopsRun_cons.1 hr)
  refine ⟨l, r.reverse, htrim, (trim_blanks_append hp l).symm, (trim_append_blanks hq _).symm, ?_, ?_, ?_⟩
  · rw [trim_blanks_append hp, head?_trim hl]
  · rw [trim_append_blanks hq, getLast?_trim (by rwa [List.reverse_reverse])]
  · exact fun c hc => List.mem_append_right _ hc

end Text

/-! ### What a line says -/

theorem bracketed?_eq_some {s inner : Text} :
    bracketed? s = some inner ↔ s = '['.toUInt8 :: inner ++ [']'.toUInt8] := by
  unfold bracketed?
  constructor
  · intro h
    split at h
    · rename_i hs
      cases h
      obtain ⟨hfirst, hlast⟩ := hs
      cases s with
      | nil => cases hfirst
      | cons b s =>
        cases hfirst
        cases s using List.reverseRecOn with
        | nil => cases hlast
        | append_singleton s c =>
          rw [← List.cons_append, List.getLast?_concat, Option.some.injEq] at hlast
          rw [hlast, ← List.cons_append, List.drop_one, List.cons_append, List.tail_cons, List.dropLast_concat]
          rfl
    · cases h
  · rintro rfl
    rw [if_pos ⟨rfl, List.getLast?_concat⟩]
    simp

theorem bracketed?_eq_none {s : Text} :
    bracketed? s = none ↔ ¬ (s.head? = some '['.toUInt8 ∧ s.getLast? = some ']'.toUInt8) := by
  unfold bracketed?
  split
  · rename_i hs
    exact iff_of_false nofun (not_not.2 hs)
  · rename_i hs
    exact iff_of_true rfl hs

namespace SettingLine

variable {line key value name left right : Text}

theorem ofLine_padded {p q : Text} (hp : IsBlankText p) (hq : IsBlankText q) (line : Text) :
    ofLine (p ++ line ++ q) = ofLine line := by
  rw [ofLine, Text.trim_padded hp hq, ofLine]

/-- A line opens a section if it is a bracketed text. -/
theorem ofLine_eq_header :
    ofLine line = .header name ↔
      ∃ inner : Text, line.trim = '['.toUInt8 :: inner ++ [']'.toUInt8] ∧ inner.trim = name := by
  unfold ofLine ofTrimmed
  constructor
  · intro h
    split at h
    · cases h
    · split at h
      · rename_i inner hinner
        cases h
        exact ⟨inner, bracketed?_eq_some.1 hinner, rfl⟩
      · split at h
        · cases h
        · split at h <;> cases h
  · rintro ⟨inner, htrim, rfl⟩
    have hbracket := bracketed?_eq_some.2 htrim
    have hopen : ('['.toUInt8 == '#'.toUInt8) = false := by decide
    simp only [hbracket]
    simp [htrim, hopen]

/-- The texts on both sides of the first equals sign, without blanks around them, make the line an assignment. -/
structure Assigns (key value : Text) : Prop where
  key_ne_nil : key ≠ []
  no_comment : key.head? ≠ some '#'.toUInt8
  no_header : ¬ (key.head? = some '['.toUInt8 ∧ value.getLast? = some ']'.toUInt8)

private theorem isBlank_equals : isBlank '='.toUInt8 = false := by decide

/-- Trimming a line does not change what is on the two sides of its first equals sign. -/
private theorem ofLine_equals (hleft : '='.toUInt8 ∉ left) (h : Assigns left.trim right.trim) :
    ofLine (left ++ '='.toUInt8 :: right) = .assignment left.trim right.trim := by
  obtain ⟨l, r, htrim, hl, hr, hhead, hlast, hsub⟩ := Text.exists_trim_append left right isBlank_equals
  have hcut : (l ++ '='.toUInt8 :: r).cut '='.toUInt8 = some (l, r) :=
    Text.cut_eq_some.2 ⟨rfl, fun hmem => hleft (hsub _ hmem)⟩
  have hne : l ≠ [] := by
    intro hnil
    rw [hnil] at hl
    exact h.key_ne_nil hl.symm
  have hfirst : (l ++ '='.toUInt8 :: r).head? = left.trim.head? := by
    rw [List.head?_append_of_ne_nil _ hne, hhead]
  have hcomment : ((l ++ '='.toUInt8 :: r).isEmpty || (l ++ '='.toUInt8 :: r).head? == some '#'.toUInt8) = false := by
    rw [hfirst, Bool.or_eq_false_iff, beq_eq_false_iff_ne]
    exact ⟨by simp, h.no_comment⟩
  have hbracket : bracketed? (l ++ '='.toUInt8 :: r) = none := by
    rw [bracketed?_eq_none, hfirst, List.getLast?_append_cons]
    rintro ⟨hopen, hclose⟩
    rw [List.getLast?_cons, hlast] at hclose
    cases hv : right.trim.getLast? with
    | none =>
      rw [hv] at hclose
      exact absurd hclose (by decide)
    | some b =>
      rw [hv] at hclose
      exact h.no_header ⟨hopen, hv.trans hclose⟩
  have hempty : left.trim.isEmpty = false := by
    rw [List.isEmpty_eq_false_iff]
    exact h.key_ne_nil
  simp only [ofLine, ofTrimmed, htrim, hcomment, hbracket, hcut, hl, hr, hempty, Bool.false_eq_true, if_false]

/-- A line without blanks around it that assigns is cut at its first equals sign. -/
private theorem exists_of_ofTrimmed {s : Text} (h : ofTrimmed s = .assignment key value) :
    ∃ l r : Text, s = l ++ '='.toUInt8 :: r ∧ '='.toUInt8 ∉ l ∧ l.trim = key ∧ r.trim = value ∧ key ≠ [] ∧
      s.head? ≠ some '#'.toUInt8 ∧ ¬ (s.head? = some '['.toUInt8 ∧ s.getLast? = some ']'.toUInt8) := by
  unfold ofTrimmed at h
  split at h
  · cases h
  rename_i hcomment
  split at h
  · cases h
  rename_i hbracket
  split at h
  · cases h
  rename_i l r hcut
  split at h
  · cases h
  rename_i hne
  cases h
  obtain ⟨rfl, hl⟩ := Text.cut_eq_some.1 hcut
  rw [List.isEmpty_iff] at hne
  rw [Bool.or_eq_true, not_or, beq_iff_eq] at hcomment
  exact ⟨l, r, rfl, hl, rfl, rfl, hne, hcomment.2, bracketed?_eq_none.1 hbracket⟩

/-- If a text that ends with no blank ends behind an equals sign with some byte, the text itself ends with it. -/
private theorem getLast?_of_trim {l r : Text} (hstop : StopsRun isBlank (l ++ '='.toUInt8 :: r).reverse) {b : UInt8}
    (h : r.trim.getLast? = some b) : (l ++ '='.toUInt8 :: r).getLast? = some b := by
  cases r using List.reverseRecOn with
  | nil => cases h
  | append_singleton r c =>
    rw [← List.cons_append, ← List.append_assoc, List.reverse_concat] at hstop
    rw [Text.getLast?_trim (by rwa [List.reverse_concat]), List.getLast?_concat] at h
    rw [← List.cons_append, ← List.append_assoc, List.getLast?_concat]
    exact h

/-- A line assigns a value if its first equals sign stands behind a key, and it is neither a comment nor a bracketed
text. -/
theorem ofLine_eq_assignment :
    ofLine line = .assignment key value ↔
      ∃ left right : Text, line = left ++ '='.toUInt8 :: right ∧ '='.toUInt8 ∉ left ∧
        left.trim = key ∧ right.trim = value ∧ Assigns key value := by
  constructor
  · intro h
    obtain ⟨p, q, hp, hq, hline⟩ := Text.exists_trim line
    have hstop := Text.stopsRun_trim line
    have hstop' := Text.stopsRun_trim_reverse line
    obtain ⟨l, r, htrim, hl, rfl, rfl, hne, hcomment, hbracket⟩ := exists_of_ofTrimmed h
    rw [htrim] at hline hstop hstop' hcomment hbracket
    have hhead : l.trim.head? = (l ++ '='.toUInt8 :: r).head? := by
      cases l with
      | nil => exact absurd rfl hne
      | cons b l => exact Text.head?_trim (stopsRun_cons.2 (stopsRun_cons.1 hstop))
    refine ⟨p ++ l, r ++ q, ?_, ?_, Text.trim_blanks_append hp l, Text.trim_append_blanks hq r, hne, ?_, ?_⟩
    · rw [hline]
      simp only [List.append_assoc, List.cons_append]
    · rw [List.mem_append]
      exact not_or.2 ⟨hp.not_mem isBlank_equals, hl⟩
    · rw [hhead]
      exact hcomment
    · rintro ⟨hopen, hclose⟩
      exact hbracket ⟨hhead ▸ hopen, getLast?_of_trim hstop' hclose⟩
  · rintro ⟨left, right, rfl, hleft, rfl, rfl, h⟩
    exact ofLine_equals hleft h

end SettingLine

/-! ### Lines that assign -/

/-- The line that assigns a value to a key. -/
def assignLine (key value : Text) : Text := key ++ ascii " = " ++ value

/-- A text that may stand in front of an equals sign as it is. -/
def IsKeyName (key : Text) : Prop :=
  key.trim = key ∧ key ≠ [] ∧ key.head? ≠ some '#'.toUInt8 ∧ key.head? ≠ some '['.toUInt8 ∧ '='.toUInt8 ∉ key

theorem ofLine_assignLine {key value : Text} (hkey : IsKeyName key) (hvalue : value.trim = value) :
    SettingLine.ofLine (assignLine key value) = .assignment key value := by
  obtain ⟨htrim, hne, hcomment, hbracket, hequals⟩ := hkey
  have hblank : IsBlankText [32] := List.forall_mem_singleton.2 rfl
  have hmiddle : ascii " = " = [32] ++ '='.toUInt8 :: [32] := by decide
  have hsplit : assignLine key value = key ++ [32] ++ '='.toUInt8 :: ([32] ++ value) := by
    rw [assignLine, hmiddle]
    simp only [List.append_assoc, List.cons_append]
  refine SettingLine.ofLine_eq_assignment.2 ⟨key ++ [32], [32] ++ value, hsplit, ?_, ?_, ?_, hne, hcomment, ?_⟩
  · rw [List.mem_append]
    exact not_or.2 ⟨hequals, by decide⟩
  · rw [Text.trim_append_blanks hblank, htrim]
  · rw [Text.trim_blanks_append hblank, hvalue]
  · rintro ⟨hopen, -⟩
    exact hbracket hopen

/-! ### Texts of lines -/

/-- The given lines with a line feed behind each. -/
def Text.ofLines (lines : List Text) : Text := lines.flatMap (· ++ [10])

/-- The text of the given lines; the line feed behind the last one may be missing. -/
def IsTextOf (text : Text) (lines : List Text) : Prop :=
  text = Text.ofLines lines ∨ text ++ [10] = Text.ofLines lines

namespace Text

/-- Lines hold no line feed. -/
theorem not_mem_of_mem_lines (s : Text) : ∀ l ∈ s.lines, 10 ∉ l := by
  induction s with
  | nil => exact nofun
  | cons b s ih =>
    unfold lines
    split
    · intro l hl
      rcases List.mem_cons.1 hl with rfl | hl
      · exact List.not_mem_nil
      · exact ih l hl
    · rename_i hb
      have hb' : (10 : UInt8) ≠ b := fun h => hb h.symm
      split
      · intro l hl
        rw [List.mem_singleton.1 hl, List.mem_singleton]
        exact hb'
      · rename_i l' ls hs
        rw [hs] at ih
        intro l hl
        rcases List.mem_cons.1 hl with rfl | hl
        · rw [List.mem_cons, not_or]
          exact ⟨hb', ih l' (List.mem_cons_self ..)⟩
        · exact ih l (List.mem_cons_of_mem _ hl)

private theorem lines_append_feed {l : Text} (hl : 10 ∉ l) (s : Text) : lines (l ++ 10 :: s) = l :: lines s := by
  induction l with
  | nil =>
    rw [List.nil_append, lines, if_pos rfl]
  | cons b l ih =>
    rw [List.mem_cons, not_or] at hl
    rw [List.cons_append, lines, if_neg (fun h => hl.1 h.symm), ih hl.2]

theorem lines_ofLines {ls : List Text} (h : ∀ l ∈ ls, 10 ∉ l) : lines (ofLines ls) = ls := by
  induction ls with
  | nil => rfl
  | cons l ls ih =>
    have hsplit : ofLines (l :: ls) = l ++ 10 :: ofLines ls := by
      simp [ofLines]
    rw [hsplit, lines_append_feed (h l (List.mem_cons_self ..)), ih fun l' hl' => h l' (List.mem_cons_of_mem _ hl')]

/-- A line feed at the end of a text ends the last line, or it is an empty line itself. -/
private theorem lines_concat_feed (s : Text) :
    lines (s ++ [10]) = lines s ∨ lines (s ++ [10]) = lines s ++ [[]] := by
  induction s with
  | nil => exact Or.inr rfl
  | cons b s ih =>
    rw [List.cons_append]
    unfold lines
    by_cases hb : b = 10
    · rw [if_pos hb, if_pos hb]
      rcases ih with h | h
      · exact Or.inl (by rw [h])
      · exact Or.inr (by rw [h, List.cons_append])
    · rw [if_neg hb, if_neg hb]
      rcases ih with h | h
      · exact Or.inl (by rw [h])
      · rw [h]
        cases lines s with
        | nil => exact Or.inl rfl
        | cons l ls => exact Or.inr rfl

end Text

/-- The lines of a text assign what the lines that it was made of do. -/
theorem IsTextOf.assignments_eq {text : Text} {lines : List Text} (h : IsTextOf text lines)
    (hfeed : ∀ l ∈ lines, 10 ∉ l) (section_ : Text) (n : Nat) :
    assignments section_ n text.lines = assignments section_ n lines := by
  have hempty : ∀ ls : List Text, assignments section_ n (ls ++ [[]]) = assignments section_ n ls := by
    intro ls
    have hline : ∀ s k, assignments s k [[]] = [] := fun _ _ => rfl
    rw [assignments_append, hline, List.append_nil]
  rcases h with rfl | h
  · rw [Text.lines_ofLines hfeed]
  · have hlines := Text.lines_ofLines hfeed
    rw [← h] at hlines
    rcases text.lines_concat_feed with hconcat | hconcat
    · rw [← hconcat, hlines]
    · rw [hconcat] at hlines
      rw [← hlines, hempty]

/-- A text is loaded by carrying out the assignments in its lines. -/
theorem Settings.load_contents (path : Text) (mustExist : Bool) (text : Text) :
    Settings.load path mustExist (.contents text) =
      if path.isEmpty then ({}, some .absent) else ({} : Settings).assignAll (assignments [] 1 text.lines) := by
  rw [← readLines_eq]
  rfl

theorem SettingsState.load_congr {text text' : Text}
    (h : assignments [] 1 text'.lines = assignments [] 1 text.lines) (st : SettingsState) (path : Text)
    (mustExist : Bool) : st.load path mustExist (.contents text') = st.load path mustExist (.contents text) := by
  unfold load
  rw [Settings.load_contents, Settings.load_contents, h]

end DocSearch
