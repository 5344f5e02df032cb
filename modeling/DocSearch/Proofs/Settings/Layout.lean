import DocSearch.Proofs.Settings.Line
import Mathlib.Data.List.Forall2
import Mathlib.Tactic.Tauto

/-!
# Layout of configuration files

Only the lines that assign a setting count.  A file may be reduced to them (`assignments_effectiveLines`), blanks may
be added where lines and their parts begin and end (`assignments_padded`), and idle lines may be inserted, which moves
the others down (`assignments_inserted`).  So the settings that a file gives do not depend on its layout, nor does the
error, but for the number of its line (`SettingsState.load_layout`).
-/

namespace DocSearch

open SettingLine (ofLine)

/-! ### Lines that count -/

/-- A line that assigns a setting by its full name, validly or not, and an empty line for any other. -/
def effectiveLine (section_ line : Text) : Text :=
  ((ofLine line).assignment? section_ 0).elim [] fun a => assignLine a.key.fullName a.value

/-- The effective lines of the given lines, in the sections that are in force there. -/
def effectiveLines (section_ : Text) : List Text → List Text
  | [] => []
  | line :: lines => effectiveLine section_ line :: effectiveLines ((ofLine line).sectionBehind section_) lines

private theorem isKeyName_fullName (key : SettingKey) : IsKeyName key.fullName := by
  unfold IsKeyName
  cases key <;> decide +kernel

private theorem ofKey?_fullName (key : SettingKey) : SettingKey.ofKey? [] key.fullName = some key := by
  cases key <;> decide +kernel

/-- What a line assigns, it assigns to a setting that is named in the section. -/
theorem assignment?_eq_some {section_ line : Text} {n : Nat} {a : Assignment}
    (h : (ofLine line).assignment? section_ n = some a) :
    ∃ key, ofLine line = .assignment key a.value ∧ SettingKey.ofKey? section_ key = some a.key ∧ a.line = n := by
  cases hline : ofLine line with
  | assignment key value =>
    rw [hline, SettingLine.assignment?, Option.map_eq_some_iff] at h
    obtain ⟨k, hk, rfl⟩ := h
    exact ⟨key, rfl, hk, rfl⟩
  | header _ | nothing =>
    rw [hline] at h
    cases h

private theorem assignment?_line (section_ line : Text) (n : Nat) :
    (ofLine line).assignment? section_ n =
      ((ofLine line).assignment? section_ 0).map fun a => { a with line := n } := by
  cases ofLine line with
  | assignment key value => simp [SettingLine.assignment?, Function.comp_def]
  | _ => rfl

/-- A value has no blanks at its ends. -/
theorem trim_of_ofLine {line key value : Text} (h : ofLine line = .assignment key value) : value.trim = value := by
  obtain ⟨left, right, -, -, -, rfl, -⟩ := SettingLine.ofLine_eq_assignment.1 h
  exact Text.trim_trim right

/-- An effective line assigns outside of all sections what the line does in its section, and opens none. -/
private theorem effectiveLine_assigns (section_ line : Text) (n : Nat) :
    (ofLine (effectiveLine section_ line)).assignment? [] n = (ofLine line).assignment? section_ n ∧
      (ofLine (effectiveLine section_ line)).sectionBehind [] = [] := by
  rw [assignment?_line section_ line n, effectiveLine]
  cases h : (ofLine line).assignment? section_ 0 with
  | none => exact ⟨rfl, rfl⟩
  | some a =>
    obtain ⟨key, hline, -, -⟩ := assignment?_eq_some h
    rw [Option.elim_some, ofLine_assignLine (isKeyName_fullName a.key) (trim_of_ofLine hline), SettingLine.assignment?,
      ofKey?_fullName]
    exact ⟨rfl, rfl⟩

/-- The effective lines assign what the lines do, each at its place. -/
theorem assignments_effectiveLines (section_ : Text) (n : Nat) (lines : List Text) :
    assignments [] n (effectiveLines section_ lines) = assignments section_ n lines := by
  induction lines generalizing section_ n with
  | nil => rfl
  | cons line lines ih =>
    obtain ⟨hassign, hsection⟩ := effectiveLine_assigns section_ line n
    rw [effectiveLines, assignments, assignments, hassign, hsection, ih]

theorem mem_of_mem_trim {s : Text} {b : UInt8} (h : b ∈ s.trim) : b ∈ s := by
  obtain ⟨p, q, -, -, hs⟩ := s.exists_trim
  rw [hs, List.mem_append, List.mem_append]
  exact Or.inl (Or.inr h)

/-- A value is a part of its line. -/
theorem feed_not_mem_value {line key value : Text} (hline : ofLine line = .assignment key value) (h : 10 ∉ line) :
    10 ∉ value := by
  obtain ⟨left, right, rfl, -, -, rfl, -⟩ := SettingLine.ofLine_eq_assignment.1 hline
  intro hmem
  exact h (List.mem_append_right _ (List.mem_cons_of_mem _ (mem_of_mem_trim hmem)))

private theorem feed_not_mem_effectiveLine {section_ line : Text} (h : 10 ∉ line) :
    10 ∉ effectiveLine section_ line := by
  unfold effectiveLine
  cases ha : (ofLine line).assignment? section_ 0 with
  | none => exact List.not_mem_nil
  | some a =>
    obtain ⟨key, hline, -, -⟩ := assignment?_eq_some ha
    have hname : 10 ∉ a.key.fullName ++ ascii " = " := by cases a.key <;> decide +kernel
    rw [Option.elim_some, assignLine, List.mem_append]
    exact not_or.2 ⟨hname, feed_not_mem_value hline h⟩

theorem feed_not_mem_effectiveLines {section_ : Text} {lines : List Text} (h : ∀ l ∈ lines, 10 ∉ l) :
    ∀ l ∈ effectiveLines section_ lines, 10 ∉ l := by
  induction lines generalizing section_ with
  | nil => exact nofun
  | cons line lines ih =>
    intro l hl
    rcases List.mem_cons.1 hl with rfl | hl
    · exact feed_not_mem_effectiveLine (h line (List.mem_cons_self ..))
    · exact ih (fun l' hl' => h l' (List.mem_cons_of_mem _ hl')) l hl

/-! ### Padding -/

/-- A text of spaces, tabs and carriage returns. -/
def IsPadding (s : Text) : Prop := ∀ b ∈ s, b = 32 ∨ b = 9 ∨ b = 13

theorem IsPadding.isBlankText {s : Text} (h : IsPadding s) : IsBlankText s := by
  intro b hb
  rcases h b hb with rfl | rfl | rfl <;> rfl

theorem IsPadding.feed_not_mem {s : Text} (h : IsPadding s) : 10 ∉ s := by
  intro hb
  rcases h 10 hb with h | h | h <;> cases h

/-- A line and what may become of it by padding: at its ends, around the first equals sign of an assignment, and inside
the brackets of a header. -/
inductive Padded : Text → Text → Prop
  | ends {p q line : Text} (hp : IsPadding p) (hq : IsPadding q) : Padded line (p ++ line ++ q)
  | equals {p q left right key value : Text} (hp : IsPadding p) (hq : IsPadding q)
      (hline : ofLine (left ++ '='.toUInt8 :: right) = .assignment key value) (hleft : '='.toUInt8 ∉ left) :
      Padded (left ++ '='.toUInt8 :: right) (left ++ p ++ '='.toUInt8 :: (q ++ right))
  | brackets {p q front inner back : Text} (hp : IsPadding p) (hq : IsPadding q) (hfront : IsBlankText front)
      (hback : IsBlankText back) :
      Padded (front ++ ('['.toUInt8 :: inner ++ [']'.toUInt8]) ++ back)
        (front ++ ('['.toUInt8 :: (p ++ inner ++ q) ++ [']'.toUInt8]) ++ back)
  | trans {line line' line'' : Text} (h : Padded line line') (h' : Padded line' line'') : Padded line line''

/-- A header between blanks opens the section that is named between its brackets. -/
theorem ofLine_brackets {front inner back : Text} (hfront : IsBlankText front) (hback : IsBlankText back) :
    ofLine (front ++ ('['.toUInt8 :: inner ++ [']'.toUInt8]) ++ back) = .header inner.trim := by
  rw [SettingLine.ofLine_padded hfront hback]
  refine SettingLine.ofLine_eq_header.2 ⟨inner, ?_, rfl⟩
  refine Text.trim_eq_self (stopsRun_cons.2 (by decide)) ?_
  rw [List.reverse_append]
  exact stopsRun_cons.2 (by decide)

/-- The first equals sign splits a line in one way. -/
private theorem append_equals_inj {left left' right right' : Text} (hleft : '='.toUInt8 ∉ left)
    (hleft' : '='.toUInt8 ∉ left') (h : left ++ '='.toUInt8 :: right = left' ++ '='.toUInt8 :: right') :
    left = left' ∧ right = right' := by
  have hcut : (left ++ '='.toUInt8 :: right).cut '='.toUInt8 = some (left, right) :=
    Text.cut_eq_some.2 ⟨rfl, hleft⟩
  have hcut' : (left ++ '='.toUInt8 :: right).cut '='.toUInt8 = some (left', right') :=
    Text.cut_eq_some.2 ⟨h, hleft'⟩
  rw [hcut, Option.some.injEq, Prod.mk.injEq] at hcut'
  exact hcut'

/-- Padding does not change what a line says. -/
theorem Padded.ofLine_eq {line line' : Text} (h : Padded line line') : ofLine line' = ofLine line := by
  induction h with
  | ends hp hq => exact SettingLine.ofLine_padded hp.isBlankText hq.isBlankText _
  | @equals p q left right key value hp hq hline hleft =>
    obtain ⟨left', right', heq, hleft', hkey, hvalue, hassigns⟩ := SettingLine.ofLine_eq_assignment.1 hline
    obtain ⟨rfl, rfl⟩ := append_equals_inj hleft hleft' heq
    rw [hline]
    refine SettingLine.ofLine_eq_assignment.2 ⟨left ++ p, q ++ right, rfl, ?_, ?_, ?_, hassigns⟩
    · rw [List.mem_append]
      exact not_or.2 ⟨hleft, hp.isBlankText.not_mem (by decide)⟩
    · rw [Text.trim_append_blanks hp.isBlankText, hkey]
    · rw [Text.trim_blanks_append hq.isBlankText, hvalue]
  | brackets hp hq hfront hback =>
    rw [ofLine_brackets hfront hback, ofLine_brackets hfront hback,
      Text.trim_padded hp.isBlankText hq.isBlankText]
  | trans _ _ ih ih' => rw [ih', ih]

theorem Padded.feed_not_mem {line line' : Text} (h : Padded line line') (hline : 10 ∉ line) : 10 ∉ line' := by
  induction h with
  | ends hp hq =>
    have := hp.feed_not_mem
    have := hq.feed_not_mem
    simp only [List.mem_append]
    tauto
  | equals hp hq _ _ =>
    have := hp.feed_not_mem
    have := hq.feed_not_mem
    simp only [List.mem_append, List.mem_cons] at hline ⊢
    tauto
  | brackets hp hq _ _ =>
    have := hp.feed_not_mem
    have := hq.feed_not_mem
    simp only [List.mem_append, List.mem_cons] at hline ⊢
    tauto
  | trans _ _ ih ih' => exact ih' (ih hline)

theorem assignments_padded {lines lines' : List Text} (h : List.Forall₂ Padded lines lines') (section_ : Text)
    (n : Nat) : assignments section_ n lines' = assignments section_ n lines := by
  induction h generalizing section_ n with
  | nil => rfl
  | cons hline _ ih => rw [assignments, assignments, hline.ofLine_eq, ih]

theorem feed_not_mem_padded {lines lines' : List Text} (h : List.Forall₂ Padded lines lines')
    (hlines : ∀ l ∈ lines, 10 ∉ l) : ∀ l ∈ lines', 10 ∉ l := by
  induction h with
  | nil => exact nofun
  | cons hline _ ih =>
    rw [List.forall_mem_cons] at hlines ⊢
    exact ⟨hline.feed_not_mem hlines.1, ih hlines.2⟩

/-! ### Inserted lines -/

/-- A line that says nothing in the given section: it is empty but for blanks, a comment, neither a header nor an
assignment, or it assigns to no key or to an unknown one. -/
inductive IsIdle (section_ line : Text) : Prop
  | blank (h : line.trim = [])
  | comment (h : line.trim.head? = some '#'.toUInt8)
  | plain (h : '='.toUInt8 ∉ line)
      (hb : ¬ (line.trim.head? = some '['.toUInt8 ∧ line.trim.getLast? = some ']'.toUInt8))
  | keyless {left right : Text} (h : line = left ++ '='.toUInt8 :: right) (hl : IsBlankText left)
  | unknown {key value : Text} (h : ofLine line = .assignment key value) (hk : SettingKey.ofKey? section_ key = none)

/-- An idle line assigns nothing and leaves the section. -/
theorem IsIdle.assigns_nothing {section_ line : Text} (h : IsIdle section_ line) (n : Nat) :
    (ofLine line).assignment? section_ n = none ∧ (ofLine line).sectionBehind section_ = section_ := by
  have hnothing : ofLine line = .nothing →
      (ofLine line).assignment? section_ n = none ∧ (ofLine line).sectionBehind section_ = section_ := by
    intro h
    rw [h]
    exact ⟨rfl, rfl⟩
  cases h with
  | blank h =>
    refine hnothing ?_
    rw [SettingLine.ofLine, h]
    rfl
  | comment h =>
    refine hnothing ?_
    rw [SettingLine.ofLine, SettingLine.ofTrimmed, h]
    simp
  | plain h hb =>
    have hcut : line.trim.cut '='.toUInt8 = none := Text.cut_eq_none.2 fun hmem => h (mem_of_mem_trim hmem)
    have hbracket : bracketed? line.trim = none := bracketed?_eq_none.2 hb
    refine hnothing ?_
    rw [SettingLine.ofLine, SettingLine.ofTrimmed, hbracket]
    simp only [hcut]
    split <;> rfl
  | @keyless left right h hl =>
    obtain ⟨l, r, htrim, hlt, -, hhead, -, hsub⟩ :=
      Text.exists_trim_append left right (show isBlank '='.toUInt8 = false by decide)
    have hnil : left.trim = [] := Text.trim_of_isBlankText hl
    rw [hnil] at hlt hhead
    have hl' : l = [] := List.head?_eq_none_iff.1 hhead
    subst hl'
    refine hnothing ?_
    have hcut : Text.cut '='.toUInt8 ('='.toUInt8 :: r) = some ([], r) :=
      Text.cut_eq_some.2 ⟨rfl, List.not_mem_nil⟩
    have hbracket : bracketed? ('='.toUInt8 :: r) = none := by
      rw [bracketed?_eq_none]
      rintro ⟨hopen, -⟩
      cases hopen
    rw [SettingLine.ofLine, SettingLine.ofTrimmed, h, htrim, List.nil_append, hbracket]
    simp only [hcut]
    split <;> rfl
  | unknown h hk =>
    rw [h, SettingLine.assignment?, hk]
    exact ⟨rfl, rfl⟩

/-- A line of a file into which lines have been inserted. -/
inductive EditedLine where
  | kept (line : Text)
  | inserted (line : Text)

namespace EditedLine

def line : EditedLine → Text
  | kept l | inserted l => l

def kept? : EditedLine → Option Text
  | kept l => some l
  | inserted _ => none

def isInserted : EditedLine → Bool
  | kept _ => false
  | inserted _ => true

end EditedLine

/-- The lines of the file before the others were inserted. -/
def keptLines (es : List EditedLine) : List Text := es.filterMap EditedLine.kept?

/-- Each inserted line is idle in the section in force where it stands. -/
def InsertsIdle (section_ : Text) (es : List EditedLine) : Prop :=
  ∀ before line after, es = before ++ .inserted line :: after →
    IsIdle (sectionAfter section_ (before.map EditedLine.line)) line

theorem length_eq_keptLines (es : List EditedLine) :
    es.length = (keptLines es).length + es.countP EditedLine.isInserted := by
  induction es with
  | nil => rfl
  | cons e es ih =>
    cases e with
    | kept l =>
      have hkept : keptLines (.kept l :: es) = l :: keptLines es := rfl
      rw [hkept, List.countP_cons_of_neg Bool.false_ne_true, List.length_cons, List.length_cons, ih]
      omega
    | inserted l =>
      have hkept : keptLines (.inserted l :: es) = keptLines es := rfl
      rw [hkept, List.countP_cons_of_pos rfl, List.length_cons, ih]
      omega

/-- The same assignment in a kept line, which has another number in the edited file; the numbers start with `n` and
`n'`. -/
structure Renumbered (es : List EditedLine) (n n' : Nat) (a a' : Assignment) : Prop where
  key : a'.key = a.key
  value : a'.value = a.value
  place : ∃ before line after, es = before ++ .kept line :: after ∧ a.line = n + (keptLines before).length ∧
    a'.line = n' + before.length

theorem Renumbered.cons {es : List EditedLine} {n n' : Nat} {a a' : Assignment} (e : EditedLine)
    (h : Renumbered es (n + (keptLines [e]).length) (n' + 1) a a') : Renumbered (e :: es) n n' a a' := by
  obtain ⟨before, line, after, rfl, hline, hline'⟩ := h.place
  have hkept : keptLines (e :: before) = keptLines [e] ++ keptLines before := by
    rw [keptLines, keptLines, keptLines, ← List.filterMap_append, List.singleton_append]
  refine ⟨h.key, h.value, e :: before, line, after, rfl, ?_, ?_⟩
  · rw [hkept, List.length_append, hline]
    omega
  · rw [hline', List.length_cons]
    omega

theorem InsertsIdle.nil {section_ : Text} : InsertsIdle section_ [] := by
  intro before line after h
  cases before <;> cases h

theorem InsertsIdle.cons {section_ : Text} {e : EditedLine} {es : List EditedLine}
    (hline : ∀ line, e = .inserted line → IsIdle section_ line)
    (h : InsertsIdle ((ofLine e.line).sectionBehind section_) es) : InsertsIdle section_ (e :: es) := by
  intro before line after hes
  cases before with
  | nil =>
    cases hes
    exact hline line rfl
  | cons e' before =>
    cases hes
    exact h before line after rfl

theorem InsertsIdle.tail {section_ : Text} {e : EditedLine} {es : List EditedLine}
    (h : InsertsIdle section_ (e :: es)) : InsertsIdle ((ofLine e.line).sectionBehind section_) es := by
  intro before line after hes
  exact h (e :: before) line after (by rw [hes, List.cons_append])

/-- Idle lines between others leave the assignments as they are and move them down. -/
theorem assignments_inserted {section_ : Text} {es : List EditedLine} (h : InsertsIdle section_ es) (n n' : Nat) :
    List.Forall₂ (Renumbered es n n') (assignments section_ n (keptLines es))
      (assignments section_ n' (es.map EditedLine.line)) := by
  induction es generalizing section_ n n' with
  | nil => exact .nil
  | cons e es ih =>
    have hrest := ih h.tail (n + (keptLines [e]).length) (n' + 1)
    have hmoved := hrest.imp fun _ _ => Renumbered.cons e
    cases e with
    | kept l =>
      refine List.rel_append ?_ hmoved
      show List.Forall₂ _ ((ofLine l).assignment? section_ n).toList ((ofLine l).assignment? section_ n').toList
      rw [assignment?_line section_ l n, assignment?_line section_ l n']
      cases (ofLine l).assignment? section_ 0 with
      | none => exact .nil
      | some a => exact .cons ⟨rfl, rfl, [], l, es, rfl, rfl, rfl⟩ .nil
    | inserted l =>
      have hline : IsIdle section_ l := h [] l es rfl
      obtain ⟨hnone, hsection⟩ := hline.assigns_nothing n'
      simp only [EditedLine.line] at hmoved
      rw [hsection] at hmoved
      rw [List.map_cons, assignments, EditedLine.line, hnone, hsection]
      exact hmoved

/-- Assignments that differ in the numbers of their lines lead to the same settings, and to errors that differ in
these numbers. -/
theorem Settings.assignAll_renumbered {es : List EditedLine} {n n' : Nat} {as as' : List Assignment}
    (h : List.Forall₂ (Renumbered es n n') as as') (s : Settings) :
    (∃ s', s.assignAll as = (s', none) ∧ s.assignAll as' = (s', none)) ∨
      ∃ s' a a', Renumbered es n n' a a' ∧ s.assignAll as = (s', some (.invalidValue a.key a.line)) ∧
        s.assignAll as' = (s', some (.invalidValue a.key a'.line)) := by
  induction h generalizing s with
  | nil => exact Or.inl ⟨s, rfl, rfl⟩
  | @cons a a' as as' ha _ ih =>
    cases hassign : s.assign a.key a.value with
    | none =>
      have hassign' : s.assign a'.key a'.value = none := by rw [ha.key, ha.value, hassign]
      refine Or.inr ⟨s, a, a', ha, assignAll_cons_of_none hassign _, ?_⟩
      rw [assignAll_cons_of_none hassign', ha.key]
    | some s₁ =>
      have hassign' : s.assign a'.key a'.value = some s₁ := by rw [ha.key, ha.value, hassign]
      rw [assignAll_cons_of_some hassign, assignAll_cons_of_some hassign']
      exact ih s₁

/-! ### Files -/

/-- The report of an invalid value in line `n`. -/
def SettingKey.invalidReport (key : SettingKey) (n : Nat) : Text :=
  ascii "Invalid " ++ key.fullName ++ ascii " at line " ++ Decimal.ofNat n

namespace SettingsState

variable {st st' : SettingsState} {path text : Text} {mustExist : Bool}

/-- A file is loaded if all its assignments are valid, and the last report stays. -/
theorem load_eq_ok (hpath : path ≠ []) :
    st.load path mustExist (.contents text) = (.ok true, st') ↔
      ∃ s, ({} : Settings).assignAll (assignments [] 1 text.lines) = (s, none) ∧ st' = { st with settings := s } := by
  have hload := Settings.load_contents path mustExist text
  rw [if_neg (by simpa using hpath)] at hload
  rw [load, hload]
  obtain ⟨s, e, hs⟩ : ∃ s e, ({} : Settings).assignAll (assignments [] 1 text.lines) = (s, e) := ⟨_, _, rfl⟩
  cases e with
  | none => simp [hs, eq_comm]
  | some e =>
    obtain ⟨before, a, after, -, -, -, rfl⟩ := Settings.assignAll_eq_error.1 hs
    simp [hs]

/-- A file is not loaded if one of its assignments is invalid, and the first one is reported. -/
theorem load_eq_error (hpath : path ≠ []) :
    st.load path mustExist (.contents text) = (.ok false, st') ↔
      ∃ s key n, ({} : Settings).assignAll (assignments [] 1 text.lines) = (s, some (.invalidValue key n)) ∧
        st' = ⟨s, key.invalidReport n⟩ := by
  have hload := Settings.load_contents path mustExist text
  rw [if_neg (by simpa using hpath)] at hload
  rw [load, hload]
  obtain ⟨s, e, hs⟩ : ∃ s e, ({} : Settings).assignAll (assignments [] 1 text.lines) = (s, e) := ⟨_, _, rfl⟩
  cases e with
  | none => simp [hs]
  | some e =>
    obtain ⟨before, a, after, -, -, -, rfl⟩ := Settings.assignAll_eq_error.1 hs
    simp [hs, LoadError.message?, SettingKey.invalidReport, eq_comm]

/-- Inserted idle lines change the number in an error only. -/
private theorem load_inserted {text' : Text} {es : List EditedLine} (hkept : keptLines es = text.lines)
    (htext : IsTextOf text' (es.map EditedLine.line)) (hfeed : ∀ e ∈ es, 10 ∉ e.line) (hidle : InsertsIdle [] es)
    (st : SettingsState) (mustExist : Bool) (hpath : path ≠ []) :
    (∃ s, st.load path mustExist (.contents text) = (.ok true, { st with settings := s }) ∧
        st.load path mustExist (.contents text') = (.ok true, { st with settings := s })) ∨
      ∃ s before line after, ∃ (key : SettingKey) (n : Nat), es = before ++ .kept line :: after ∧
        n = (keptLines before).length + 1 ∧
        st.load path mustExist (.contents text) = (.ok false, ⟨s, key.invalidReport n⟩) ∧
        st.load path mustExist (.contents text') =
          (.ok false, ⟨s, key.invalidReport (n + before.countP EditedLine.isInserted)⟩) := by
  have hlines := htext.assignments_eq (List.forall_mem_map.2 hfeed) [] 1
  rcases Settings.assignAll_renumbered (assignments_inserted hidle 1 1) {} with
    ⟨s, hs, hs'⟩ | ⟨s, a, a', ha, hs, hs'⟩
  · rw [hkept] at hs
    rw [← hlines] at hs'
    exact Or.inl ⟨s, (load_eq_ok hpath).2 ⟨s, hs, rfl⟩, (load_eq_ok hpath).2 ⟨s, hs', rfl⟩⟩
  · obtain ⟨before, line, after, hes, hline, hline'⟩ := ha.place
    have hlength := length_eq_keptLines before
    have hnumber : a'.line = a.line + before.countP EditedLine.isInserted := by omega
    rw [hkept] at hs
    rw [← hlines, hnumber] at hs'
    exact Or.inr ⟨s, before, line, after, a.key, a.line, hes, by omega,
      (load_eq_error hpath).2 ⟨s, a.key, a.line, hs, rfl⟩, (load_eq_error hpath).2 ⟨s, a.key, _, hs', rfl⟩⟩

/-- What loading a file gives does not depend on its layout.  It is the same if the file is reduced to its effective
lines, and if it is padded; if idle lines are inserted, only the number of the line in an error grows, by the number of
lines inserted in front of it. -/
theorem load_layout (st : SettingsState) (path : Text) (mustExist : Bool) (text : Text) :
    (∀ text', IsTextOf text' (effectiveLines [] text.lines) →
      st.load path mustExist (.contents text') = st.load path mustExist (.contents text)) ∧
    (∀ text' lines', IsTextOf text' lines' → List.Forall₂ Padded text.lines lines' →
      st.load path mustExist (.contents text') = st.load path mustExist (.contents text)) ∧
    ∀ text' es, keptLines es = text.lines → IsTextOf text' (es.map EditedLine.line) →
      (∀ e ∈ es, 10 ∉ e.line) → InsertsIdle [] es → path ≠ [] →
      (∃ s, st.load path mustExist (.contents text) = (.ok true, { st with settings := s }) ∧
        st.load path mustExist (.contents text') = (.ok true, { st with settings := s })) ∨
      ∃ s before line after, ∃ (key : SettingKey) (n : Nat), es = before ++ .kept line :: after ∧
        n = (keptLines before).length + 1 ∧
        st.load path mustExist (.contents text) = (.ok false, ⟨s, key.invalidReport n⟩) ∧
        st.load path mustExist (.contents text') =
          (.ok false, ⟨s, key.invalidReport (n + before.countP EditedLine.isInserted)⟩) := by
  have hfeed := text.not_mem_of_mem_lines
  refine ⟨fun text' htext => ?_, fun text' lines' htext hpadded => ?_,
    fun text' es hkept htext hfeed hidle hpath => ?_⟩
  · refine load_congr ?_ st path mustExist
    rw [htext.assignments_eq (feed_not_mem_effectiveLines hfeed), assignments_effectiveLines]
  · refine load_congr ?_ st path mustExist
    rw [htext.assignments_eq (feed_not_mem_padded hpadded hfeed), assignments_padded hpadded]
  · exact load_inserted hkept htext hfeed hidle st mustExist hpath

private theorem padded_modeLines :
    List.Forall₂ Padded [ascii "[output]", ascii "mode=xml"] [ascii "[\toutput ]\r", ascii "mode = xml"] := by
  have hnone : IsPadding [] := nofun
  have hspace : IsPadding [32] := List.forall_mem_singleton.2 (Or.inl rfl)
  have htab : IsPadding [9] := List.forall_mem_singleton.2 (Or.inr (Or.inl rfl))
  have hreturn : IsPadding [13] := List.forall_mem_singleton.2 (Or.inr (Or.inr rfl))
  refine .cons ?_ (.cons ?_ .nil)
  · have hline : ascii "[output]" = [] ++ ('['.toUInt8 :: ascii "output" ++ [']'.toUInt8]) ++ [] := by decide +kernel
    have hline' : ascii "[\toutput ]\r" =
        [] ++ ([] ++ ('['.toUInt8 :: ([9] ++ ascii "output" ++ [32]) ++ [']'.toUInt8]) ++ []) ++ [13] := by
      decide +kernel
    rw [hline, hline']
    exact .trans (.brackets htab hspace isBlankText_nil isBlankText_nil) (.ends hnone hreturn)
  · have hassign : ofLine (ascii "mode" ++ '='.toUInt8 :: ascii "xml") =
        .assignment (ascii "mode") (ascii "xml") := by
      decide +kernel
    have hline : ascii "mode=xml" = ascii "mode" ++ '='.toUInt8 :: ascii "xml" := by decide +kernel
    have hline' : ascii "mode = xml" = ascii "mode" ++ [32] ++ '='.toUInt8 :: ([32] ++ ascii "xml") := by
      decide +kernel
    rw [hline, hline']
    exact .equals hspace hspace hassign (by decide +kernel)

/-- A section with one mode, and idle lines: a comment, a key that is unknown in the section, and a blank line. -/
private def modeLines : List EditedLine :=
  [.inserted (ascii "# modes"), .kept (ascii "[output]"), .inserted (ascii "prefixes = yes"), .inserted (ascii " "),
    .kept (ascii "mode=xml")]

private theorem insertsIdle_modeLines : InsertsIdle [] modeLines := by
  have hprefixes : ofLine (ascii "prefixes = yes") = .assignment (ascii "prefixes") (ascii "yes") := by
    decide +kernel
  refine .cons (fun _ h => ?_) (.cons nofun (.cons (fun _ h => ?_) (.cons (fun _ h => ?_) (.cons nofun .nil))))
  · cases h
    exact .comment (by decide +kernel)
  · cases h
    exact .unknown hprefixes (by decide +kernel)
  · cases h
    exact .blank (by decide +kernel)

private theorem length_of_modeLines {before after : List EditedLine} {line : Text}
    (h : modeLines = before ++ .kept line :: after) :
    (keptLines before).length = 0 ∨ (keptLines before).length = 1 ∧ before.countP EditedLine.isInserted = 3 := by
  rcases before with _ | ⟨e₁, _ | ⟨e₂, _ | ⟨e₃, _ | ⟨e₄, _ | ⟨e₅, before⟩⟩⟩⟩⟩
  · cases h
  · cases h
    exact Or.inl rfl
  · cases h
  · cases h
  · cases h
    exact Or.inr ⟨rfl, rfl⟩
  · have hlength := congrArg List.length h
    simp only [modeLines, List.length_append, List.length_cons, List.length_nil] at hlength
    omega

/-- A file with an invalid mode: reduced to its effective lines, padded, and with idle lines inserted. -/
theorem load_layout_invalidMode :
    load {} (ascii "c") true (.contents (ascii "[output]\nmode=xml")) =
        (.ok false, ⟨{}, ascii "Invalid output.mode at line 2"⟩) ∧
      load {} (ascii "c") true (.contents (ascii "\noutput.mode = xml\n")) =
        (.ok false, ⟨{}, ascii "Invalid output.mode at line 2"⟩) ∧
      load {} (ascii "c") true (.contents (ascii "[\toutput ]\r\nmode = xml\n")) =
        (.ok false, ⟨{}, ascii "Invalid output.mode at line 2"⟩) ∧
      load {} (ascii "c") true (.contents (ascii "# modes\n[output]\nprefixes = yes\n \nmode=xml")) =
        (.ok false, ⟨{}, ascii "Invalid output.mode at line 5"⟩) := by
  obtain ⟨heffective, hpadded, hinserted⟩ := load_layout {} (ascii "c") true (ascii "[output]\nmode=xml")
  have hload : load {} (ascii "c") true (.contents (ascii "[output]\nmode=xml")) =
      (.ok false, ⟨{}, ascii "Invalid output.mode at line 2"⟩) := by
    decide +kernel
  have hlines : (ascii "[output]\nmode=xml").lines = [ascii "[output]", ascii "mode=xml"] := by decide +kernel
  rw [hload, hlines] at heffective hpadded hinserted
  have hfeed : ∀ e ∈ modeLines, 10 ∉ e.line := by
    simp only [modeLines, List.forall_mem_cons]
    decide +kernel
  refine ⟨hload, heffective _ (Or.inl (by decide +kernel)),
    hpadded _ _ (Or.inl (by decide +kernel)) padded_modeLines, ?_⟩
  have htext : IsTextOf (ascii "# modes\n[output]\nprefixes = yes\n \nmode=xml") (modeLines.map EditedLine.line) :=
    Or.inr (by decide +kernel)
  rcases hinserted _ modeLines rfl htext hfeed insertsIdle_modeLines (by decide) with
    ⟨s, hs, -⟩ | ⟨s, before, line, after, key, n, hes, hn, hs, hs'⟩
  · cases hs
  · have hfirst : ∀ k : SettingKey, k.invalidReport 1 ≠ ascii "Invalid output.mode at line 2" := by
      intro k
      cases k <;> decide +kernel
    have hsecond : ∀ k : SettingKey, k.invalidReport 2 = ascii "Invalid output.mode at line 2" →
        k.invalidReport 5 = ascii "Invalid output.mode at line 5" := by
      intro k
      cases k <;> decide +kernel
    simp only [Prod.mk.injEq, SettingsState.mk.injEq, true_and] at hs
    obtain ⟨rfl, hreport⟩ := hs
    rcases length_of_modeLines hes with hzero | ⟨hone, hthree⟩
    · rw [hn, hzero] at hreport
      exact absurd hreport.symm (hfirst key)
    · rw [hn, hone] at hreport
      rw [hs', hn, hone, hthree, hsecond key hreport.symm]

end SettingsState

end DocSearch
