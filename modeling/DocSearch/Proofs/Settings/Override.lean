import DocSearch.Proofs.Settings.Layout
import DocSearch.Proofs.Settings.Writing

/-!
# Configuration files one behind the other

Whether a value is valid does not depend on the settings, so assignments leave the same behind any settings, and what
they leave overrides these (`Settings.assignAll_overriddenBy`).  A header makes the lines behind it independent of the
section in front of it (`assignments_of_header`).  Hence a file that starts with a header, put behind another one,
overrides its settings, and only the number of the line in an error grows (`SettingsState.load_append`).
-/

namespace DocSearch

open SettingLine (ofLine)

/-! ### Settings on top of others -/

namespace Settings

variable {s s' : Settings} {key key' : SettingKey} {value : Text}

/-- The second settings, and the first ones where the second leave none. -/
def overriddenBy (s t : Settings) : Settings where
  prefixes := t.prefixes.or s.prefixes
  defaultCollection := t.defaultCollection.or s.defaultCollection
  mode := t.mode.or s.mode

theorem overriddenBy_empty (s : Settings) : s.overriddenBy {} = s := by
  simp [overriddenBy]

theorem assign_overriddenBy (s t : Settings) (key : SettingKey) (value : Text) :
    (s.overriddenBy t).assign key value = (t.assign key value).map s.overriddenBy := by
  cases key with
  | prefixes => cases h : boolValue? value <;> simp [assign, overriddenBy, h]
  | defaultCollection => cases h : unquoted? value <;> simp [assign, overriddenBy, h]
  | mode => cases h : modeValue? value <;> simp [assign, overriddenBy, h]

/-- Assignments leave on top of other settings what they leave alone, and stop at the same place. -/
theorem assignAll_overriddenBy (s t : Settings) (as : List Assignment) :
    (s.overriddenBy t).assignAll as = (s.overriddenBy (t.assignAll as).1, (t.assignAll as).2) := by
  induction as generalizing t with
  | nil => rfl
  | cons a as ih =>
    have ha := assign_overriddenBy s t a.key a.value
    cases h : t.assign a.key a.value with
    | none =>
      rw [h] at ha
      rw [assignAll_cons_of_none h, assignAll_cons_of_none ha]
    | some t' =>
      rw [h] at ha
      rw [assignAll_cons_of_some h, assignAll_cons_of_some ha]
      exact ih t'

/-! ### The last assignment to a setting -/

theorem assignAll_append_singleton {as : List Assignment} {a : Assignment}
    (h : s.assignAll (as ++ [a]) = (s', none)) :
    ∃ s₁, s.assignAll as = (s₁, none) ∧ s₁.assign a.key a.value = some s' := by
  obtain ⟨s₁, e, has⟩ : ∃ s₁ e, s.assignAll as = (s₁, e) := ⟨_, _, rfl⟩
  cases e with
  | some e =>
    rw [assignAll_append_of_error has] at h
    cases h
  | none =>
    rw [assignAll_append_of_ok has] at h
    cases ha : s₁.assign a.key a.value with
    | none =>
      rw [assignAll_cons_of_none ha] at h
      cases h
    | some s₂ =>
      rw [assignAll_cons_of_some ha] at h
      cases h
      exact ⟨s₁, has, ha⟩

/-- What an assignment leaves for its key does not depend on the settings in front of it. -/
theorem only_of_assign (h : s.assign key value = some s') :
    ({} : Settings).assign key value = some (s'.only [key]) := by
  cases key with
  | prefixes =>
    obtain ⟨b, hb, rfl⟩ := Option.map_eq_some_iff.1 h
    simp [assign, only, hb]
  | defaultCollection =>
    obtain ⟨c, hc, rfl⟩ := Option.map_eq_some_iff.1 h
    simp [assign, only, hc]
  | mode =>
    obtain ⟨m, hm, rfl⟩ := Option.map_eq_some_iff.1 h
    simp [assign, only, hm]

theorem only_of_assign_other (h : s.assign key' value = some s') (hkey : key' ≠ key) :
    s'.only [key] = s.only [key] := by
  cases key' with
  | prefixes =>
    obtain ⟨b, -, rfl⟩ := Option.map_eq_some_iff.1 h
    simp [only, hkey]
  | defaultCollection =>
    obtain ⟨c, -, rfl⟩ := Option.map_eq_some_iff.1 h
    simp [only, hkey]
  | mode =>
    obtain ⟨m, -, rfl⟩ := Option.map_eq_some_iff.1 h
    simp [only, hkey]

/-- The setting of the key is what the value stands for; without a value there is none. -/
def Holds (s : Settings) (key : SettingKey) : Option Text → Prop
  | none => s.only [key] = {}
  | some value => ({} : Settings).assign key value = some (s.only [key])

end Settings

/-- The value of the last assignment to a setting. -/
def lastAssigned? (key : SettingKey) (as : List Assignment) : Option Text :=
  (as.filter fun a => a.key = key).getLast?.map Assignment.value

theorem lastAssigned?_append_singleton (key : SettingKey) (as : List Assignment) (a : Assignment) :
    lastAssigned? key (as ++ [a]) = if a.key = key then some a.value else lastAssigned? key as := by
  by_cases hkey : a.key = key <;> simp [lastAssigned?, List.filter_append, hkey]

/-- Of several assignments to a setting the last one counts. -/
theorem Settings.holds_lastAssigned? {s : Settings} {as : List Assignment}
    (h : ({} : Settings).assignAll as = (s, none)) (key : SettingKey) : s.Holds key (lastAssigned? key as) := by
  induction as using List.reverseRecOn generalizing s with
  | nil =>
    cases h
    simp [lastAssigned?, Holds, only]
  | append_singleton as a ih =>
    obtain ⟨s₁, has, ha⟩ := assignAll_append_singleton h
    rw [lastAssigned?_append_singleton]
    by_cases hkey : a.key = key
    · subst hkey
      simpa [Holds] using only_of_assign ha
    · have hlast := ih has
      rw [if_neg hkey]
      unfold Holds at hlast ⊢
      rwa [only_of_assign_other ha hkey]

/-! ### Lines behind others -/

/-- The first line of a text, without the blanks around it, is a header. -/
def StartsWithHeader (s : Text) : Prop :=
  ∃ line inner : Text, s.lines.head? = some line ∧ line.trim = '['.toUInt8 :: inner ++ [']'.toUInt8]

/-- The section in force in front of a header does not matter to it and to the lines behind it. -/
theorem assignments_of_header {second : Text} (h : StartsWithHeader second) (section_ : Text) (n : Nat) :
    assignments section_ n second.lines = assignments [] n second.lines := by
  obtain ⟨line, inner, hhead, htrim⟩ := h
  have hline : ofLine line = .header inner.trim := SettingLine.ofLine_eq_header.2 ⟨inner, htrim, rfl⟩
  obtain ⟨lines, hlines⟩ := List.head?_eq_some_iff.1 hhead
  rw [hlines, assignments, assignments, hline]
  rfl

namespace Text

theorem lines_eq_nil {s : Text} : s.lines = [] ↔ s = [] := by
  constructor
  · intro h
    cases s with
    | nil => rfl
    | cons b s =>
      unfold lines at h
      split at h
      · cases h
      · split at h <;> cases h
  · rintro rfl
    rfl

/-- Behind a line feed starts another line. -/
theorem lines_append {s : Text} (hs : s = [] ∨ s.getLast? = some 10) (t : Text) :
    lines (s ++ t) = lines s ++ lines t := by
  induction s with
  | nil => rfl
  | cons b s ih =>
    have hlast : (b :: s).getLast? = some 10 := hs.resolve_left (List.cons_ne_nil b s)
    by_cases hnil : s = []
    · subst hnil
      have hb : b = 10 := by simpa using hlast
      simp [lines, hb]
    · rw [List.getLast?_cons_of_ne_nil hnil] at hlast
      have hrest := ih (Or.inr hlast)
      by_cases hb : b = 10
      · simp [lines, hb, hrest]
      · obtain ⟨l, ls, hl⟩ := List.exists_cons_of_ne_nil fun h => hnil (lines_eq_nil.1 h)
        simp [lines, hb, hrest, hl]

end Text

/-- An assignment stands in a line, behind the lines of those in front of it. -/
theorem exists_line_of_assignments {section_ : Text} {n : Nat} {lines : List Text} {before after : List Assignment}
    {a : Assignment} (h : assignments section_ n lines = before ++ a :: after) :
    ∃ front line back, lines = front ++ line :: back ∧ assignments section_ n front = before ∧
      a.line = n + front.length := by
  induction lines generalizing section_ n before with
  | nil => simp [assignments] at h
  | cons line lines ih =>
    rw [assignments] at h
    cases hline : (ofLine line).assignment? section_ n with
    | none =>
      rw [hline] at h
      obtain ⟨front, line', back, rfl, hfront, ha⟩ := ih h
      refine ⟨line :: front, line', back, rfl, ?_, ?_⟩
      · simp [assignments, hline, hfront]
      · rw [ha, List.length_cons]
        omega
    | some b =>
      rw [hline] at h
      cases before with
      | nil =>
        obtain ⟨rfl, -⟩ := List.cons.inj h
        obtain ⟨key, -, -, hnumber⟩ := assignment?_eq_some hline
        exact ⟨[], line, lines, rfl, rfl, hnumber⟩
      | cons c before =>
        obtain ⟨rfl, hrest⟩ := List.cons.inj h
        obtain ⟨front, line', back, rfl, hfront, ha⟩ := ih hrest
        refine ⟨line :: front, line', back, rfl, ?_, ?_⟩
        · simp [assignments, hline, hfront]
        · rw [ha, List.length_cons]
          omega

/-! ### Files behind others -/

namespace SettingsState

variable {st st' : SettingsState} {path text : Text} {mustExist : Bool}

/-- What is read from a file that starts with a header, behind another one. -/
private theorem assignAll_lines_append {first second : Text} {s₁ : Settings}
    (hfirst : first = [] ∨ first.getLast? = some 10) (hsecond : StartsWithHeader second)
    (hs₁ : ({} : Settings).assignAll (assignments [] 1 first.lines) = (s₁, none)) :
    ({} : Settings).assignAll (assignments [] 1 (first ++ second).lines) =
      (s₁.overriddenBy (({} : Settings).assignAll (assignments [] 1 second.lines)).1,
        (({} : Settings).assignAll (assignments [] 1 second.lines)).2.map (LoadError.moved first.lines.length)) := by
  rw [Text.lines_append hfirst, assignments_append, Settings.assignAll_append_of_ok hs₁,
    assignments_of_header hsecond, assignments_moved, Settings.assignAll_map_moved]
  have hempty := Settings.assignAll_overriddenBy s₁ {} (assignments [] 1 second.lines)
  rw [Settings.overriddenBy_empty] at hempty
  rw [hempty]

/-- Behind a file that does not load nothing is read. -/
private theorem load_append_of_error {first : Text} (hfirst : first = [] ∨ first.getLast? = some 10) (second : Text)
    (h : st.load path mustExist (.contents first) = (.ok false, st')) :
    st.load path mustExist (.contents (first ++ second)) = (.ok false, st') := by
  by_cases hpath : path = []
  · subst hpath
    exact h
  · obtain ⟨s, key, n, hs, rfl⟩ := (load_eq_error hpath).1 h
    refine (load_eq_error hpath).2 ⟨s, key, n, ?_, rfl⟩
    rw [Text.lines_append hfirst, assignments_append]
    exact Settings.assignAll_append_of_error hs _

private theorem ne_nil_of_load (h : st.load path mustExist (.contents text) = (.ok true, st')) : path ≠ [] := by
  rintro rfl
  simp [load, Settings.load] at h

/-- A file that loads is overridden by one that starts with a header behind it. -/
private theorem load_append_of_ok {first second : Text} (hfirst : first = [] ∨ first.getLast? = some 10)
    (hsecond : StartsWithHeader second) (h : st.load path mustExist (.contents first) = (.ok true, st')) :
    (∃ s, st.load path mustExist (.contents second) = (.ok true, { st with settings := s }) ∧
        st.load path mustExist (.contents (first ++ second)) =
          (.ok true, { st with settings := st'.settings.overriddenBy s })) ∨
      ∃ s, ∃ (key : SettingKey) (n : Nat),
        st.load path mustExist (.contents second) = (.ok false, ⟨s, key.invalidReport n⟩) ∧
        st.load path mustExist (.contents (first ++ second)) =
          (.ok false, ⟨st'.settings.overriddenBy s, key.invalidReport (n + first.lines.length)⟩) := by
  have hpath := ne_nil_of_load h
  obtain ⟨s₁, hs₁, rfl⟩ := (load_eq_ok hpath).1 h
  have happend := assignAll_lines_append hfirst hsecond hs₁
  obtain ⟨s, e, hs⟩ : ∃ s e, ({} : Settings).assignAll (assignments [] 1 second.lines) = (s, e) := ⟨_, _, rfl⟩
  rw [hs] at happend
  cases e with
  | none => exact Or.inl ⟨s, (load_eq_ok hpath).2 ⟨s, hs, rfl⟩, (load_eq_ok hpath).2 ⟨_, happend, rfl⟩⟩
  | some e =>
    obtain ⟨before, a, after, -, -, -, rfl⟩ := Settings.assignAll_eq_error.1 hs
    exact Or.inr ⟨s, a.key, a.line, (load_eq_error hpath).2 ⟨s, a.key, a.line, hs, rfl⟩,
      (load_eq_error hpath).2 ⟨_, a.key, a.line + first.lines.length, happend, rfl⟩⟩

/-- A file that does not load leaves what the lines in front of the reported one do. -/
private theorem load_before_error (hpath : path ≠ []) (h : st.load path mustExist (.contents text) = (.ok false, st')) :
    ∃ before line after, ∃ key : SettingKey, text.lines = before ++ line :: after ∧
      st'.report = key.invalidReport (before.length + 1) ∧
      st.load path mustExist (.contents (Text.ofLines before)) = (.ok true, { st with settings := st'.settings }) := by
  obtain ⟨s, key, n, hs, rfl⟩ := (load_eq_error hpath).1 h
  obtain ⟨front, a, back, has, hfront, -, he⟩ := Settings.assignAll_eq_error.1 hs
  obtain ⟨before, line, after, hlines, hbefore, hline⟩ := exists_line_of_assignments has
  have hfeed : ∀ l ∈ before, 10 ∉ l := by
    intro l hl
    refine text.not_mem_of_mem_lines l ?_
    rw [hlines]
    exact List.mem_append_left _ hl
  cases he
  refine ⟨before, line, after, a.key, hlines, ?_, ?_⟩
  · rw [hline, Nat.add_comm]
  · refine (load_eq_ok hpath).2 ⟨s, ?_, rfl⟩
    rw [Text.lines_ofLines hfeed, hbefore]
    exact hfront

/-- A file with a header in its first line, put behind a file of whole lines, overrides its settings.  It fails as it
does alone, only so many lines further down; behind a file that fails it is not read at all.  In any file the last
assignment to a setting counts, and one that fails leaves what the lines in front of the reported one do. -/
theorem load_append (st : SettingsState) (path : Text) (mustExist : Bool) (first second : Text)
    (hfirst : first = [] ∨ first.getLast? = some 10) (hsecond : StartsWithHeader second) :
    (∀ st', st.load path mustExist (.contents first) = (.ok false, st') →
      st.load path mustExist (.contents (first ++ second)) = (.ok false, st')) ∧
    (∀ st', st.load path mustExist (.contents first) = (.ok true, st') →
      (∃ s, st.load path mustExist (.contents second) = (.ok true, { st with settings := s }) ∧
        st.load path mustExist (.contents (first ++ second)) =
          (.ok true, { st with settings := st'.settings.overriddenBy s })) ∨
      ∃ s, ∃ (key : SettingKey) (n : Nat),
        st.load path mustExist (.contents second) = (.ok false, ⟨s, key.invalidReport n⟩) ∧
        st.load path mustExist (.contents (first ++ second)) =
          (.ok false, ⟨st'.settings.overriddenBy s, key.invalidReport (n + first.lines.length)⟩)) ∧
    (∀ text st', st.load path mustExist (.contents text) = (.ok true, st') →
      ∀ key, st'.settings.Holds key (lastAssigned? key (assignments [] 1 text.lines))) ∧
    ∀ text st', path ≠ [] → st.load path mustExist (.contents text) = (.ok false, st') →
      ∃ before line after, ∃ key : SettingKey, text.lines = before ++ line :: after ∧
        st'.report = key.invalidReport (before.length + 1) ∧
        st.load path mustExist (.contents (Text.ofLines before)) =
          (.ok true, { st with settings := st'.settings }) := by
  refine ⟨fun st' h => load_append_of_error hfirst second h, fun st' h => load_append_of_ok hfirst hsecond h,
    fun text st' h key => ?_, fun text st' hpath h => load_before_error hpath h⟩
  obtain ⟨s, hs, rfl⟩ := (load_eq_ok (ne_nil_of_load h)).1 h
  exact Settings.holds_lastAssigned? hs key

/-- The second file goes back to a section of the first one and assigns a setting again. -/
theorem load_append_prefixes :
    StartsWithHeader (ascii " [compile] \nprefixes = FALSE\ndefault_collection = books") ∧
      load {} (ascii "c") true (.contents (ascii "[compile]\nprefixes = true\n[output]\nmode = json\n" ++
          ascii " [compile] \nprefixes = FALSE\ndefault_collection = books")) =
        (.ok true, { settings := ⟨some false, some (ascii "books"), some .json⟩ }) := by
  have hsecond : StartsWithHeader (ascii " [compile] \nprefixes = FALSE\ndefault_collection = books") :=
    ⟨ascii " [compile] ", ascii "compile", by decide +kernel, by decide +kernel⟩
  have hload : load {} (ascii "c") true (.contents (ascii "[compile]\nprefixes = true\n[output]\nmode = json\n")) =
      (.ok true, { settings := ⟨some true, none, some .json⟩ }) := by
    decide +kernel
  have hload' : load {} (ascii "c") true
      (.contents (ascii " [compile] \nprefixes = FALSE\ndefault_collection = books")) =
      (.ok true, { settings := ⟨some false, some (ascii "books"), none⟩ }) := by
    decide +kernel
  have happend := (load_append {} (ascii "c") true _ _ (Or.inr (by decide +kernel)) hsecond).2.1 _ hload
  rw [hload'] at happend
  obtain ⟨s, hs, hboth⟩ | ⟨s, key, n, hs, -⟩ := happend
  · cases hs
    exact ⟨hsecond, hboth⟩
  · cases hs

end SettingsState

end DocSearch
