import DocSearch.Proofs.Text
import DocSearch.Settings

/-!
# Assignments of a configuration file

Of the lines of a configuration file only those count that assign a setting in the section in force there: reading the
lines is carrying out these assignments in order, up to the first invalid one (`Settings.readLines_eq`).  A file may be
cut between any two lines: the assignments behind the cut are those in the section in force there
(`assignments_append`), and they carry on from the settings in front of it, unless one there is invalid.
-/

namespace DocSearch

/-- The assignment of a value to a setting, with the number of its line. -/
structure Assignment where
  line : Nat
  key : SettingKey
  value : Text
  deriving DecidableEq

namespace SettingLine

/-- The section in force behind a line. -/
def sectionBehind (section_ : Text) : SettingLine → Text
  | header section' => section'
  | _ => section_

/-- What a line with the number `n` assigns in a section. -/
def assignment? (section_ : Text) (n : Nat) : SettingLine → Option Assignment
  | assignment key value => (SettingKey.ofKey? section_ key).map fun k => ⟨n, k, value⟩
  | _ => none

end SettingLine

/-- The section in force behind the given lines. -/
def sectionAfter (section_ : Text) (lines : List Text) : Text :=
  lines.foldl (fun s line => (SettingLine.ofLine line).sectionBehind s) section_

/-- The assignments in the lines from line `n` on, in the given section. -/
def assignments (section_ : Text) (n : Nat) : List Text → List Assignment
  | [] => []
  | line :: lines =>
    let l := SettingLine.ofLine line
    (l.assignment? section_ n).toList ++ assignments (l.sectionBehind section_) (n + 1) lines

/-- The settings after the given assignments, and the first one that is invalid. -/
def Settings.assignAll (s : Settings) : List Assignment → Settings × Option LoadError
  | [] => (s, none)
  | a :: as =>
    match s.assign a.key a.value with
    | some s' => s'.assignAll as
    | none => (s, some (.invalidValue a.key a.line))

/-! ### Lists of lines -/

theorem assignments_append (section_ : Text) (n : Nat) (before after : List Text) :
    assignments section_ n (before ++ after) =
      assignments section_ n before ++ assignments (sectionAfter section_ before) (n + before.length) after := by
  induction before generalizing section_ n with
  | nil => rfl
  | cons line before ih =>
    have hlines : n + (line :: before).length = n + 1 + before.length := by
      rw [List.length_cons]
      omega
    simp only [List.cons_append, assignments, ih, hlines, List.append_assoc]
    rfl

/-- The same assignment so many lines further down. -/
def Assignment.moved (k : Nat) (a : Assignment) : Assignment := { a with line := a.line + k }

/-- The same error so many lines further down. -/
def LoadError.moved (k : Nat) : LoadError → LoadError
  | invalidValue key line => invalidValue key (line + k)
  | e => e

theorem assignments_moved (section_ : Text) (n k : Nat) (lines : List Text) :
    assignments section_ (n + k) lines = (assignments section_ n lines).map (Assignment.moved k) := by
  induction lines generalizing section_ n with
  | nil => rfl
  | cons line lines ih =>
    have hline : (SettingLine.ofLine line).assignment? section_ (n + k) =
        ((SettingLine.ofLine line).assignment? section_ n).map (Assignment.moved k) := by
      cases SettingLine.ofLine line with
      | assignment key value =>
        cases h : SettingKey.ofKey? section_ key <;> simp [SettingLine.assignment?, Assignment.moved, h]
      | _ => rfl
    simp only [assignments, hline, List.map_append, Option.toList_map, ← ih, Nat.add_right_comm n k 1]

namespace Settings

variable {s s' : Settings}

theorem assignAll_cons_of_some {a : Assignment} (h : s.assign a.key a.value = some s') (as : List Assignment) :
    s.assignAll (a :: as) = s'.assignAll as := by
  rw [assignAll, h]

theorem assignAll_cons_of_none {a : Assignment} (h : s.assign a.key a.value = none) (as : List Assignment) :
    s.assignAll (a :: as) = (s, some (.invalidValue a.key a.line)) := by
  rw [assignAll, h]

theorem assignAll_append_of_ok {as : List Assignment} (h : s.assignAll as = (s', none)) (bs : List Assignment) :
    s.assignAll (as ++ bs) = s'.assignAll bs := by
  induction as generalizing s with
  | nil =>
    cases h
    rfl
  | cons a as ih =>
    cases ha : s.assign a.key a.value with
    | none =>
      rw [assignAll_cons_of_none ha] at h
      cases h
    | some s₁ =>
      rw [assignAll_cons_of_some ha] at h
      rw [List.cons_append, assignAll_cons_of_some ha]
      exact ih h

theorem assignAll_append_of_error {as : List Assignment} {e : LoadError} (h : s.assignAll as = (s', some e))
    (bs : List Assignment) : s.assignAll (as ++ bs) = (s', some e) := by
  induction as generalizing s with
  | nil => cases h
  | cons a as ih =>
    cases ha : s.assign a.key a.value with
    | none =>
      rw [assignAll_cons_of_none ha] at h
      rw [List.cons_append, assignAll_cons_of_none ha]
      exact h
    | some s₁ =>
      rw [assignAll_cons_of_some ha] at h
      rw [List.cons_append, assignAll_cons_of_some ha]
      exact ih h

/-- Assignments fail at the first one that is invalid, with the settings of those in front of it. -/
theorem assignAll_eq_error {as : List Assignment} {e : LoadError} :
    s.assignAll as = (s', some e) ↔ ∃ before a after, as = before ++ a :: after ∧
      s.assignAll before = (s', none) ∧ s'.assign a.key a.value = none ∧ e = .invalidValue a.key a.line := by
  constructor
  · intro h
    induction as generalizing s with
    | nil => cases h
    | cons a as ih =>
      cases ha : s.assign a.key a.value with
      | none =>
        rw [assignAll_cons_of_none ha] at h
        cases h
        exact ⟨[], a, as, rfl, rfl, ha, rfl⟩
      | some s₁ =>
        rw [assignAll_cons_of_some ha] at h
        obtain ⟨before, b, after, rfl, hbefore, hb, he⟩ := ih h
        refine ⟨a :: before, b, after, rfl, ?_, hb, he⟩
        rw [assignAll_cons_of_some ha]
        exact hbefore
  · rintro ⟨before, a, after, rfl, hbefore, ha, rfl⟩
    rw [assignAll_append_of_ok hbefore, assignAll_cons_of_none ha]

/-- Reading lines is carrying out their assignments. -/
theorem readLines_eq (s : Settings) (section_ : Text) (n : Nat) (lines : List Text) :
    s.readLines section_ n lines = s.assignAll (assignments section_ n lines) := by
  induction lines generalizing s section_ n with
  | nil => rfl
  | cons line lines ih =>
    unfold readLines assignments
    cases SettingLine.ofLine line with
    | nothing => exact ih s section_ (n + 1)
    | header section' => exact ih s section' (n + 1)
    | assignment key value =>
      cases hk : SettingKey.ofKey? section_ key with
      | none => simpa [SettingLine.assignment?, SettingLine.sectionBehind, hk] using ih s section_ (n + 1)
      | some k =>
        cases hs : s.assign k value with
        | none => simp [SettingLine.assignment?, hk, hs, assignAll]
        | some s' =>
          simpa [SettingLine.assignment?, SettingLine.sectionBehind, hk, hs, assignAll] using ih s' section_ (n + 1)

/-- Further down the same assignments are valid, and the error has another number. -/
theorem assignAll_map_moved (s : Settings) (as : List Assignment) (k : Nat) :
    s.assignAll (as.map (Assignment.moved k)) = ((s.assignAll as).1, (s.assignAll as).2.map (LoadError.moved k)) := by
  induction as generalizing s with
  | nil => rfl
  | cons a as ih =>
    rw [List.map_cons]
    cases ha : s.assign a.key a.value with
    | none =>
      have hmoved : s.assign (a.moved k).key (a.moved k).value = none := ha
      rw [assignAll_cons_of_none ha, assignAll_cons_of_none hmoved]
      rfl
    | some s₁ =>
      have hmoved : s.assign (a.moved k).key (a.moved k).value = some s₁ := ha
      rw [assignAll_cons_of_some ha, assignAll_cons_of_some hmoved, ih]

/-- The numbers of the lines do not matter to assignments that are all valid. -/
theorem assignAll_moved {as : List Assignment} {k : Nat} :
    s.assignAll (as.map (Assignment.moved k)) = (s', none) ↔ s.assignAll as = (s', none) := by
  rw [assignAll_map_moved, Prod.mk.injEq, Option.map_eq_none_iff, ← Prod.mk.injEq]

end Settings

end DocSearch
