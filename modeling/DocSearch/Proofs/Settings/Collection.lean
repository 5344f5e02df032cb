import DocSearch.Proofs.Settings.Writing

/-!
# The line for the default collection

An assignment changes its own setting only (`Settings.assign_withCollection`).  So the lines around the only one for
the default collection assign the same with it and without it, and it alone gives the collection
(`Settings.readLines_collection`).
-/

namespace DocSearch

/-! ### Settings with another collection -/

namespace Settings

variable {s : Settings}

/-- The settings with another default collection, or without one. -/
def withCollection (s : Settings) (c : Option Text) : Settings := { s with defaultCollection := c }

/-- Another setting is assigned with each default collection alike. -/
theorem assign_withCollection {key : SettingKey} (hkey : key ≠ .defaultCollection) (s : Settings) (c : Option Text)
    (value : Text) : (s.withCollection c).assign key value = (s.assign key value).map (withCollection · c) := by
  cases key with
  | defaultCollection => exact absurd rfl hkey
  | prefixes => cases h : boolValue? value <;> simp [assign, withCollection, h]
  | mode => cases h : modeValue? value <;> simp [assign, withCollection, h]

/-- Assignments to other settings leave the default collection. -/
theorem assignAll_withCollection {as : List Assignment} (has : ∀ a ∈ as, a.key ≠ .defaultCollection)
    (s : Settings) (c : Option Text) :
    (s.withCollection c).assignAll as = ((s.assignAll as).1.withCollection c, (s.assignAll as).2) := by
  induction as generalizing s with
  | nil => rfl
  | cons a as ih =>
    have ha := assign_withCollection (has a (List.mem_cons_self ..)) s c a.value
    cases h : s.assign a.key a.value with
    | none =>
      rw [h] at ha
      rw [assignAll_cons_of_none h, assignAll_cons_of_none ha]
    | some s' =>
      rw [h] at ha
      rw [assignAll_cons_of_some h, assignAll_cons_of_some ha]
      exact ih (fun b hb => has b (List.mem_cons_of_mem _ hb)) s'

theorem withCollection_withCollection (s : Settings) (c c' : Option Text) :
    (s.withCollection c).withCollection c' = s.withCollection c' := rfl

end Settings

/-! ### The line -/

/-- A text between double quotes. -/
def inQuotes (s : Text) : Text := '"'.toUInt8 :: (s ++ ['"'.toUInt8])

theorem inQuotes_eq (s : Text) : inQuotes s = quotedBy '"'.toUInt8 s := rfl

theorem trim_inQuotes (s : Text) : (inQuotes s).trim = inQuotes s := by
  rw [inQuotes_eq, trim_quotedBy (by decide)]

theorem unquoted?_inQuotes (s : Text) : unquoted? (inQuotes s) = some s := by
  rw [inQuotes_eq, unquoted?_quotedBy (by decide)]

/-- The line that assigns the default collection in its section. -/
def collectionLine (c : Text) : Text := ascii "default_collection = " ++ inQuotes c

/-- The given lines, with a line for the default collection between them if there is one. -/
def configLines (before : List Text) (c? : Option Text) (after : List Text) : List Text :=
  before ++ ((c?.map collectionLine).toList ++ after)

theorem assignments_collectionLine (n : Nat) (c : Text) (lines : List Text) :
    assignments (ascii "compile") n (collectionLine c :: lines) =
      ⟨n, .defaultCollection, inQuotes c⟩ :: assignments (ascii "compile") (n + 1) lines := by
  have hword : ascii "default_collection = " = ascii "default_collection" ++ ascii " = " := by decide
  rw [collectionLine, hword]
  exact assignments_assignLine .defaultCollection (trim_inQuotes c) n lines

namespace Settings

variable {s s' : Settings}

theorem assign_inQuotes (s : Settings) (c : Text) :
    s.assign .defaultCollection (inQuotes c) = some (s.withCollection (some c)) := by
  simp [assign, unquoted?_inQuotes, withCollection]

/-- Assignments to other settings leave the default collection as it is. -/
theorem withCollection_of_assignAll {as : List Assignment} (has : ∀ a ∈ as, a.key ≠ .defaultCollection)
    {c : Option Text} {e : Option LoadError} (h : (s.withCollection c).assignAll as = (s', e)) :
    s'.withCollection c = s' := by
  rw [assignAll_withCollection has s c, Prod.mk.injEq] at h
  rw [← h.1, withCollection_withCollection]

/-- Reading on with the line for the default collection, if there is one, is reading on from settings with that
collection. -/
private theorem assignAll_collectionLine {c? : Option Text} (hs : s.withCollection none = s) (n : Nat)
    (lines : List Text) :
    s.assignAll (assignments (ascii "compile") n ((c?.map collectionLine).toList ++ lines)) = (s', none) ↔
      (s.withCollection c?).assignAll (assignments (ascii "compile") n lines) = (s', none) := by
  cases c? with
  | none =>
    rw [hs]
    exact Iff.rfl
  | some c =>
    have hline : ((some c).map collectionLine).toList ++ lines = collectionLine c :: lines := rfl
    rw [hline, assignments_collectionLine, assignAll_cons_of_some (assign_inQuotes s c), assignments_moved,
      assignAll_moved]

/-- The lines around the one for the default collection assign the same with it and without it, and it alone gives
the collection. -/
theorem readLines_collection {before after : List Text} (c? : Option Text)
    (hsection : sectionAfter [] before = ascii "compile")
    (honly : ∀ a ∈ assignments [] 1 (before ++ after), a.key ≠ .defaultCollection) :
    readLines {} [] 1 (configLines before c? after) = (s, none) ↔
      ∃ s₀, readLines {} [] 1 (before ++ after) = (s₀, none) ∧ s = s₀.withCollection c? := by
  simp only [configLines, readLines_eq, assignments_append _ _ before, hsection] at honly ⊢
  have hbefore := fun a ha => honly a (List.mem_append_left _ ha)
  have hafter := fun a ha => honly a (List.mem_append_right _ ha)
  -- the lines in front lead to settings without a collection, or to an error with and without the line
  obtain ⟨s₁, e, hs₁⟩ : ∃ s₁ e, ({} : Settings).assignAll (assignments [] 1 before) = (s₁, e) := ⟨_, _, rfl⟩
  have hnone : s₁.withCollection none = s₁ := withCollection_of_assignAll (s := {}) (c := none) hbefore hs₁
  cases e with
  | some e =>
    rw [assignAll_append_of_error hs₁, assignAll_append_of_error hs₁]
    exact iff_of_false nofun nofun
  | none =>
    rw [assignAll_append_of_ok hs₁, assignAll_append_of_ok hs₁, assignAll_collectionLine hnone,
      assignAll_withCollection hafter]
    obtain ⟨s₂, e, hs₂⟩ : ∃ s₂ e, s₁.assignAll (assignments (ascii "compile") (1 + before.length) after) = (s₂, e) :=
      ⟨_, _, rfl⟩
    rw [hs₂]
    constructor
    · intro h
      cases h
      exact ⟨s₂, rfl, rfl⟩
    · rintro ⟨s₀, h, rfl⟩
      cases h
      rfl

end Settings

end DocSearch
