import DocSearch.Proofs.Settings.Line

/-!
# Writing settings

Settings are written as lines under the headers of their sections, in any order: a truth value and an output mode in any
letter case, and a collection as it is between quotes (`WritesLines`).  Such a file is loaded to the settings that it
was written for (`SettingsState.load_written`).  While it is read, the settings are those of the keys behind
(`WritesLines.assignAll_eq`).
-/

namespace DocSearch

/-! ### Values -/

/-- A text between two quotes. -/
def quotedBy (quote : UInt8) (s : Text) : Text := quote :: s ++ [quote]

theorem isBlank_of_isQuote (b : UInt8) : isQuote b = true → isBlank b = false ∧ b ≠ 10 := by
  revert b
  exact forall_byte (by decide +kernel)

theorem trim_quotedBy {quote : UInt8} (hq : isQuote quote = true) (s : Text) :
    (quotedBy quote s).trim = quotedBy quote s := by
  have hblank := (isBlank_of_isQuote quote hq).1
  refine Text.trim_eq_self (stopsRun_cons.2 hblank) ?_
  rw [quotedBy, List.reverse_append]
  exact stopsRun_cons.2 hblank

theorem unquoted?_quotedBy {quote : UInt8} (hq : isQuote quote = true) (s : Text) :
    unquoted? (quotedBy quote s) = some s := by
  simp [unquoted?, quotedBy, hq]

/-- What may be written for a setting. -/
inductive IsWritten (s : Settings) : SettingKey → Text → Prop
  | prefixes {b : Bool} {w : Text} (hs : s.prefixes = some b)
      (hw : w.map toLower = if b then ascii "true" else ascii "false") : IsWritten s .prefixes w
  | bareMode {m : OutputMode} {w : Text} (hs : s.mode = some m) (hw : w.map toLower = m.name) : IsWritten s .mode w
  | quotedMode {m : OutputMode} {w : Text} {quote : UInt8} (hq : isQuote quote = true) (hs : s.mode = some m)
      (hw : w.map toLower = m.name) : IsWritten s .mode (quotedBy quote w)
  | collection {c : Text} {quote : UInt8} (hq : isQuote quote = true) (hs : s.defaultCollection = some c) :
      IsWritten s .defaultCollection (quotedBy quote c)

/-- Bytes of a class that letter case does not matter to are in a word only if they are in its lower case. -/
private theorem forall_mem_word {p : UInt8 → Bool} {w name : Text} (hp : ∀ b, p (toLower b) = p b)
    (hw : w.map toLower = name) (hname : name.all (fun b => !p b) = true) : ∀ b ∈ w, p b = false := by
  intro b hb
  have hmem : toLower b ∈ name := hw ▸ List.mem_map_of_mem hb
  have hlower := List.all_eq_true.1 hname _ hmem
  rw [hp, Bool.not_eq_true'] at hlower
  exact hlower

/-- Neither a blank nor a quote nor a line feed depends on letter case. -/
private theorem toLower_class (b : UInt8) :
    isBlank (toLower b) = isBlank b ∧ isQuote (toLower b) = isQuote b ∧ (toLower b == 10) = (b == 10) := by
  revert b
  exact forall_byte (by decide +kernel)

private theorem trim_of_no_blank {w : Text} (h : ∀ b ∈ w, isBlank b = false) : w.trim = w := by
  refine Text.trim_eq_self (fun b hb => h b (List.mem_of_mem_head? hb)) (fun b hb => h b ?_)
  exact List.mem_reverse.1 (List.mem_of_mem_head? hb)

/-- A word that has a lower case without quotes stands for itself. -/
private theorem unquoted?_word {w name : Text} (hw : w.map toLower = name) (hne : name ≠ [])
    (hname : name.all (fun b => !isQuote b) = true) : unquoted? w = some w := by
  have hquote := forall_mem_word (fun b => (toLower_class b).2.1) hw hname
  cases w with
  | nil => exact absurd hw.symm hne
  | cons b w => simp [unquoted?, hquote b (List.mem_cons_self ..)]

theorem IsWritten.trim_eq {s : Settings} {key : SettingKey} {value : Text} (h : IsWritten s key value) :
    value.trim = value := by
  have hword : ∀ {w name : Text}, w.map toLower = name → name.all (fun b => !isBlank b) = true → w.trim = w :=
    fun hw hname => trim_of_no_blank (forall_mem_word (fun b => (toLower_class b).1) hw hname)
  cases h with
  | @prefixes b w hs hw => exact hword hw (by cases b <;> decide +kernel)
  | @bareMode m w hs hw => exact hword hw (by cases m <;> decide +kernel)
  | quotedMode hq hs hw => exact trim_quotedBy hq _
  | collection hq hs => exact trim_quotedBy hq _

theorem IsWritten.feed_not_mem {s : Settings} {key : SettingKey} {value : Text} (h : IsWritten s key value)
    (hfeed : ∀ c ∈ s.defaultCollection, 10 ∉ c) : 10 ∉ value := by
  have hword : ∀ {w name : Text}, w.map toLower = name → name.all (fun b => !(b == 10)) = true → 10 ∉ w :=
    fun hw hname hmem => by simpa using forall_mem_word (fun b => (toLower_class b).2.2) hw hname 10 hmem
  have hquoted : ∀ {quote : UInt8} {w : Text}, isQuote quote = true → 10 ∉ w → 10 ∉ quotedBy quote w := by
    intro quote w hq hw
    have hne := (isBlank_of_isQuote quote hq).2.symm
    rw [quotedBy, List.cons_append, List.mem_cons, List.mem_append, List.mem_singleton]
    exact not_or.2 ⟨hne, not_or.2 ⟨hw, hne⟩⟩
  cases h with
  | @prefixes b w hs hw => exact hword hw (by cases b <;> decide +kernel)
  | @bareMode m w hs hw => exact hword hw (by cases m <;> decide +kernel)
  | @quotedMode m w quote hq hs hw => exact hquoted hq (hword hw (by cases m <;> decide +kernel))
  | collection hq hs => exact hquoted hq (hfeed _ hs)

/-! ### Assigning what was written -/

namespace Settings

/-- The settings of the given keys, without the others. -/
def only (s : Settings) (keys : List SettingKey) : Settings where
  prefixes := if .prefixes ∈ keys then s.prefixes else none
  defaultCollection := if .defaultCollection ∈ keys then s.defaultCollection else none
  mode := if .mode ∈ keys then s.mode else none

/-- Whether there is a value for the setting. -/
def has (s : Settings) : SettingKey → Bool
  | .prefixes => s.prefixes.isSome
  | .defaultCollection => s.defaultCollection.isSome
  | .mode => s.mode.isSome

theorem only_eq_self {s : Settings} {keys : List SettingKey} (h : ∀ key, s.has key = true → key ∈ keys) :
    s.only keys = s := by
  have hfield : ∀ {α : Type} {o : Option α} {key : SettingKey}, (o.isSome = true → key ∈ keys) →
      (if key ∈ keys then o else none) = o := by
    intro α o key ho
    split
    · rfl
    · cases o with
      | none => rfl
      | some a => exact absurd (ho rfl) ‹_›
  simp only [only, hfield (h .prefixes), hfield (h .defaultCollection), hfield (h .mode)]

/-- Assigning what is written for a key adds its setting. -/
theorem assign_written {s : Settings} {key : SettingKey} {value : Text} (h : IsWritten s key value)
    (keys : List SettingKey) : (s.only keys).assign key value = some (s.only (keys ++ [key])) := by
  cases h with
  | @prefixes b w hs hw =>
    have hvalue : boolValue? value = some b := by
      unfold boolValue?
      rw [hw]
      cases b <;> decide +kernel
    simp [assign, only, hvalue, hs]
  | @bareMode m w hs hw =>
    have hvalue : modeValue? value = some m := by
      have hunquoted := unquoted?_word hw (by cases m <;> decide +kernel) (by cases m <;> decide +kernel)
      simp [modeValue?, hunquoted, hw]
      cases m <;> decide +kernel
    simp [assign, only, hvalue, hs]
  | @quotedMode m w quote hq hs hw =>
    have hvalue : modeValue? (quotedBy quote w) = some m := by
      simp [modeValue?, unquoted?_quotedBy hq, hw]
      cases m <;> decide +kernel
    simp [assign, only, hvalue, hs]
  | @collection c quote hq hs => simp [assign, only, unquoted?_quotedBy hq, hs]

end Settings

/-! ### Lines -/

namespace SettingKey

/-- The section in which a setting is written. -/
def sectionName : SettingKey → Text
  | prefixes | defaultCollection => ascii "compile"
  | mode => ascii "output"

/-- The key of a setting in its section. -/
def name : SettingKey → Text
  | prefixes => ascii "prefixes"
  | defaultCollection => ascii "default_collection"
  | mode => ascii "mode"

theorem ofKey?_name (key : SettingKey) : ofKey? key.sectionName key.name = some key := by
  cases key <;> decide +kernel

private theorem isKeyName_name (key : SettingKey) : IsKeyName key.name := by
  unfold IsKeyName
  cases key <;> decide +kernel

end SettingKey

/-- In its section the line for a setting assigns it. -/
theorem assignments_assignLine (key : SettingKey) {value : Text} (hvalue : value.trim = value) (n : Nat)
    (lines : List Text) :
    assignments key.sectionName n (assignLine key.name value :: lines) =
      ⟨n, key, value⟩ :: assignments key.sectionName (n + 1) lines := by
  rw [assignments, ofLine_assignLine key.isKeyName_name hvalue, SettingLine.assignment?, SettingKey.ofKey?_name]
  rfl

/-- The lines write the settings of the given keys, each below a header of its section. -/
inductive WritesLines (s : Settings) : Text → List SettingKey → List Text → Prop
  | nil {section_ : Text} : WritesLines s section_ [] []
  | header {section_ : Text} {keys : List SettingKey} {lines : List Text} (key : SettingKey)
      (h : WritesLines s key.sectionName keys lines) :
      WritesLines s section_ keys ((ascii "[" ++ key.sectionName ++ ascii "]") :: lines)
  | setting {key : SettingKey} {value : Text} {keys : List SettingKey} {lines : List Text}
      (hv : IsWritten s key value) (h : WritesLines s key.sectionName keys lines) :
      WritesLines s key.sectionName (key :: keys) (assignLine key.name value :: lines)

private theorem ofLine_header (key : SettingKey) :
    SettingLine.ofLine (ascii "[" ++ key.sectionName ++ ascii "]") = .header key.sectionName := by
  cases key <;> decide +kernel

/-- Reading the lines adds the settings of their keys, one after the other. -/
theorem WritesLines.assignAll_eq {s : Settings} {section_ : Text} {keys : List SettingKey} {lines : List Text}
    (h : WritesLines s section_ keys lines) (before : List SettingKey) (n : Nat) :
    (s.only before).assignAll (assignments section_ n lines) = (s.only (before ++ keys), none) := by
  induction h generalizing before n with
  | nil =>
    rw [List.append_nil]
    rfl
  | header key _ ih =>
    rw [assignments, ofLine_header]
    exact ih before (n + 1)
  | @setting key value keys lines hv _ ih =>
    rw [assignments_assignLine key hv.trim_eq, Settings.assignAll_cons_of_some (Settings.assign_written hv before)]
    have hlines := ih (before ++ [key]) (n + 1)
    rw [List.append_assoc, List.singleton_append] at hlines
    exact hlines

theorem WritesLines.feed_not_mem {s : Settings} {section_ : Text} {keys : List SettingKey} {lines : List Text}
    (h : WritesLines s section_ keys lines) (hfeed : ∀ c ∈ s.defaultCollection, 10 ∉ c) : ∀ l ∈ lines, 10 ∉ l := by
  induction h with
  | nil => exact nofun
  | header key _ ih =>
    refine List.forall_mem_cons.2 ⟨?_, ih⟩
    cases key <;> decide +kernel
  | @setting key value keys lines hv _ ih =>
    refine List.forall_mem_cons.2 ⟨?_, ih⟩
    have hname : 10 ∉ key.name ++ ascii " = " := by cases key <;> decide +kernel
    rw [assignLine, List.mem_append]
    exact not_or.2 ⟨hname, hv.feed_not_mem hfeed⟩

namespace SettingsState

/-- A file that lists the settings there are, in any order of sections and keys, is loaded to these settings. -/
theorem load_written (st : SettingsState) {s : Settings} {keys : List SettingKey} {lines : List Text}
    {text path : Text} (mustExist : Bool) (hfeed : ∀ c ∈ s.defaultCollection, 10 ∉ c)
    (hlines : WritesLines s [] keys lines) (hkeys : ∀ key, key ∈ keys ↔ s.has key = true)
    (htext : IsTextOf text lines) (hpath : path ≠ []) :
    st.load path mustExist (.contents text) = (.ok true, { st with settings := s }) := by
  have hload := Settings.load_contents path mustExist text
  have hassign := hlines.assignAll_eq [] 1
  have hnone : s.only [] = {} := rfl
  rw [hnone, List.nil_append, Settings.only_eq_self fun key => (hkeys key).2] at hassign
  rw [if_neg (by simpa using hpath), htext.assignments_eq (hlines.feed_not_mem hfeed), hassign] at hload
  rw [load, hload]

/-- A collection that looks like a header with an assignment, a quote and a comment in it, and ends like a line. -/
private def nastySettings : Settings where
  prefixes := some false
  defaultCollection := some (ascii " [a=\"b'#]\r ")
  mode := some .json

/-- Sections and keys in another order than that of the fields. -/
theorem load_written_nastySettings :
    load {} (ascii "c") true (.contents (ascii
        "[output]\nmode = 'JsOn'\n[compile]\ndefault_collection = \" [a=\"b'#]\r \"\nprefixes = FaLSe\n")) =
      (.ok true, { settings := nastySettings }) := by
  have hmode : IsWritten nastySettings .mode (quotedBy 39 (ascii "JsOn")) :=
    .quotedMode (m := .json) (by decide) rfl (by decide +kernel)
  have hcollection : IsWritten nastySettings .defaultCollection (quotedBy 34 (ascii " [a=\"b'#]\r ")) :=
    .collection (by decide) rfl
  have hprefixes : IsWritten nastySettings .prefixes (ascii "FaLSe") := .prefixes (b := false) rfl (by decide +kernel)
  have hlast : WritesLines nastySettings SettingKey.prefixes.sectionName [.prefixes] _ := .setting hprefixes .nil
  have hcompile :
      WritesLines nastySettings SettingKey.defaultCollection.sectionName [.defaultCollection, .prefixes] _ :=
    .setting hcollection hlast
  have hlines : WritesLines nastySettings [] [.mode, .defaultCollection, .prefixes] _ :=
    .header .mode (.setting hmode (.header .defaultCollection hcompile))
  refine load_written {} true ?_ hlines ?_ (Or.inl (by decide +kernel)) (by decide +kernel)
  · rintro c ⟨⟩
    decide +kernel
  · intro key
    cases key <;> decide

end SettingsState

end DocSearch
