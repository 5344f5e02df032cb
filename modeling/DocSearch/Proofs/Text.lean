import DocSearch.Text
import Mathlib.Data.List.TakeWhile

/-!
# Bytes and runs of bytes

A statement about all bytes is decided by going through them (`forall_byte`), as which bytes make up a class
(`isSpace_iff`, `isQuote_iff`) and what becomes of small letters (`toUpper_eq`).  A run of bytes of one class that stops
in front of another byte is what `takeWhile` cuts off (`takeWhile_run`, `dropWhile_run`).
-/

namespace DocSearch

/-- A property of bytes holds of all of them if it holds of the 256 numbers below 256. -/
theorem forall_byte {p : UInt8 → Prop} (h : ∀ n : Fin 256, p (UInt8.ofNat n)) (b : UInt8) : p b := by
  have hb := h ⟨b.toNat, b.toNat_lt⟩
  simpa using hb

/-! ### Classes of bytes -/

theorem isSpace_iff (b : UInt8) : isSpace b = true ↔ b ∈ [9, 10, 11, 12, 13, 32] := by
  revert b
  exact forall_byte (by decide +kernel)

theorem isQuote_iff (b : UInt8) : isQuote b = true ↔ b ∈ [34, 39] := by
  revert b
  exact forall_byte (by decide +kernel)

/-- The small letters of ASCII lie 32 above the capitals, and nothing else has two cases. -/
theorem toUpper_eq (b : UInt8) : toUpper b = if 97 ≤ b ∧ b ≤ 122 then b - 32 else b := by
  revert b
  exact forall_byte (by decide +kernel)

/-! ### Runs -/

/-- No byte of the class stands at the front of the text. -/
def StopsRun (p : UInt8 → Bool) (s : Text) : Prop := ∀ b ∈ s.head?, p b = false

theorem stopsRun_nil (p : UInt8 → Bool) : StopsRun p [] := by
  intro b hb
  cases hb

theorem stopsRun_cons {p : UInt8 → Bool} {b : UInt8} {s : Text} : StopsRun p (b :: s) ↔ p b = false := by
  simp [StopsRun]

theorem stopsRun_dropWhile (p : UInt8 → Bool) (s : Text) : StopsRun p (s.dropWhile p) := by
  intro b hb
  have h := List.head?_dropWhile_not p s
  rw [Option.mem_def.1 hb] at h
  exact h

theorem takeWhile_eq_nil_of_stopsRun {p : UInt8 → Bool} {s : Text} (h : StopsRun p s) : s.takeWhile p = [] := by
  cases s with
  | nil => rfl
  | cons b s => simp [stopsRun_cons.1 h]

theorem dropWhile_eq_self_of_stopsRun {p : UInt8 → Bool} {s : Text} (h : StopsRun p s) : s.dropWhile p = s := by
  cases s with
  | nil => rfl
  | cons b s => simp [stopsRun_cons.1 h]

theorem takeWhile_run {p : UInt8 → Bool} {s rest : Text} (hs : ∀ b ∈ s, p b = true) (hr : StopsRun p rest) :
    (s ++ rest).takeWhile p = s := by
  rw [List.takeWhile_append_of_pos hs, takeWhile_eq_nil_of_stopsRun hr, List.append_nil]

theorem dropWhile_run {p : UInt8 → Bool} {s rest : Text} (hs : ∀ b ∈ s, p b = true) (hr : StopsRun p rest) :
    (s ++ rest).dropWhile p = rest := by
  rw [List.dropWhile_append_of_pos hs, dropWhile_eq_self_of_stopsRun hr]

/-- Joined texts are the first one and the others behind a separator each. -/
theorem Text.join_cons (sep s : Text) (parts : List Text) :
    join sep (s :: parts) = s ++ parts.flatMap (sep ++ ·) := by
  induction parts generalizing s with
  | nil => simp [join]
  | cons t parts ih =>
    have ht := ih t
    simp only [join] at ht
    rw [join, List.intercalate_cons_cons, ht, List.flatMap_cons, List.append_assoc, List.append_assoc]

theorem all_takeWhile (p : UInt8 → Bool) (s : Text) : ∀ b ∈ s.takeWhile p, p b = true :=
  fun _ hb => List.mem_takeWhile_imp hb

end DocSearch
