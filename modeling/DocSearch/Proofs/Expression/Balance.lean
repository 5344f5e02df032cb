import DocSearch.Proofs.Expression.Weight

/-!
# Balanced texts

A scan goes over a text from left to right, turns at each quote into a string or out of it, and counts parentheses
outside strings.  A text is balanced if a scan that is outside strings comes out of it as deep as before and never less
deep on the way (`Balanced`).  The texts of expressions without quotes in their strings are balanced, with a
parenthesis for each call and each sequence (`Expression.IsQuoteFree.balanced`).
-/

namespace DocSearch

/-- How far a text has been scanned. -/
structure Scan where
  /-- Inside a string. -/
  quoted : Bool := false
  /-- How many parentheses are open; fewer than none if too many were closed. -/
  depth : Int := 0
  /-- How many parentheses have been opened. -/
  opened : Nat := 0
  /-- How many strings have been begun. -/
  strings : Nat := 0

namespace Scan

def step (scan : Scan) (b : UInt8) : Scan :=
  if b = quote then
    { scan with quoted := !scan.quoted, strings := if scan.quoted then scan.strings else scan.strings + 1 }
  else if scan.quoted then scan
  else if b = openParen then { scan with depth := scan.depth + 1, opened := scan.opened + 1 }
  else if b = closeParen then { scan with depth := scan.depth - 1 }
  else scan

/-- The scan behind a text. -/
def after (scan : Scan) (s : Text) : Scan := s.foldl step scan

/-- The scan after so many further parentheses and strings, all of them closed again. -/
def add (scan : Scan) (opened strings : Nat) : Scan :=
  { scan with opened := scan.opened + opened, strings := scan.strings + strings }

/-- The scan behind a quote outside strings. -/
def enter (scan : Scan) : Scan := { scan with quoted := true, strings := scan.strings + 1 }

/-- The scan behind an opening parenthesis. -/
def descend (scan : Scan) : Scan := { scan with depth := scan.depth + 1, opened := scan.opened + 1 }

variable {scan : Scan}

theorem after_cons (b : UInt8) (s : Text) : scan.after (b :: s) = (scan.step b).after s := rfl

theorem after_append (s t : Text) : scan.after (s ++ t) = (scan.after s).after t := List.foldl_append

theorem add_add (m n k l : Nat) : (scan.add m n).add k l = scan.add (m + k) (n + l) := by
  simp only [add, Nat.add_assoc]

theorem step_quote (hscan : scan.quoted = false) : scan.step quote = scan.enter := by
  simp [step, enter, hscan]

theorem step_quote_enter (hscan : scan.quoted = false) : scan.enter.step quote = scan.add 0 1 := by
  simp [step, enter, add, hscan]

theorem step_openParen (hscan : scan.quoted = false) : scan.step openParen = scan.descend := by
  have hquote : openParen ≠ quote := by decide
  simp [step, descend, hscan, hquote]

theorem step_closeParen (hscan : scan.quoted = false) :
    scan.step closeParen = { scan with depth := scan.depth - 1 } := by
  have hquote : closeParen ≠ quote := by decide
  have hopen : closeParen ≠ openParen := by decide
  simp [step, hscan, hquote, hopen]

/-- Inside a string only a quote counts. -/
theorem after_of_quoted {s : Text} (hscan : scan.quoted = true) (hs : quote ∉ s) : scan.after s = scan := by
  induction s with
  | nil => rfl
  | cons b s ih =>
    have hb : b ≠ quote := fun h => hs (h ▸ List.mem_cons_self ..)
    have hstep : scan.step b = scan := by rw [step, if_neg hb, if_pos hscan]
    rw [after_cons, hstep]
    exact ih fun h => hs (List.mem_cons_of_mem _ h)

/-- Only quotes and parentheses count. -/
theorem after_of_plain {s : Text} (hs : ∀ b ∈ s, b ≠ openParen ∧ b ≠ quote ∧ b ≠ closeParen) : scan.after s = scan := by
  induction s with
  | nil => rfl
  | cons b s ih =>
    obtain ⟨hopen, hquote, hclose⟩ := hs b (List.mem_cons_self ..)
    have hstep : scan.step b = scan := by rw [step, if_neg hquote, if_neg hopen, if_neg hclose, ite_self]
    rw [after_cons, hstep]
    exact ih fun c hc => hs c (List.mem_cons_of_mem _ hc)

end Scan

/-- A front of two texts one behind the other ends in the first one or in the second one. -/
theorem front_append_cases {front s t : Text} (h : front <+: s ++ t) :
    front <+: s ∨ ∃ front', front' <+: t ∧ front = s ++ front' := by
  rcases List.prefix_or_prefix_of_prefix h (List.prefix_append s t) with h' | ⟨front', rfl⟩
  · exact Or.inl h'
  · exact Or.inr ⟨front', (List.prefix_append_right_inj s).1 h, rfl⟩

/-- The text opens the given number of parentheses and holds the given number of strings.  It closes all of them, and
none that was open before. -/
structure Balanced (s : Text) (opened strings : Nat) : Prop where
  after_eq : ∀ scan : Scan, scan.quoted = false → scan.after s = scan.add opened strings
  depth_le : ∀ scan : Scan, scan.quoted = false → ∀ front, front <+: s → scan.depth ≤ (scan.after front).depth

namespace Balanced

variable {s t : Text} {m n k l : Nat}

/-- Text without quotes and parentheses. -/
theorem plain (hs : ∀ b ∈ s, b ≠ openParen ∧ b ≠ quote ∧ b ≠ closeParen) : Balanced s 0 0 := by
  refine ⟨fun scan _ => Scan.after_of_plain hs, fun scan _ front hfront => ?_⟩
  have hplain : scan.after front = scan := Scan.after_of_plain fun b hb => hs b (hfront.subset hb)
  exact Int.le_of_eq (by rw [hplain])

theorem append (hs : Balanced s m n) (ht : Balanced t k l) : Balanced (s ++ t) (m + k) (n + l) := by
  constructor
  · intro scan hscan
    have hbehind : (scan.add m n).quoted = false := hscan
    rw [Scan.after_append, hs.after_eq scan hscan, ht.after_eq _ hbehind, Scan.add_add]
  · intro scan hscan front hfront
    rcases front_append_cases hfront with hfront | ⟨front', hfront', rfl⟩
    · exact hs.depth_le scan hscan front hfront
    · rw [Scan.after_append, hs.after_eq scan hscan]
      exact ht.depth_le (scan.add m n) hscan front' hfront'

/-- A text between two bytes is balanced if it is so as a whole and goes no lower in between. -/
private theorem between {b c : UInt8}
    (hwhole : ∀ scan : Scan, scan.quoted = false → scan.after (b :: (s ++ [c])) = scan.add m n)
    (hinside : ∀ scan : Scan, scan.quoted = false → ∀ front, front <+: s →
      scan.depth ≤ (scan.after (b :: front)).depth) : Balanced (b :: (s ++ [c])) m n := by
  refine ⟨hwhole, fun scan hscan front hfront => ?_⟩
  rcases List.prefix_cons_iff.1 hfront with rfl | ⟨front', rfl, hfront'⟩
  · exact Int.le_refl _
  · rcases List.prefix_concat_iff.1 hfront' with rfl | hfront'
    · rw [hwhole scan hscan]
      exact Int.le_refl _
    · exact hinside scan hscan front' hfront'

/-- A string between quotes. -/
theorem string (hs : quote ∉ s) : Balanced (quote :: (s ++ [quote])) 0 1 := by
  have hinside : ∀ {scan : Scan} {t : Text}, quote ∉ t → scan.enter.after t = scan.enter := fun ht =>
    Scan.after_of_quoted rfl ht
  have hwhole : ∀ scan : Scan, scan.quoted = false → scan.after (quote :: (s ++ [quote])) = scan.add 0 1 := by
    intro scan hscan
    rw [Scan.after_cons, Scan.step_quote hscan, Scan.after_append, hinside hs]
    exact Scan.step_quote_enter hscan
  refine between hwhole fun scan hscan front hfront => ?_
  rw [Scan.after_cons, Scan.step_quote hscan, hinside fun h => hs (hfront.subset h)]
  exact Int.le_refl _

/-- A balanced text in parentheses. -/
theorem parentheses (hs : Balanced s m n) : Balanced (openParen :: (s ++ [closeParen])) (m + 1) n := by
  have hwhole : ∀ scan : Scan, scan.quoted = false →
      scan.after (openParen :: (s ++ [closeParen])) = scan.add (m + 1) n := by
    intro scan hscan
    have hdescend : scan.descend.quoted = false := hscan
    have hbehind : (scan.descend.add m n).quoted = false := hscan
    rw [Scan.after_cons, Scan.step_openParen hscan, Scan.after_append, hs.after_eq _ hdescend]
    refine (Scan.step_closeParen hbehind).trans ?_
    simp only [Scan.add, Scan.descend, Int.add_sub_cancel, Nat.add_assoc, Nat.add_comm 1 m]
  refine between hwhole fun scan hscan front hfront => ?_
  have hinside := hs.depth_le scan.descend hscan front hfront
  have hdepth : scan.descend.depth = scan.depth + 1 := rfl
  rw [Scan.after_cons, Scan.step_openParen hscan]
  omega

end Balanced

/-! ### Expressions -/

namespace Expression

variable {prefixes : Bool}

private theorem balanced_items {es : List Expression}
    (hes : ∀ e ∈ es, Balanced (e.text prefixes) (e.weight .groups) (e.weight .strings)) :
    Balanced (itemsText prefixes es) (weightAll .groups es) (weightAll .strings es) := by
  induction es with
  | nil => exact .plain nofun
  | cons e es ih =>
    have he := hes e (List.mem_cons_self ..)
    have ih' := ih fun d hd => hes d (List.mem_cons_of_mem _ hd)
    cases es with
    | nil => exact he
    | cons e' es =>
      have hseparator : Balanced (ascii ", ") 0 0 := .plain (by decide +kernel)
      have h := he.append (hseparator.append ih')
      rw [Nat.zero_add, Nat.zero_add] at h
      rw [itemsText_cons_cons]
      exact h

/-- The text of an expression is balanced if no string in it contains a quote. -/
theorem IsQuoteFree.balanced {e : Expression} (h : e.IsQuoteFree) (prefixes : Bool) :
    Balanced (e.text prefixes) (e.weight .groups) (e.weight .strings) := by
  induction h with
  | string hs =>
    rw [text_string]
    exact .string hs
  | @call f es _ ih =>
    have hname : Balanced (f.spelling prefixes) 0 0 := .plain Function.of_mem_spelling
    have hopened : (Expression.call f es).weight .groups = 0 + (weightAll .groups es + 1) := by
      simp only [weight, Weights.groups, Nat.zero_add, Nat.add_comm]
    have hstrings : (Expression.call f es).weight .strings = 0 + weightAll .strings es := rfl
    rw [text_call, hopened, hstrings]
    exact hname.append (balanced_items ih).parentheses
  | @sequence es _ ih =>
    have hopened : (Expression.sequence es).weight .groups = weightAll .groups es + 1 := by
      simp only [weight, Weights.groups, Nat.add_comm]
    have hstrings : (Expression.sequence es).weight .strings = weightAll .strings es := by
      simp only [weight, Weights.strings, Nat.zero_add]
    rw [text_sequence, hopened, hstrings]
    exact (balanced_items ih).parentheses

end Expression

end DocSearch
