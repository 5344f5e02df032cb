import DocSearch.Proofs.Double.Value
import DocSearch.Proofs.Query.Comparisons
import DocSearch.Proofs.Query.WellFormed

/-!
# Numbers as literals

A number may stand where a literal is expected (`LiteralPlace`), behind a comparator or in a list.  Without a point it
is read if it is a word with a sign, and with a point if it is zero or normal; the comparison then holds exactly this
integer, or the double nearest to the number, and shows it in the compiled query.  Any other number is refused where it
stands (`LiteralPlace.reads_number`).
-/

namespace DocSearch

open State (run)

variable {rule : NameRule}

/-- In this state the next token must be a literal, for the element of the given name. -/
def State.Awaits (st : State) (name : ElementName) : Prop :=
  ∃ q n, st = .criteria q n (.value name) ∨ ∃ values, st = .criteria q n (.listValue name values)

/-- A token of a text that stands where a literal is expected. -/
structure LiteralPlace (rule : NameRule) (s : Text) where
  before : List Token
  token : Token
  after : List Token
  state : State
  name : ElementName
  tokens_eq : tokens s = before ++ token :: after
  run_eq : run rule .start before = .ok state
  awaits : state.Awaits name

/-! ### What numerals denote -/

namespace Numeral

variable {n : Numeral} {v : Scalar}

theorem exists_denotes_integer (hf : n.fraction = none) :
    (∃ v, n.Denotes v) ↔ -2 ^ 63 ≤ n.integer ∧ n.integer ≤ 2 ^ 63 - 1 := by
  constructor
  · rintro ⟨v, hv⟩
    cases hv with
    | @integer i _ hi =>
      rw [← hi]
      exact ⟨i.le_toInt, i.toInt_le⟩
    | decimal hf' _ =>
      rw [hf] at hf'
      cases hf'
  · rintro ⟨hlow, hhigh⟩
    exact ⟨.int (Int64.ofInt n.integer), .integer hf (Int64.toInt_ofInt_of_le hlow (by omega))⟩

theorem Denotes.integer_eq (h : n.Denotes v) (hf : n.fraction = none) :
    ∃ i : Int64, v = .int i ∧ i.toInt = n.integer := by
  cases h with
  | @integer i _ hi => exact ⟨i, rfl, hi⟩
  | decimal hf' _ =>
    rw [hf] at hf'
    cases hf'

theorem Denotes.isNearest (h : n.Denotes v) (hf : n.fraction ≠ none) :
    ∃ d : Double, v = .double d ∧ d.isFinite = true ∧ d.isNegative = n.negative ∧ d.IsNearest n.value := by
  cases h with
  | integer hf' _ => exact absurd hf' hf
  | @decimal f d hf' hd =>
    obtain ⟨hfinite, hnegative, hnearest⟩ := Double.isNearest_of_ofRatio? (Nat.pow_pos (by decide)) hd
    refine ⟨d, rfl, hfinite, hnegative, ?_⟩
    rw [value, size_of_fraction hf']
    exact hnearest

theorem exists_denotes_decimal (hf : n.fraction ≠ none)
    (h : n.value = 0 ∨ Double.leastNormal ≤ |n.value| ∧ |n.value| ≤ Double.greatest) : ∃ v, n.Denotes v := by
  obtain ⟨f, hf'⟩ := Option.ne_none_iff_exists'.1 hf
  rw [← abs_eq_zero, abs_value, size_of_fraction hf'] at h
  obtain ⟨d, hd⟩ := Double.exists_ofRatio? n.negative (Nat.pow_pos (by decide)) h
  exact ⟨.double d, .decimal hf' hd⟩

theorem not_denotes_of_infinite (hf : n.fraction ≠ none) {d : Double} (hfinite : d.isFinite = false)
    (hnegative : d.isNegative = n.negative) (hd : d.IsNearest n.value) : ¬ n.Denotes v := by
  intro hv
  cases hv with
  | integer hf' _ => exact hf hf'
  | @decimal f _ hf' hd' =>
    have hpos : 0 < Nat.pow 10 f.length := Nat.pow_pos (by decide)
    rw [value, size_of_fraction hf', ← hnegative] at hd
    rw [← hnegative, Double.ofRatio?_of_infinite hpos hd hfinite] at hd'
    cases hd'

end Numeral

/-- The numeral of an integer is canonical: a minus sign only if it is negative, and no leading zeros. -/
theorem Decimal.isCanonical_ofInt (i : Int) :
    ∃ digits, IsCanonical digits i.natAbs ∧ ofInt i = if i < 0 then '-'.toUInt8 :: digits else digits := by
  refine ⟨ofNat i.natAbs, isCanonical_ofNat _, ?_⟩
  cases i with
  | ofNat k => rfl
  | negSucc k => rw [if_pos (Int.negSucc_lt_zero k)]; rfl

namespace LiteralPlace

variable {s : Text}

/-- The text is read up to the literal and beyond it. -/
def Accepts (p : LiteralPlace rule s) : Prop := ∃ st, run rule .start (p.before ++ [p.token]) = .ok st

/-- The literal is read as the given value: this is the value of the next comparison, in the state behind the literal
and in the query of the text, and it shows in the compiled query. -/
structure Holds (p : LiteralPlace rule s) (v : Scalar) : Prop where
  reads : ∃ st, run rule .start (p.before ++ [p.token]) = .ok st ∧
    st.comparisons = p.state.comparisons ++ [(p.name, .scalar v)]
  leaf : ∀ q, Query.parse s rule = .ok q → p.state.comparisons ++ [(p.name, .scalar v)] <+: q.comparisons
  shows : ∀ q, Query.parse s rule = .ok q → ∀ prefixes, ∃ text, q.compile prefixes = .ok text ∧
    spellAll prefixes (comparisonExpression p.name v.lexical).segments <:+: text ∧
      ascii "'" ++ v.lexical ++ ascii "'" <:+: text

theorem run_token (p : LiteralPlace rule s) :
    run rule .start (p.before ++ [p.token]) = p.state.step rule p.token := by
  rw [State.run_append_of_ok p.run_eq, State.run_singleton]

theorem run_tokens (p : LiteralPlace rule s) :
    run rule .start (tokens s) = p.state.step rule p.token >>= fun st => run rule st p.after := by
  rw [p.tokens_eq, State.run_append_of_ok p.run_eq, State.run_cons]

theorem isRead_token (p : LiteralPlace rule s) : p.token.IsRead := by
  refine isRead_of_mem_tokens (s := s) ?_
  rw [p.tokens_eq]
  simp

/-- The state behind a literal has its comparison. -/
theorem step_of_literal {p : LiteralPlace rule s} {v : Value} (hv : p.token.literal = .ok v) :
    ∃ st, p.state.step rule p.token = .ok st ∧ st.comparisons = p.state.comparisons ++ [(p.name, v)] := by
  obtain ⟨q, n, hst | ⟨values, hst⟩⟩ := p.awaits
  · rw [hst]
    exact State.comparisons_step_value hv
  · rw [hst]
    exact State.comparisons_step_listValue hv

theorem holds_of_literal {p : LiteralPlace rule s} {v : Scalar} (hv : p.token.literal = .ok (.scalar v)) :
    p.Holds v := by
  obtain ⟨st, hst, hcomparisons⟩ := step_of_literal hv
  have hleaf : ∀ q, Query.parse s rule = .ok q → p.state.comparisons ++ [(p.name, .scalar v)] <+: q.comparisons := by
    intro q hq
    have hrun := Query.parse_eq_ok.1 hq
    rw [p.run_tokens, hst, ok_bind] at hrun
    rw [← hcomparisons]
    exact State.comparisons_run hrun
  refine ⟨⟨st, p.run_token.trans hst, hcomparisons⟩, hleaf, fun q hq prefixes => ?_⟩
  obtain ⟨text, htext⟩ := (Query.wellFormed_of_parse hq).compile_ok prefixes
  have hmem : (p.name, Value.scalar v) ∈ q.comparisons :=
    (hleaf q hq).subset (List.mem_append_right _ (List.mem_singleton_self _))
  have hshows := Query.shows_comparison htext hmem
  have hlexical := Query.shows_lexical htext hmem
  rw [Value.lexical] at hshows hlexical
  exact ⟨text, htext, hshows, hlexical⟩

theorem step_of_literal_error {p : LiteralPlace rule s} {e : ParseError} (he : p.token.literal = .error e) :
    p.state.step rule p.token = .error e := by
  obtain ⟨q, n, hst | ⟨values, hst⟩⟩ := p.awaits
  · rw [hst]
    show (p.token.literal >>= fun v => .ok (State.criteria q (n.push (.leaf p.name v)) .joint)) = _
    rw [he]
    rfl
  · rw [hst]
    show (p.token.literal >>= fun v => .ok (State.criteria q n (.listNext p.name (values ++ [v])))) = _
    rw [he]
    rfl

/-! ### Numbers -/

variable {p : LiteralPlace rule s} {n : Numeral}

theorem holds_of_denotes (hp : p.token.kind = .number) (hn : p.token.text = n.text) {v : Scalar} (hv : n.Denotes v) :
    p.Holds v := by
  refine holds_of_literal ?_
  rw [Token.literal, hp, hn, Numeral.ofNumeral?_text.2 hv]

/-- A number that denotes nothing is out of range. -/
theorem step_of_not_denotes (hp : p.token.kind = .number) (hn : p.token.text = n.text) (hv : ∀ v, ¬ n.Denotes v) :
    p.state.step rule p.token = .error ⟨.numberOutOfRange, p.token.position⟩ := by
  have hnone : Scalar.ofNumeral? n.text = none := by
    cases h : Scalar.ofNumeral? n.text with
    | none => rfl
    | some v => exact absurd (Numeral.ofNumeral?_text.1 h) (hv v)
  refine step_of_literal_error ?_
  rw [Token.literal, hp, hn, hnone]
  exact Token.refuse_of_number hp _

theorem accepts_iff (hp : p.token.kind = .number) (hn : p.token.text = n.text) : p.Accepts ↔ ∃ v, n.Denotes v := by
  constructor
  · rintro ⟨st, hst⟩
    by_contra hv
    rw [p.run_token, step_of_not_denotes hp hn (not_exists.1 hv)] at hst
    cases hst
  · rintro ⟨v, hv⟩
    obtain ⟨st, hst, -⟩ := (holds_of_denotes hp hn hv).reads
    exact ⟨st, hst⟩

/-- Numbers as literals mean what they say: which of them are read, as what, and how the others are refused. -/
theorem reads_number (p : LiteralPlace rule s) (hp : p.token.kind = .number) :
    ∃ n : Numeral, p.token.text = n.text ∧
      (n.fraction = none →
        (p.Accepts ↔ -2 ^ 63 ≤ n.integer ∧ n.integer ≤ 2 ^ 63 - 1) ∧
        (p.Accepts → ∃ v : Int64, v.toInt = n.integer ∧ p.Holds (.int v) ∧
          ∃ digits, Decimal.IsCanonical digits n.integer.natAbs ∧
            Scalar.lexical (.int v) = if n.integer < 0 then '-'.toUInt8 :: digits else digits)) ∧
      (n.fraction ≠ none →
        (n.value = 0 ∨ Double.leastNormal ≤ |n.value| ∧ |n.value| ≤ Double.greatest → p.Accepts) ∧
        (p.Accepts → ∃ d : Double, d.isFinite = true ∧ d.isNegative = n.negative ∧ d.IsNearest n.value ∧
          p.Holds (.double d)) ∧
        ∀ d : Double, d.isFinite = false → d.isNegative = n.negative → d.IsNearest n.value → ¬ p.Accepts) ∧
      (¬ p.Accepts → ∃ e, Query.parse s rule = .error e ∧ e.fault.message = ascii "Numeric literal out of range" ∧
        e.position = p.token.position) := by
  obtain ⟨n, hn⟩ : ∃ n : Numeral, p.token.text = n.text := by
    rcases p.isRead_token with hend | ⟨x, hx⟩
    · rw [hp] at hend
      cases hend
    · exact hx.number_text hp
  have haccepts := accepts_iff hp hn
  refine ⟨n, hn, fun hf => ⟨?_, fun h => ?_⟩, fun hf => ⟨fun h => ?_, fun h => ?_, fun d hd hs hnearest h => ?_⟩,
    fun h => ?_⟩
  · rw [haccepts, Numeral.exists_denotes_integer hf]
  · obtain ⟨v, hv⟩ := haccepts.1 h
    obtain ⟨i, rfl, hi⟩ := hv.integer_eq hf
    have hlexical : Scalar.lexical (.int i) = Decimal.ofInt n.integer := congrArg Decimal.ofInt hi
    have hdigits := Decimal.isCanonical_ofInt n.integer
    rw [← hlexical] at hdigits
    exact ⟨i, hi, holds_of_denotes hp hn hv, hdigits⟩
  · exact haccepts.2 (Numeral.exists_denotes_decimal hf h)
  · obtain ⟨v, hv⟩ := haccepts.1 h
    obtain ⟨d, rfl, hfinite, hnegative, hnearest⟩ := hv.isNearest hf
    exact ⟨d, hfinite, hnegative, hnearest, holds_of_denotes hp hn hv⟩
  · obtain ⟨v, hv⟩ := haccepts.1 h
    exact Numeral.not_denotes_of_infinite hf hd hs hnearest hv
  · rw [haccepts, not_exists] at h
    refine ⟨⟨.numberOutOfRange, p.token.position⟩, Query.parse_eq_error.2 ?_, rfl, rfl⟩
    rw [p.run_tokens, step_of_not_denotes hp hn h]
    rfl

/-- The tokens in front of the second value of a list. -/
private def listFront : List Token :=
  [⟨⟨.keyword .search, ascii "SEARCH"⟩, 0⟩, ⟨⟨.keyword .where_, ascii "WHERE"⟩, 7⟩, ⟨⟨.identifier, ascii "a"⟩, 13⟩,
    ⟨⟨.keyword .in_, ascii "IN"⟩, 15⟩, ⟨⟨.openParen, ascii "("⟩, 18⟩, ⟨⟨.keyword .null, ascii "NULL"⟩, 19⟩,
    ⟨⟨.comma, ascii ","⟩, 23⟩]

private def secondValue : LiteralPlace .ascii (ascii "SEARCH WHERE a IN (NULL, -007)") where
  before := listFront
  token := ⟨⟨.number, ascii "-007"⟩, 25⟩
  after := [⟨⟨.closeParen, ascii ")"⟩, 29⟩, ⟨⟨.endOfText, []⟩, 30⟩]
  state := .criteria {} {} (.listValue ⟨[], ascii "a"⟩ [.scalar .null])
  name := ⟨[], ascii "a"⟩
  tokens_eq := by decide +kernel
  run_eq := rfl
  awaits := ⟨_, _, Or.inr ⟨_, rfl⟩⟩

/-- The leading zeros of a value are dropped, in the compiled query too. -/
theorem reads_number_secondValue :
    ∃ v : Int64, v.toInt = -7 ∧ secondValue.Holds (.int v) ∧ Scalar.lexical (.int v) = ascii "-7" ∧
      ∃ q text, Query.parse (ascii "SEARCH WHERE a IN (NULL, -007)") = .ok q ∧ q.compile false = .ok text ∧
        ascii "'-7'" <:+: text ∧
        text = ascii "search(collection(), or-query((element-value-query(QName('', 'a'), ''), " ++
          ascii "element-value-query(QName('', 'a'), '-7'))), ())" := by
  obtain ⟨n, hn, hinteger, -⟩ := reads_number secondValue rfl
  have hsign : (n.negative, n.unsigned) = (true, ascii "007") := by
    rw [← n.splitSign_text, ← hn]
    decide +kernel
  have hfraction : n.fraction = none := by
    have hpoint : '.'.toUInt8 ∉ n.text := by
      rw [← hn]
      decide +kernel
    rw [Numeral.point_mem_text] at hpoint
    exact Option.eq_none_iff_forall_ne_some.2 fun f hf => hpoint ⟨f, hf⟩
  have hwhole : n.whole = ascii "007" := by
    have hunsigned : n.unsigned = n.whole := by simp [Numeral.unsigned, Numeral.pointed, hfraction]
    rw [← hunsigned]
    exact (Prod.mk.inj hsign).2
  have hvalue : n.integer = -7 := by
    rw [Numeral.integer, hwhole, (Prod.mk.inj hsign).1]
    decide +kernel
  obtain ⟨haccepts, hholds⟩ := hinteger hfraction
  rw [hvalue] at haccepts hholds
  obtain ⟨v, hv, hplace, -⟩ := hholds (haccepts.2 (by decide))
  have hlexical : Scalar.lexical (.int v) = ascii "-7" := (congrArg Decimal.ofInt hv).trans (by decide +kernel)
  obtain ⟨q, hparse, hcompile⟩ : ∃ q, Query.parse (ascii "SEARCH WHERE a IN (NULL, -007)") = .ok q ∧
      q.compile false =
        .ok (ascii "search(collection(), or-query((element-value-query(QName('', 'a'), ''), " ++
          ascii "element-value-query(QName('', 'a'), '-7'))), ())") := by
    refine ⟨{ criteria := some (.composite .or
      [.leaf ⟨[], ascii "a"⟩ (.scalar .null), .leaf ⟨[], ascii "a"⟩ (.scalar (.int (-7)))]) }, ?_⟩
    decide +kernel
  obtain ⟨text, htext, -, hshows⟩ := hplace.shows q hparse false
  rw [hlexical] at hshows
  exact ⟨v, hv, hplace, hlexical, q, text, hparse, htext, hshows, Except.ok.inj (htext.symm.trans hcompile)⟩

end LiteralPlace

end DocSearch
