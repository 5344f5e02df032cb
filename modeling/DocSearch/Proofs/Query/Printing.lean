import DocSearch.Proofs.Double.Exact
import DocSearch.Proofs.Query.WellFormed

/-!
# Writing queries as text

A query is written as lexemes with a space after each of them: names always with their namespace in braces, so
that no name is taken for a keyword, composites always in parentheses, so that chains of one connective stay
apart, and doubles with all their places.  The queries that text can express are read back from what is written
for them (`Query.parse_print`).
-/

namespace DocSearch

/-! ### Spelling lexemes -/

/-- A quote that does not occur in the text, if there is one. -/
def Text.quoteFor (s : Text) : UInt8 := if 39 ∈ s then 34 else 39

/-- The source bytes of a lexeme, a string between quotes that it does not contain. -/
def Lexeme.written (l : Lexeme) : Text := l.source l.text.quoteFor

def Keyword.lexeme (k : Keyword) : Lexeme := ⟨.keyword k, k.spelling⟩

def Numeral.lexeme (n : Numeral) : Lexeme := ⟨.number, n.text⟩

def Connective.lexeme : Connective → Lexeme
  | and => Keyword.and.lexeme
  | or => Keyword.or.lexeme

def ElementName.lexeme (name : ElementName) : Lexeme :=
  ⟨.qualifiedName, '{'.toUInt8 :: name.uri ++ '}'.toUInt8 :: name.localName⟩

/-- The numeral of a natural number. -/
def Numeral.ofNat (n : Nat) : Numeral := ⟨false, Decimal.ofNat n, none, Decimal.isDigits_ofNat n, nofun⟩

def Numeral.ofInt (i : Int) : Numeral :=
  ⟨decide (i < 0), Decimal.ofNat i.natAbs, none, Decimal.isDigits_ofNat _, nofun⟩

def Scalar.lexeme : Scalar → Lexeme
  | null => Keyword.null.lexeme
  | string s => ⟨.string, s⟩
  | bool true => Keyword.true.lexeme
  | bool false => Keyword.false.lexeme
  | int n => (Numeral.ofInt n.toInt).lexeme
  | double d => d.exactNumeral.lexeme

/-! ### Writing queries -/

/-- The parts one after the other, with a separator between any two neighbours. -/
def separated (separator : Lexeme) : List (List Lexeme) → List Lexeme
  | [] => []
  | part :: parts => part ++ parts.flatMap (separator :: ·)

/-- A sequence has no text. -/
def Value.lexemes : Value → List Lexeme
  | scalar s => [s.lexeme]
  | sequence _ => []

mutual

/-- The lexemes of criteria as a comparison; `null` has no text. -/
def Criteria.lexemes : Criteria → List Lexeme
  | leaf name value => name.lexeme :: ⟨.equal, ascii "="⟩ :: value.lexemes
  | composite op cs => ⟨.openParen, ascii "("⟩ :: separated op.lexeme (lexemesAll cs) ++ [⟨.closeParen, ascii ")"⟩]
  | null => []

def Criteria.lexemesAll : List Criteria → List (List Lexeme)
  | [] => []
  | c :: cs => c.lexemes :: lexemesAll cs

end

def SortKey.lexemes (key : SortKey) : List Lexeme :=
  [key.name.lexeme, if key.descending then Keyword.desc.lexeme else Keyword.asc.lexeme]

namespace Query

def collectionLexemes (q : Query) : List Lexeme :=
  match q.collection with
  | none => []
  | some s => [Keyword.in_.lexeme, ⟨.string, s⟩]

def criteriaLexemes (q : Query) : List Lexeme :=
  match q.criteria with
  | none => []
  | some c => Keyword.where_.lexeme :: c.lexemes

def sortLexemes (q : Query) : List Lexeme :=
  match q.sort with
  | none => []
  | some keys =>
    Keyword.order.lexeme :: Keyword.by_.lexeme :: separated ⟨.comma, ascii ","⟩ (keys.map SortKey.lexemes)

def pageLexemes (q : Query) : List Lexeme :=
  match q.limit, q.skip with
  | none, _ => []
  | some n, none => [Keyword.limit.lexeme, (Numeral.ofNat n.toNat).lexeme]
  | some n, some m =>
    [Keyword.limit.lexeme, (Numeral.ofNat n.toNat).lexeme, Keyword.offset.lexeme, (Numeral.ofNat m.toNat).lexeme]

def lexemes (q : Query) : List Lexeme :=
  Keyword.search.lexeme :: (q.collectionLexemes ++ q.criteriaLexemes ++ q.sortLexemes ++ q.pageLexemes)

/-- The query as text. -/
def print (q : Query) : Text := spaced (q.lexemes.map Lexeme.written)

end Query

/-! ### What text can express -/

/-- Not both quotes occur in the text. -/
def IsQuotable (s : Text) : Prop := 39 ∉ s ∨ 34 ∉ s

/-- The rule accepts texts of word bytes only: letters, digits, hyphens, dots, underscores and bytes above 0x7F. -/
def NameRule.AcceptsWords (rule : NameRule) : Prop := ∀ s, rule s = true → ∀ b ∈ s, continuesWord b = true

theorem NameRule.acceptsWords_ascii : NameRule.ascii.AcceptsWords := by
  intro s hs
  cases s with
  | nil => cases hs
  | cons b s =>
    simp only [NameRule.ascii, Bool.and_eq_true, Bool.or_eq_true, List.all_eq_true] at hs
    intro c hc
    rcases List.mem_cons.1 hc with rfl | hc
    · have hstart : startsWord c = true := by simpa [startsWord] using Or.inl hs.1
      simp [continuesWord, hstart]
    · rcases hs.2 c hc with (((h | h) | h) | h) | h <;> simp [continuesWord, startsWord, h]

structure ElementName.IsExpressible (rule : NameRule) (name : ElementName) : Prop where
  uri : '}'.toUInt8 ∉ name.uri
  localName_ne_nil : name.localName ≠ []
  localName : rule name.localName = true

/-- A double is expressible if a numeral with a point denotes it. -/
def Scalar.IsExpressible : Scalar → Prop
  | .string s => IsQuotable s
  | .double d => ∃ n : Numeral, n.Denotes (.double d)
  | _ => True

def Value.IsExpressible : Value → Prop
  | .scalar s => s.IsExpressible
  | .sequence _ => False

inductive Criteria.IsExpressible (rule : NameRule) : Criteria → Prop
  | leaf {name : ElementName} {v : Value} (hn : name.IsExpressible rule) (hv : v.IsExpressible) :
      IsExpressible rule (.leaf name v)
  | composite {op : Connective} {cs : List Criteria} (hlen : 2 ≤ cs.length) (hcs : ∀ c ∈ cs, IsExpressible rule c) :
      IsExpressible rule (.composite op cs)

structure Query.IsExpressible (rule : NameRule) (q : Query) : Prop where
  collection : ∀ s ∈ q.collection, IsQuotable s
  criteria : ∀ c ∈ q.criteria, c.IsExpressible rule
  sort : ∀ keys ∈ q.sort, keys ≠ [] ∧ ∀ key ∈ keys, key.name.IsExpressible rule
  skip : q.skip.isSome = true → q.limit.isSome = true
  limit : ∀ n ∈ q.limit, 1 ≤ n.toNat ∧ ∀ m ∈ q.skip, m.toNat + n.toNat < UInt64.size

/-! ### Lexemes are read as they are written -/

/-- The bytes that are written for the lexeme spell it, and something may follow them. -/
def Lexeme.IsWritable (l : Lexeme) : Prop := l.kind ≠ .invalid ∧ l.Spelled l.written

theorem Text.quoteFor_not_mem {s : Text} (h : IsQuotable s) : s.quoteFor ∉ s := by
  unfold quoteFor
  split
  · rename_i hs
    exact h.resolve_left (not_not_intro hs)
  · assumption

namespace Lexeme

theorem isWritable_string {s : Text} (h : IsQuotable s) : IsWritable ⟨.string, s⟩ := by
  have hquote : isQuote s.quoteFor = true := by
    unfold Text.quoteFor
    split <;> decide
  exact ⟨nofun, .string hquote (Text.quoteFor_not_mem h)⟩

theorem isWritable_keyword (k : Keyword) : k.lexeme.IsWritable := by
  have hspelling : ∃ b s, k.spelling = b :: s ∧ startsWord b = true ∧ s.all continuesWord = true ∧
      Keyword.ofWord? (b :: s) = some k := by
    cases k <;> exact ⟨_, _, rfl, by decide, by decide, by decide⟩
  obtain ⟨b, s, hs, hb, hall, hk⟩ := hspelling
  refine ⟨nofun, ?_⟩
  rw [Keyword.lexeme, hs]
  exact .keyword hb (List.all_eq_true.1 hall) hk

theorem isWritable_numeral (n : Numeral) : n.lexeme.IsWritable := ⟨nofun, .number n⟩

theorem isWritable_punctuation {b : UInt8} {kind : Kind} (h : punctuation? b = some kind) :
    IsWritable ⟨kind, [b]⟩ := by
  rcases punctuation?_cases h with rfl | rfl | rfl | rfl | rfl <;> exact ⟨nofun, .punctuation h⟩

theorem isWritable_name {rule : NameRule} (hrule : rule.AcceptsWords) {name : ElementName}
    (h : name.IsExpressible rule) : name.lexeme.IsWritable :=
  ⟨nofun, .qualifiedName h.uri (hrule _ h.localName)⟩

theorem isWritable_scalar {s : Scalar} (h : s.IsExpressible) : s.lexeme.IsWritable := by
  cases s with
  | null => exact isWritable_keyword _
  | string s => exact isWritable_string h
  | bool b => cases b <;> exact isWritable_keyword _
  | int n => exact isWritable_numeral _
  | double d => exact isWritable_numeral _

end Lexeme

/-! ### Phrases -/

variable {rule : NameRule}

/-- The lexemes as tokens, all at the same place. -/
def unplaced (ls : List Lexeme) : List Token := ls.map fun l => ⟨l, 0⟩

/-- The lexemes are those of the phrase, and they can be written. -/
structure Writes (rule : NameRule) (p : Phrase) (ls : List Lexeme) : Prop where
  derives : Derives rule p (unplaced ls)
  writable : ∀ l ∈ ls, l.IsWritable

theorem unplaced_append (ls ls' : List Lexeme) : unplaced (ls ++ ls') = unplaced ls ++ unplaced ls' :=
  List.map_append

/-- A list of parts is written as the parts with separators between them, if one part makes a list and a list goes
on behind a separator. -/
theorem writes_separated {α : Type} {each : α → Phrase} (all : List α → Phrase) {separator : Lexeme}
    {write : α → List Lexeme} (hone : ∀ {x a}, Derives rule (each x) a → Derives rule (all [x]) a)
    (hmore : ∀ {xs x a b}, Derives rule (all xs) a → Derives rule (each x) b →
      Derives rule (all (xs ++ [x])) (a ++ ⟨separator, 0⟩ :: b))
    (hseparator : separator.IsWritable) {xs : List α} (hne : xs ≠ [])
    (hxs : ∀ x ∈ xs, Writes rule (each x) (write x)) :
    Writes rule (all xs) (separated separator (xs.map write)) := by
  obtain ⟨x, xs, rfl⟩ := List.exists_cons_of_ne_nil hne
  -- the list grows at its end, one separator and one part at a time
  have hgrow : ∀ (ys : List α) (ls : List Lexeme) (zs : List α), Writes rule (all ys) ls →
      (∀ z ∈ zs, Writes rule (each z) (write z)) →
      Writes rule (all (ys ++ zs)) (ls ++ (zs.map write).flatMap (separator :: ·)) := by
    intro ys ls zs
    induction zs generalizing ys ls with
    | nil =>
      intro h _
      simpa using h
    | cons z zs ih =>
      intro h hzs
      have hz := hzs z (List.mem_cons_self ..)
      have hstep : Writes rule (all (ys ++ [z])) (ls ++ separator :: write z) := by
        refine ⟨?_, ?_⟩
        · rw [unplaced_append]
          exact hmore h.derives hz.derives
        · intro l hl
          rcases List.mem_append.1 hl with hl | hl
          · exact h.writable l hl
          · rcases List.mem_cons.1 hl with rfl | hl
            · exact hseparator
            · exact hz.writable l hl
      simpa using ih _ _ hstep fun w hw => hzs w (List.mem_cons_of_mem _ hw)
  have hx := hxs x (List.mem_cons_self ..)
  simpa [separated] using hgrow [x] (write x) xs ⟨hone hx.derives, hx.writable⟩ fun z hz =>
    hxs z (List.mem_cons_of_mem _ hz)

/-! ### Names and values -/

/-- A name without zero byte is admitted as a whole. -/
private theorem admits_of_accepts (hrule : rule.AcceptsWords) {name : Text} (hne : name ≠ [])
    (h : rule name = true) : rule.admits name = true := by
  have hzero : continuesWord 0 = false := by decide
  have hwhole : name.beforeZero = name := by
    refine List.takeWhile_eq_self_iff.2 fun b hb => ?_
    rw [bne_iff_ne]
    rintro rfl
    rw [hrule name h 0 hb] at hzero
    cases hzero
  simp [NameRule.admits, hwhole, h, hne]

theorem writes_name (hrule : rule.AcceptsWords) {name : ElementName} (h : name.IsExpressible rule) :
    Writes rule (.field name) [name.lexeme] :=
  ⟨.qualifiedName rfl rfl h.uri (admits_of_accepts hrule h.localName_ne_nil h.localName),
    List.forall_mem_singleton.2 (Lexeme.isWritable_name hrule h)⟩

theorem Numeral.integer_ofInt (i : Int) : (Numeral.ofInt i).integer = i := by
  unfold Numeral.integer Numeral.ofInt
  simp only [Decimal.value_ofNat, decide_eq_true_eq]
  split <;> omega

theorem Numeral.counts_ofNat (n : UInt64) : Token.Counts ⟨(Numeral.ofNat n.toNat).lexeme, 0⟩ n := by
  have htext : (Numeral.ofNat n.toNat).text = Decimal.ofNat n.toNat := by
    simp [Numeral.text, Numeral.sign, Numeral.unsigned, Numeral.pointed, Numeral.ofNat]
  refine ⟨rfl, ?_, ?_⟩
  · simpa only [Numeral.lexeme, htext] using Decimal.isDigits_ofNat n.toNat
  · simp only [Numeral.lexeme, htext, Decimal.value_ofNat]

theorem derives_scalar {s : Scalar} (h : s.IsExpressible) :
    Derives rule (.literal (.scalar s)) (unplaced [s.lexeme]) := by
  cases s with
  | null => exact .nullWord rfl
  | string s => exact .string (t := ⟨⟨.string, s⟩, 0⟩) rfl
  | bool b =>
    cases b with
    | true => exact .trueWord rfl
    | false => exact .falseWord rfl
  | int n => exact .number rfl rfl (.integer rfl (Numeral.integer_ofInt n.toInt).symm)
  | double d =>
    obtain ⟨n, hn⟩ := h
    exact .number rfl rfl (Double.denotes_exactNumeral hn.isFinite)

theorem writes_value {v : Value} (h : v.IsExpressible) : Writes rule (.literal v) v.lexemes := by
  cases v with
  | scalar s => exact ⟨derives_scalar h, List.forall_mem_singleton.2 (Lexeme.isWritable_scalar h)⟩
  | sequence items => exact absurd h id

/-! ### Criteria -/

theorem Criteria.lexemesAll_eq_map (cs : List Criteria) : lexemesAll cs = cs.map lexemes := by
  induction cs with
  | nil => rfl
  | cons c cs ih => rw [lexemesAll, ih, List.map_cons]

/-- What is written between parentheses is a comparison of its own. -/
theorem writes_parentheses {c : Criteria} {ls : List Lexeme} (h : Writes rule (.expression c) ls) :
    Writes rule (.comparison c) (⟨.openParen, ascii "("⟩ :: ls ++ [⟨.closeParen, ascii ")"⟩]) := by
  refine ⟨?_, ?_⟩
  · rw [unplaced_append]
    exact .parentheses rfl h.derives rfl
  · have hopen : Lexeme.IsWritable ⟨.openParen, ascii "("⟩ := Lexeme.isWritable_punctuation (b := 40) rfl
    have hclose : Lexeme.IsWritable ⟨.closeParen, ascii ")"⟩ := Lexeme.isWritable_punctuation (b := 41) rfl
    intro l hl
    simp only [List.mem_append, List.mem_cons, List.not_mem_nil, or_false] at hl
    rcases hl with (rfl | hl) | rfl
    · exact hopen
    · exact h.writable l hl
    · exact hclose

/-- Operands make a chain of their connective. -/
theorem writes_chain {op : Connective} {cs : List Criteria} (hlen : 2 ≤ cs.length)
    (h : ∀ c ∈ cs, Writes rule (.comparison c) c.lexemes) :
    Writes rule (.expression (.composite op cs)) (separated op.lexeme (cs.map Criteria.lexemes)) := by
  have hne : cs ≠ [] := by
    rintro rfl
    simp at hlen
  cases op with
  | and =>
    have hchain := writes_separated .conjuncts .oneConjunct (fun ha hb => .moreConjuncts ha rfl hb)
      (Lexeme.isWritable_keyword .and) hne h
    exact ⟨.singleExpression (.oneDisjunct (.conjunction hchain.derives hlen)), hchain.writable⟩
  | or =>
    have hchain := writes_separated .disjuncts
      (fun ha => .oneDisjunct (.singleConjunction (.oneConjunct ha)))
      (fun ha hb => .moreDisjuncts ha rfl (.singleConjunction (.oneConjunct hb)))
      (Lexeme.isWritable_keyword .or) hne h
    exact ⟨.expression hchain.derives hlen, hchain.writable⟩

theorem Criteria.IsExpressible.writes (hrule : rule.AcceptsWords) {c : Criteria} (h : c.IsExpressible rule) :
    Writes rule (.comparison c) c.lexemes := by
  induction h with
  | leaf hn hv =>
    have hname := writes_name hrule hn
    have hvalue : Writes rule (.literal _) _ := writes_value hv
    have hequal : Lexeme.IsWritable ⟨.equal, ascii "="⟩ := Lexeme.isWritable_punctuation (b := 61) rfl
    refine ⟨.equality hname.derives rfl hvalue.derives, ?_⟩
    exact List.forall_mem_cons.2 ⟨hname.writable _ (List.mem_singleton_self _),
      List.forall_mem_cons.2 ⟨hequal, hvalue.writable⟩⟩
  | composite hlen _ ih =>
    rw [lexemes, lexemesAll_eq_map]
    exact writes_parentheses (writes_chain hlen ih)

/-! ### Clauses -/

theorem writes_sortKey (hrule : rule.AcceptsWords) {key : SortKey} (h : key.name.IsExpressible rule) :
    Writes rule (.sortKey key) key.lexemes := by
  obtain ⟨name, descending⟩ := key
  have hname := writes_name hrule h
  have hfront := hname.writable _ (List.mem_singleton_self _)
  cases descending with
  | true =>
    exact ⟨.descendingKey hname.derives rfl,
      List.forall_mem_cons.2 ⟨hfront, List.forall_mem_singleton.2 (Lexeme.isWritable_keyword .desc)⟩⟩
  | false =>
    exact ⟨.ascendingKey hname.derives rfl,
      List.forall_mem_cons.2 ⟨hfront, List.forall_mem_singleton.2 (Lexeme.isWritable_keyword .asc)⟩⟩

/-- A keyword in front of the lexemes of a clause. -/
private theorem writable_cons (k : Keyword) {ls : List Lexeme} (h : ∀ l ∈ ls, l.IsWritable) :
    ∀ l ∈ k.lexeme :: ls, l.IsWritable :=
  List.forall_mem_cons.2 ⟨Lexeme.isWritable_keyword k, h⟩

namespace Query

theorem writes_collection {q : Query} (h : ∀ s ∈ q.collection, IsQuotable s) :
    Writes rule (.collectionClause q.collection) q.collectionLexemes := by
  unfold collectionLexemes
  cases hc : q.collection with
  | none => exact ⟨.noCollection, List.forall_mem_nil _⟩
  | some s =>
    have hs := Lexeme.isWritable_string (h s hc)
    exact ⟨.collection (u := ⟨⟨.string, s⟩, 0⟩) rfl rfl, writable_cons .in_ (List.forall_mem_singleton.2 hs)⟩

theorem writes_criteria (hrule : rule.AcceptsWords) {q : Query} (h : ∀ c ∈ q.criteria, c.IsExpressible rule) :
    Writes rule (.criteriaClause q.criteria) q.criteriaLexemes := by
  unfold criteriaLexemes
  cases hc : q.criteria with
  | none => exact ⟨.noCriteria, List.forall_mem_nil _⟩
  | some c =>
    have hc := (h c hc).writes hrule
    have hexpression := Derives.singleExpression (.oneDisjunct (.singleConjunction (.oneConjunct hc.derives)))
    exact ⟨.criteria rfl hexpression, writable_cons .where_ hc.writable⟩

theorem writes_sort (hrule : rule.AcceptsWords) {q : Query}
    (h : ∀ keys ∈ q.sort, keys ≠ [] ∧ ∀ key ∈ keys, key.name.IsExpressible rule) :
    Writes rule (.orderClause q.sort) q.sortLexemes := by
  unfold sortLexemes
  cases hs : q.sort with
  | none => exact ⟨.noOrder, List.forall_mem_nil _⟩
  | some keys =>
    obtain ⟨hne, hkeys⟩ := h keys hs
    have hcomma : Lexeme.IsWritable ⟨.comma, ascii ","⟩ := Lexeme.isWritable_punctuation (b := 44) rfl
    have hlist := writes_separated .sortKeys .oneKey (fun ha hb => .moreKeys ha rfl hb) hcomma hne
      fun key hkey => writes_sortKey hrule (hkeys key hkey)
    exact ⟨.order rfl rfl hlist.derives, writable_cons .order (writable_cons .by_ hlist.writable)⟩

theorem writes_page {q : Query} (hskip : q.skip.isSome = true → q.limit.isSome = true)
    (hlimit : ∀ n ∈ q.limit, 1 ≤ n.toNat ∧ ∀ m ∈ q.skip, m.toNat + n.toNat < UInt64.size) :
    Writes rule (.pageClause q.skip q.limit) q.pageLexemes := by
  have hnumber : ∀ n : UInt64, ∀ l ∈ [(Numeral.ofNat n.toNat).lexeme], l.IsWritable := fun n =>
    List.forall_mem_singleton.2 (Lexeme.isWritable_numeral _)
  unfold pageLexemes
  cases hn : q.limit with
  | none =>
    have hm : q.skip = none := by
      cases hm : q.skip with
      | none => rfl
      | some m => simp [hm, hn] at hskip
    rw [hm]
    exact ⟨.noPage, List.forall_mem_nil _⟩
  | some n =>
    obtain ⟨hpos, hsum⟩ := hlimit n hn
    have hn0 : n ≠ 0 := by
      rintro rfl
      exact absurd hpos (by decide)
    have hcounts := Numeral.counts_ofNat n
    cases hm : q.skip with
    | none => exact ⟨.limit rfl hcounts hn0, writable_cons .limit (hnumber n)⟩
    | some m =>
      refine ⟨.offset rfl hcounts hn0 rfl (Numeral.counts_ofNat m) (hsum m hm), ?_⟩
      exact writable_cons .limit (List.forall_mem_cons.2
        ⟨Lexeme.isWritable_numeral _, writable_cons .offset (hnumber m)⟩)

theorem IsExpressible.writes (hrule : rule.AcceptsWords) {q : Query} (h : q.IsExpressible rule) :
    Writes rule (.query q) q.lexemes := by
  have ha : Writes rule (.collectionClause q.collection) q.collectionLexemes := writes_collection h.collection
  have hb := writes_criteria hrule h.criteria
  have hc := writes_sort hrule h.sort
  have hd : Writes rule (.pageClause q.skip q.limit) q.pageLexemes := writes_page h.skip h.limit
  refine ⟨?_, writable_cons .search ?_⟩
  · have hquery := Derives.query (t := ⟨Keyword.search.lexeme, 0⟩) rfl ha.derives hb.derives hc.derives hd.derives
      .noSemicolon
    rw [List.append_nil, ← unplaced_append, ← unplaced_append, ← unplaced_append] at hquery
    exact hquery
  · intro l hl
    simp only [List.mem_append] at hl
    rcases hl with ((hl | hl) | hl) | hl
    · exact ha.writable l hl
    · exact hb.writable l hl
    · exact hc.writable l hl
    · exact hd.writable l hl

/-! ### Reading back -/

/-- Lexemes that are written are the tokens of their text. -/
private theorem lexemes_written {ls : List Lexeme} (h : ∀ l ∈ ls, l.IsWritable) :
    (tokens (spaced (ls.map Lexeme.written))).map Token.toLexeme = ls ++ [⟨.endOfText, []⟩] := by
  refine lexemes_spaced ?_ fun l hl => (h l hl).1
  rw [List.forall₂_map_right_iff, List.forall₂_same]
  exact fun l hl => (h l hl).2

/-- Every query that text can express is denoted by the text that is written for it. -/
theorem parse_print (rule : NameRule) (hrule : rule.AcceptsWords) (q : Query) (hq : q.IsExpressible rule) :
    Query.parse q.print rule = .ok q := by
  have hwrites := hq.writes hrule
  have hsentence : IsSentence rule q (unplaced q.lexemes ++ [⟨⟨.endOfText, []⟩, 0⟩]) :=
    ⟨_, _, rfl, rfl, hwrites.derives⟩
  have hlexemes := lexemes_written hwrites.writable
  refine parse_eq_ok.2 (State.run_congr hsentence.run_eq ?_)
  rw [print, hlexemes]
  simp [unplaced, Function.comp_def]

example : Query.print { criteria := some (.composite .or [.leaf ⟨[], ascii "a"⟩ (.scalar (.bool true)),
    .leaf ⟨ascii "u", ascii "b"⟩ (.scalar (.string (ascii "it's")))]), limit := some 2 } =
    ascii "SEARCH WHERE ( {}a = TRUE OR {u}b = \"it's\" ) LIMIT 2 " := by
  decide +kernel

/-- A page of results in an order, with a conjunction as operand of a conjunction, names that are keywords, the
least integer, the double nearest to a tenth, and strings that need either quote. -/
def nestedConjunctions : Query where
  collection := some (ascii "it's")
  criteria := some (.composite .and
    [.composite .and
      [.leaf ⟨[], ascii "order"⟩ (.scalar (.int Int64.minValue)),
        .leaf ⟨ascii "urn:x", ascii "a.b"⟩ (.scalar (.double ⟨0x3FB999999999999A⟩))],
      .leaf ⟨[], ascii "name"⟩ (.scalar (.string (ascii "\"Me\"")))])
  skip := some 0
  limit := some 10
  sort := some [⟨⟨[], ascii "desc"⟩, true⟩]

theorem parse_print_nestedConjunctions :
    NameRule.ascii.AcceptsWords ∧ nestedConjunctions.IsExpressible .ascii ∧
      Query.parse nestedConjunctions.print = .ok nestedConjunctions := by
  have hname : ∀ uri name : Text, '}'.toUInt8 ∉ uri ∧ name ≠ [] ∧ NameRule.ascii name = true →
      ElementName.IsExpressible .ascii ⟨uri, name⟩ := fun _ _ h => ⟨h.1, h.2.1, h.2.2⟩
  have hinner : Criteria.IsExpressible .ascii (.composite .and
      [.leaf ⟨[], ascii "order"⟩ (.scalar (.int Int64.minValue)),
        .leaf ⟨ascii "urn:x", ascii "a.b"⟩ (.scalar (.double ⟨0x3FB999999999999A⟩))]) := by
    refine .composite (by decide) (List.forall_mem_cons.2 ⟨?_, List.forall_mem_singleton.2 ?_⟩)
    · exact .leaf (hname _ _ (by decide)) trivial
    · exact .leaf (hname _ _ (by decide)) ⟨_, Double.denotes_exactNumeral (by decide)⟩
  have hexpressible : nestedConjunctions.IsExpressible .ascii := by
    refine ⟨?_, ?_, ?_, fun _ => rfl, ?_⟩
    · rintro _ ⟨⟩
      exact Or.inr (by decide)
    · rintro _ ⟨⟩
      refine .composite (by decide) (List.forall_mem_cons.2 ⟨hinner, List.forall_mem_singleton.2 ?_⟩)
      exact .leaf (hname _ _ (by decide)) (Or.inl (by decide))
    · rintro _ ⟨⟩
      exact ⟨List.cons_ne_nil _ _, List.forall_mem_singleton.2 (hname _ _ (by decide))⟩
    · rintro _ ⟨⟩
      exact ⟨by decide, fun _ h => by cases h; decide⟩
  exact ⟨NameRule.acceptsWords_ascii, hexpressible, parse_print .ascii NameRule.acceptsWords_ascii _ hexpressible⟩

end Query

end DocSearch
