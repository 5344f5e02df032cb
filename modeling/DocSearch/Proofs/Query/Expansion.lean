import DocSearch.Proofs.Query.Position
import DocSearch.Proofs.Query.Recognition
import DocSearch.Proofs.Token.Pieces

/-!
# Writing a text out

A text is written out token by token: bare names with an empty namespace in braces, comparisons in parentheses,
membership tests as the chains of comparisons that they stand for, without `ASC` and semicolon.  What is written out
denotes the same query (`Query.parse_expansion`), by induction on the derivation: writing out the tokens of a phrase
gives tokens of the same phrase (`Phrase.Expands`).
-/

namespace DocSearch

/-! ### The expansion -/

namespace Token

/-- The bytes that a token takes up in its text. -/
def bytesIn (s : Text) (t : Token) : Text := (s.drop t.position).take t.width

/-- The field that a token names, a bare name with an empty namespace. -/
def qualified (t : Token) : Text := if t.kind = .identifier then '{'.toUInt8 :: '}'.toUInt8 :: t.text else t.text

end Token

/-- What is held back of a comparison that has not been read as a whole. -/
inductive Held where
  | nothing
  /-- A field, of a comparison or of a sort key. -/
  | field (f : Text)
  /-- The literal of an equality is next. -/
  | equality
  /-- The list of a membership test is next. -/
  | membership (f : Text)
  /-- Inside the list of a membership test. -/
  | list (f : Text)

namespace Held

variable (source : Token → Text)

/-- What a token outside comparisons is written as, and what is held back behind it. -/
def plain (t : Token) : List Text × Held :=
  match t.kind with
  | .identifier | .qualifiedName => ([], field t.qualified)
  | .keyword .asc | .semicolon => ([], nothing)
  | _ => ([source t], nothing)

/-- What is written for a token, and what is held back behind it. -/
def step (t : Token) : Held → List Text × Held
  | nothing => plain source t
  | field f =>
    match t.kind with
    | .equal => ([ascii "(", f, source t], equality)
    | .keyword .in_ => ([], membership f)
    | _ => (f :: (plain source t).1, (plain source t).2)
  | equality => ([source t, ascii ")"], nothing)
  | membership f => ([source t], list f)
  | list f =>
    match t.kind with
    | .comma => ([ascii "OR"], list f)
    | .closeParen => ([source t], nothing)
    | _ => ([f, ascii "=", source t], list f)

/-- What is still to be written in the end. -/
def rest : Held → List Text
  | field f => [f]
  | _ => []

/-- What is written for a list of tokens. -/
def expand : Held → List Token → List Text
  | h, [] => h.rest
  | h, t :: ts => (h.step source t).1 ++ expand (h.step source t).2 ts

end Held

/-- The text with names qualified and comparisons in parentheses, its tokens with single spaces between them. -/
def expansion (s : Text) : Text :=
  Text.join [32] (Held.nothing.expand (Token.bytesIn s) (tokens s).dropLast)

/-! ### Texts that spell phrases -/

/-- The texts spell the tokens, all of which are valid. -/
def SpellTokens (ts : List Token) (xs : List Text) : Prop :=
  List.Forall₂ (fun t x => t.toLexeme.Spelled x ∧ t.kind ≠ .invalid) ts xs

theorem SpellTokens.valid {ts : List Token} {xs : List Text} (h : SpellTokens ts xs) :
    ∀ t ∈ ts, t.kind ≠ .invalid := by
  induction h with
  | nil => nofun
  | cons h _ ih => exact List.forall_mem_cons.2 ⟨h.2, ih⟩

/-- The texts spell the tokens of a phrase. -/
def Spells (rule : NameRule) (p : Phrase) (xs : List Text) : Prop := ∃ ts, Derives rule p ts ∧ SpellTokens ts xs

/-- The text spells a valid token of the given kind. -/
def SpellsKind (k : Kind) (x : Text) : Prop := ∃ t : Token, t.kind = k ∧ SpellTokens [t] [x]

variable {rule : NameRule}

namespace Spells

variable {p p' p'' : Phrase} {xs ys : List Text} {x y : Text} {k : Kind}

theorem mono (h : Spells rule p xs) (hp : ∀ {a}, Derives rule p a → Derives rule p' a) : Spells rule p' xs := by
  obtain ⟨a, ha, hxs⟩ := h
  exact ⟨a, hp ha, hxs⟩

/-- A token in front of a phrase. -/
theorem cons (hx : SpellsKind k x) (h : Spells rule p xs)
    (hp : ∀ {t a}, t.kind = k → Derives rule p a → Derives rule p' (t :: a)) : Spells rule p' (x :: xs) := by
  obtain ⟨t, ht, htx⟩ := hx
  obtain ⟨a, ha, hxs⟩ := h
  exact ⟨t :: a, hp ht ha, List.rel_append htx hxs⟩

/-- A token behind a phrase. -/
theorem concat (h : Spells rule p xs) (hx : SpellsKind k x)
    (hp : ∀ {a t}, Derives rule p a → t.kind = k → Derives rule p' (a ++ [t])) : Spells rule p' (xs ++ [x]) := by
  obtain ⟨t, ht, htx⟩ := hx
  obtain ⟨a, ha, hxs⟩ := h
  exact ⟨a ++ [t], hp ha ht, List.rel_append hxs htx⟩

/-- A token between two phrases. -/
theorem between (h : Spells rule p xs) (hx : SpellsKind k x) (h' : Spells rule p' ys)
    (hp : ∀ {a t b}, Derives rule p a → t.kind = k → Derives rule p' b → Derives rule p'' (a ++ t :: b)) :
    Spells rule p'' (xs ++ x :: ys) := by
  obtain ⟨t, ht, htx⟩ := hx
  obtain ⟨a, ha, hxs⟩ := h
  obtain ⟨b, hb, hys⟩ := h'
  exact ⟨a ++ t :: b, hp ha ht hb, List.rel_append hxs (List.rel_append htx hys)⟩

end Spells

theorem spellsKind_punctuation {b : UInt8} {k : Kind} (h : Lexeme.punctuation? b = some k) : SpellsKind k [b] := by
  have hk : k ≠ .invalid := by
    rcases Lexeme.punctuation?_cases h with rfl | rfl | rfl | rfl | rfl <;> decide
  exact ⟨⟨⟨k, [b]⟩, 0⟩, rfl, .cons ⟨.punctuation h, hk⟩ .nil⟩

theorem spellsKind_or : SpellsKind (.keyword .or) (ascii "OR") :=
  ⟨⟨⟨.keyword .or, ascii "OR"⟩, 0⟩, rfl,
    .cons ⟨.keyword (by decide) (List.all_eq_true.1 rfl) (by decide), by decide⟩ .nil⟩

namespace Spells

variable {c : Criteria} {name : ElementName} {v : Value} {xs : List Text} {f x : Text}

/-- A comparison is an expression of its own. -/
theorem alone (h : Spells rule (.comparison c) xs) : Spells rule (.disjuncts [c]) xs :=
  h.mono fun ha => .oneDisjunct (.singleConjunction (.oneConjunct ha))

theorem expression (h : Spells rule (.disjuncts [c]) xs) : Spells rule (.expression c) xs := h.mono .singleExpression

theorem equality (hf : Spells rule (.field name) [f]) (hx : Spells rule (.literal v) [x]) :
    Spells rule (.comparison (.leaf name v)) [f, ascii "=", x] :=
  hf.between (spellsKind_punctuation (b := 61) rfl) hx .equality

theorem parentheses {y : Text} (hopen : SpellsKind .openParen x) (h : Spells rule (.expression c) xs)
    (hclose : SpellsKind .closeParen y) : Spells rule (.comparison c) (x :: xs ++ [y]) := by
  obtain ⟨t, ht, htx⟩ := hopen
  obtain ⟨u, hu, huy⟩ := hclose
  obtain ⟨a, ha, hxs⟩ := h
  exact ⟨t :: a ++ [u], .parentheses ht ha hu, List.rel_append (List.rel_append htx hxs) huy⟩

end Spells

/-! ### What is written for tokens -/

/-- Writing out the tokens behind `h` gives the texts and holds back `h'`. -/
def Emits (source : Token → Text) (h : Held) (ts : List Token) (xs : List Text) (h' : Held) : Prop :=
  ∀ us, h.expand source (ts ++ us) = xs ++ h'.expand source us

/-- At most a field is held back. -/
def Held.IsOpen (h : Held) : Prop := h = .nothing ∨ ∃ f, h = .field f

/-- Writing out the tokens behind whole comparisons gives the texts; a field may be held back before and behind. -/
def WritesOut (source : Token → Text) (ts : List Token) (ys : List Text) : Prop :=
  ∀ h : Held, h.IsOpen → ∃ xs h', h'.IsOpen ∧ Emits source h ts xs h' ∧ xs ++ h'.rest = h.rest ++ ys

/-- Tokens of this kind are kept, and no field in front of them belongs to them. -/
def Kind.isKept : Kind → Bool
  | .identifier | .qualifiedName | .keyword .asc | .semicolon | .equal | .keyword .in_ => false
  | _ => true

variable {source : Token → Text}

namespace Emits

variable {h h' h'' : Held} {ts us : List Token} {xs ys : List Text}

theorem nil (h : Held) : Emits source h [] [] h := fun _ => rfl

theorem single {t : Token} (hstep : h.step source t = (xs, h')) : Emits source h [t] xs h' := by
  intro us
  rw [List.singleton_append, Held.expand, hstep]

theorem append (ht : Emits source h ts xs h') (hu : Emits source h' us ys h'') :
    Emits source h (ts ++ us) (xs ++ ys) h'' := by
  intro vs
  rw [List.append_assoc, ht, hu, List.append_assoc]

end Emits

theorem Held.step_of_isKept {h : Held} (hopen : h.IsOpen) {t : Token} (ht : t.kind.isKept = true) :
    h.step source t = (h.rest ++ [source t], .nothing) := by
  have hplain : Held.plain source t = ([source t], .nothing) := by
    unfold Held.plain
    split <;> simp_all [Kind.isKept]
  rcases hopen with rfl | ⟨f, rfl⟩
  · exact hplain
  · simp only [Held.step, hplain]
    split <;> simp_all [Kind.isKept, Held.rest]

namespace WritesOut

variable {ts us : List Token} {xs ys : List Text} {t : Token}

theorem nil : WritesOut source [] [] := fun h hopen => ⟨[], h, hopen, .nil h, by simp⟩

theorem append (ht : WritesOut source ts xs) (hu : WritesOut source us ys) :
    WritesOut source (ts ++ us) (xs ++ ys) := by
  intro h hopen
  obtain ⟨xs₁, h₁, hopen₁, hemits₁, heq₁⟩ := ht h hopen
  obtain ⟨xs₂, h₂, hopen₂, hemits₂, heq₂⟩ := hu h₁ hopen₁
  refine ⟨xs₁ ++ xs₂, h₂, hopen₂, hemits₁.append hemits₂, ?_⟩
  rw [List.append_assoc, heq₂, ← List.append_assoc, heq₁, List.append_assoc]

theorem kept (ht : t.kind.isKept = true) : WritesOut source [t] [source t] := fun _ hopen =>
  ⟨_, _, Or.inl rfl, .single (Held.step_of_isKept hopen ht), by simp [Held.rest]⟩

theorem keptAll (hts : ∀ t ∈ ts, t.kind.isKept = true) : WritesOut source ts (ts.map source) := by
  induction ts with
  | nil => exact .nil
  | cons t ts ih =>
    have ht : t.kind.isKept = true := hts t (List.mem_cons_self ..)
    exact (kept ht).append (ih fun u hu => hts u (List.mem_cons_of_mem _ hu))

theorem field {f : Text} (hfield : ∀ h : Held, h.IsOpen → Emits source h ts h.rest (.field f)) :
    WritesOut source ts [f] := fun h hopen => ⟨h.rest, .field f, Or.inr ⟨f, rfl⟩, hfield h hopen, rfl⟩

theorem dropped (ht : t.kind = .keyword .asc ∨ t.kind = .semicolon) : WritesOut source [t] [] := by
  intro h hopen
  refine ⟨h.rest, .nothing, Or.inl rfl, .single ?_, rfl⟩
  rcases hopen with rfl | ⟨f, rfl⟩ <;> rcases ht with ht | ht <;> simp [Held.step, Held.plain, Held.rest, ht]

end WritesOut

/-! ### Phrases -/

/-- The tokens are valid and spelled by their sources. -/
def SpelledBy (source : Token → Text) (ts : List Token) : Prop := ∀ t ∈ ts, SpellTokens [t] [source t]

namespace SpelledBy

variable {ts us : List Token} {t : Token}

theorem left (h : SpelledBy source (ts ++ us)) : SpelledBy source ts := fun t ht => h t (List.mem_append_left _ ht)

theorem right (h : SpelledBy source (ts ++ us)) : SpelledBy source us := fun t ht => h t (List.mem_append_right _ ht)

theorem head (h : SpelledBy source (t :: ts)) : SpellTokens [t] [source t] := h t (List.mem_cons_self ..)

theorem tail (h : SpelledBy source (t :: ts)) : SpelledBy source ts := fun u hu => h u (List.mem_cons_of_mem _ hu)

theorem spellTokens (h : SpelledBy source ts) : SpellTokens ts (ts.map source) := by
  induction ts with
  | nil => exact .nil
  | cons t ts ih => exact List.rel_append h.head (ih h.tail)

theorem kind (h : SpelledBy source (t :: ts)) {k : Kind} (ht : t.kind = k) : SpellsKind k (source t) :=
  ⟨t, ht, h.head⟩

end SpelledBy

/-- What writing out the tokens of a phrase gives: tokens of the same phrase, or for a list of literals the chain of
comparisons with them. -/
def Phrase.Expands (rule : NameRule) (source : Token → Text) (ts : List Token) : Phrase → Prop
  | .field name => ∃ f, Spells rule (.field name) [f] ∧ ∀ h : Held, h.IsOpen → Emits source h ts h.rest (.field f)
  | .literal v =>
    ∃ x, Spells rule (.literal v) [x] ∧ Emits source .equality ts [x, ascii ")"] .nothing ∧
      ∀ f, Emits source (.list f) ts [f, ascii "=", x] (.list f)
  | .literals vs =>
    ∀ f name, Spells rule (.field name) [f] → ∃ xs, Spells rule (.disjuncts (vs.map (.leaf name))) xs ∧
      Emits source (.list f) ts xs (.list f)
  | .collectionClause c => ∃ xs, Spells rule (.collectionClause c) xs ∧ Emits source .nothing ts xs .nothing
  | .query q => ∃ xs, Spells rule (.query q) xs ∧ Held.nothing.expand source ts = xs
  | p => ∃ xs, Spells rule p xs ∧ WritesOut source ts xs

section Expands

variable {name : ElementName} {v : Value} {vs : List Value} {c : Criteria} {a b : List Token} {t u w : Token}

private theorem expands_literal (hd : Derives rule (.literal v) [t]) (hcomma : t.kind ≠ .comma)
    (hclose : t.kind ≠ .closeParen) (hts : SpelledBy source [t]) : (Phrase.literal v).Expands rule source [t] := by
  refine ⟨source t, ⟨[t], hd, hts.head⟩, .single rfl, fun f => .single ?_⟩
  simp only [Held.step]

private theorem expands_field {f : Text} (hf : Spells rule (.field name) [f])
    (hplain : Held.plain source t = ([], .field f)) (ht : t.kind ≠ .equal) (hin : t.kind ≠ .keyword .in_) :
    (Phrase.field name).Expands rule source [t] := by
  refine ⟨f, hf, fun h hopen => .single ?_⟩
  rcases hopen with rfl | ⟨g, rfl⟩
  · exact hplain
  · simp [Held.step, hplain, Held.rest]

private theorem expands_name (ht : t.kind = .identifier) (hn : rule.admits t.text = true)
    (hts : SpelledBy source [t]) : (Phrase.field ⟨[], t.text⟩).Expands rule source [t] := by
  have hspelled : t.toLexeme.Spelled (source t) := by
    cases hts.head with
    | cons h _ => exact h.1
  -- the name with an empty namespace is a token of its own
  have hbytes : ∀ b ∈ t.text, continuesWord b = true := hspelled.identifier_bytes ht
  have hqualified : t.qualified = '{'.toUInt8 :: [] ++ '}'.toUInt8 :: t.text := by simp [Token.qualified, ht]
  have hname : Lexeme.Spelled ⟨.qualifiedName, t.qualified⟩ t.qualified := by
    rw [hqualified]
    exact .qualifiedName nofun hbytes
  have hfield : Spells rule (.field ⟨[], t.text⟩) [t.qualified] :=
    ⟨[⟨⟨.qualifiedName, t.qualified⟩, 0⟩], .qualifiedName rfl hqualified nofun hn, .cons ⟨hname, nofun⟩ .nil⟩
  exact expands_field hfield (by simp [Held.plain, ht]) (by simp [ht]) (by simp [ht])

private theorem expands_qualifiedName {uri name : Text} (ht : t.kind = .qualifiedName)
    (hs : t.text = '{'.toUInt8 :: uri ++ '}'.toUInt8 :: name) (hu : '}'.toUInt8 ∉ uri)
    (hn : rule.admits name = true) (hts : SpelledBy source [t]) :
    (Phrase.field ⟨uri, name⟩).Expands rule source [t] := by
  have hsource : source t = t.text := by
    cases hts.head with
    | cons h _ => exact h.1.eq_text (by simp [ht])
  have hfield : Spells rule (.field ⟨uri, name⟩) [t.text] :=
    ⟨[t], .qualifiedName ht hs hu hn, hsource ▸ hts.head⟩
  exact expands_field hfield (by simp [Held.plain, ht, Token.qualified]) (by simp [ht]) (by simp [ht])

private theorem expands_parentheses (ht : t.kind = .openParen) (hu : u.kind = .closeParen)
    (h : (Phrase.expression c).Expands rule source a) (hts : SpelledBy source (t :: a ++ [u])) :
    (Phrase.comparison c).Expands rule source (t :: a ++ [u]) := by
  obtain ⟨xs, hxs, hout⟩ := h
  have hopen : WritesOut source [t] [source t] := .kept (by simp [ht, Kind.isKept])
  have hclose : WritesOut source [u] [source u] := .kept (by simp [hu, Kind.isKept])
  exact ⟨source t :: xs ++ [source u], .parentheses (hts.left.kind ht) hxs (hts.right.kind hu),
    (hopen.append hout).append hclose⟩

/-- What comparisons are written as does not hold back anything. -/
private theorem writesOut_of_emits {ts : List Token} {ys : List Text}
    (h : ∀ h : Held, h.IsOpen → Emits source h ts (h.rest ++ ys) .nothing) : WritesOut source ts ys :=
  fun held hopen => ⟨_, _, Or.inl rfl, h held hopen, by simp [Held.rest]⟩

private theorem expands_equality (ha : (Phrase.field name).Expands rule source a) (ht : t.kind = .equal)
    (hb : (Phrase.literal v).Expands rule source b) (hts : SpelledBy source (a ++ t :: b)) :
    (Phrase.comparison (.leaf name v)).Expands rule source (a ++ t :: b) := by
  obtain ⟨f, hf, hfield⟩ := ha
  obtain ⟨x, hx, hvalue, -⟩ := hb
  have hcomparison : Spells rule (.comparison (.leaf name v)) [f, source t, x] :=
    hf.between (hts.right.kind ht) hx .equality
  have hequal : Emits source (.field f) [t] [ascii "(", f, source t] .equality :=
    .single (by simp [Held.step, ht])
  have hout : WritesOut source (a ++ t :: b) (ascii "(" :: [f, source t, x] ++ [ascii ")"]) :=
    writesOut_of_emits fun h hopen => (hfield h hopen).append (hequal.append hvalue)
  exact ⟨_, .parentheses (spellsKind_punctuation (b := 40) rfl) hcomparison.alone.expression
    (spellsKind_punctuation (b := 41) rfl), hout⟩

private theorem expands_membership (ha : (Phrase.field name).Expands rule source a) (ht : t.kind = .keyword .in_)
    (hu : u.kind = .openParen) (hb : (Phrase.literals vs).Expands rule source b) (hw : w.kind = .closeParen)
    (hc : ∀ {xs}, Spells rule (.disjuncts (vs.map (.leaf name))) xs → Spells rule (.expression c) xs)
    (hts : SpelledBy source (a ++ t :: u :: b ++ [w])) :
    (Phrase.comparison c).Expands rule source (a ++ t :: u :: b ++ [w]) := by
  obtain ⟨f, hf, hfield⟩ := ha
  obtain ⟨xs, hxs, hvalues⟩ := hb f name hf
  have hin : Emits source (.field f) [t] [] (.membership f) := .single (by simp [Held.step, ht])
  have hopen : Emits source (.membership f) [u] [source u] (.list f) := .single rfl
  have hclose : Emits source (.list f) [w] [source w] .nothing := .single (by simp [Held.step, hw])
  have hout : WritesOut source (a ++ t :: u :: b ++ [w]) (source u :: xs ++ [source w]) :=
    writesOut_of_emits fun h hop => by
      simpa using (hfield h hop).append (hin.append (hopen.append (hvalues.append hclose)))
  exact ⟨_, .parentheses (hts.left.right.tail.kind hu) (hc hxs) (hts.right.kind hw), hout⟩

end Expands

private theorem expands_mono {p p' : Phrase} {ts : List Token}
    (h : ∃ xs, Spells rule p xs ∧ WritesOut source ts xs) (hp : ∀ {a}, Derives rule p a → Derives rule p' a) :
    ∃ xs, Spells rule p' xs ∧ WritesOut source ts xs := by
  obtain ⟨xs, hxs, hout⟩ := h
  exact ⟨xs, hxs.mono hp, hout⟩

/-- Phrases with a token between them. -/
private theorem expands_between {p p' p'' : Phrase} {a b : List Token} {t : Token}
    (ha : ∃ xs, Spells rule p xs ∧ WritesOut source a xs) (ht : t.kind.isKept = true) (hts : SpellTokens [t] [source t])
    (hb : ∃ xs, Spells rule p' xs ∧ WritesOut source b xs)
    (hp : ∀ {a b u}, Derives rule p a → u.kind = t.kind → Derives rule p' b → Derives rule p'' (a ++ u :: b)) :
    ∃ xs, Spells rule p'' xs ∧ WritesOut source (a ++ t :: b) xs := by
  obtain ⟨xs, hxs, hout⟩ := ha
  obtain ⟨ys, hys, hout'⟩ := hb
  exact ⟨xs ++ source t :: ys, hxs.between ⟨t, rfl, hts⟩ hys fun ha hu hb => hp ha hu hb,
    hout.append ((WritesOut.kept ht).append hout')⟩

private theorem expands_query {collection : Option Text} {criteria : Option Criteria} {skip limit : Option UInt64}
    {sort : Option (List SortKey)} {t : Token} {a b c d e : List Token} (ht : t.kind = .keyword .search)
    (hts : SpellTokens [t] [source t]) (ha : (Phrase.collectionClause collection).Expands rule source a)
    (hb : (Phrase.criteriaClause criteria).Expands rule source b) (hc : (Phrase.orderClause sort).Expands rule source c)
    (hd : (Phrase.pageClause skip limit).Expands rule source d) (he : Phrase.ending.Expands rule source e) :
    (Phrase.query ⟨collection, criteria, skip, limit, sort⟩).Expands rule source (t :: (a ++ b ++ c ++ d ++ e)) := by
  obtain ⟨xa, ⟨a', ha', hxa⟩, hemits⟩ := ha
  obtain ⟨xb, ⟨b', hb', hxb⟩, hout_b⟩ := hb
  obtain ⟨xc, ⟨c', hc', hxc⟩, hout_c⟩ := hc
  obtain ⟨xd, ⟨d', hd', hxd⟩, hout_d⟩ := hd
  obtain ⟨xe, ⟨e', he', hxe⟩, hout_e⟩ := he
  have hspell : SpellTokens (t :: (a' ++ b' ++ c' ++ d' ++ e')) (source t :: (xa ++ xb ++ xc ++ xd ++ xe)) :=
    List.rel_append hts
      (List.rel_append (List.rel_append (List.rel_append (List.rel_append hxa hxb) hxc) hxd) hxe)
  refine ⟨source t :: (xa ++ xb ++ xc ++ xd ++ xe), ⟨_, .query ht ha' hb' hc' hd' he', hspell⟩, ?_⟩
  have hsearch : Emits source .nothing [t] [source t] .nothing := .single (by simp [Held.step, Held.plain, ht])
  obtain ⟨xs, h, -, hclauses, heq⟩ := (((hout_b.append hout_c).append hout_d).append hout_e) .nothing (Or.inl rfl)
  have htokens : t :: (a ++ b ++ c ++ d ++ e) = [t] ++ (a ++ (b ++ c ++ d ++ e)) ++ [] := by simp
  have hends : xs ++ h.rest = xb ++ xc ++ xd ++ xe := heq
  calc Held.nothing.expand source (t :: (a ++ b ++ c ++ d ++ e))
      = [source t] ++ (xa ++ xs) ++ h.rest := by
        rw [htokens]
        exact hsearch.append (hemits.append hclauses) []
    _ = source t :: (xa ++ (xs ++ h.rest)) := by simp
    _ = source t :: (xa ++ xb ++ xc ++ xd ++ xe) := by simp [hends]

/-- Writing out the tokens of a phrase gives tokens of the same phrase. -/
theorem Derives.expands {p : Phrase} {ts : List Token} (h : Derives rule p ts) (hts : SpelledBy source ts) :
    p.Expands rule source ts := by
  induction h with
  | name ht hn => exact expands_name ht hn hts
  | qualifiedName ht hs hu hn => exact expands_qualifiedName ht hs hu hn hts
  | string ht => exact expands_literal (.string ht) (by simp [ht]) (by simp [ht]) hts
  | number ht hs hn => exact expands_literal (.number ht hs hn) (by simp [ht]) (by simp [ht]) hts
  | trueWord ht => exact expands_literal (.trueWord ht) (by simp [ht]) (by simp [ht]) hts
  | falseWord ht => exact expands_literal (.falseWord ht) (by simp [ht]) (by simp [ht]) hts
  | nullWord ht => exact expands_literal (.nullWord ht) (by simp [ht]) (by simp [ht]) hts
  | oneLiteral _ ih =>
    intro f name hf
    obtain ⟨x, hx, -, hvalue⟩ := ih hts
    exact ⟨_, (hf.equality hx).alone, hvalue f⟩
  | @moreLiterals _ _ _ _ t _ ht _ iha ihb =>
    intro f name hf
    obtain ⟨xs, hxs, hvalues⟩ := iha hts.left f name hf
    obtain ⟨x, hx, -, hvalue⟩ := ihb hts.right.tail
    have hcomma : Emits source (.list f) [t] [ascii "OR"] (.list f) := .single (by simp [Held.step, ht])
    refine ⟨xs ++ ascii "OR" :: [f, ascii "=", x], ?_, hvalues.append (hcomma.append (hvalue f))⟩
    rw [List.map_append]
    exact hxs.between spellsKind_or (hf.equality hx) fun ha ht hb =>
      .moreDisjuncts ha ht (.singleConjunction (.oneConjunct hb))
  | parentheses ht _ hu ih => exact expands_parentheses ht hu (ih hts.left.tail) hts
  | equality _ ht _ iha ihb => exact expands_equality (iha hts.left) ht (ihb hts.right.tail) hts
  | oneMember _ ht hu _ hw iha ihb =>
    exact expands_membership (iha hts.left.left) ht hu (ihb hts.left.right.tail.tail) hw (·.expression) hts
  | members _ ht hu _ hvs hw iha ihb =>
    exact expands_membership (iha hts.left.left) ht hu (ihb hts.left.right.tail.tail) hw
      (·.mono fun ha => .expression ha (by simpa using hvs)) hts
  | oneConjunct _ ih => exact expands_mono (ih hts) .oneConjunct
  | moreConjuncts _ ht _ iha ihb =>
    exact expands_between (iha hts.left) (by simp [ht, Kind.isKept]) hts.right.head (ihb hts.right.tail)
      fun ha hu hb => .moreConjuncts ha (hu.trans ht) hb
  | singleConjunction _ ih => exact expands_mono (ih hts) .singleConjunction
  | conjunction _ hcs ih => exact expands_mono (ih hts) fun ha => .conjunction ha hcs
  | oneDisjunct _ ih => exact expands_mono (ih hts) .oneDisjunct
  | moreDisjuncts _ ht _ iha ihb =>
    exact expands_between (iha hts.left) (by simp [ht, Kind.isKept]) hts.right.head (ihb hts.right.tail)
      fun ha hu hb => .moreDisjuncts ha (hu.trans ht) hb
  | singleExpression _ ih => exact expands_mono (ih hts) .singleExpression
  | expression _ hcs ih => exact expands_mono (ih hts) fun ha => .expression ha hcs
  | plainKey _ ih =>
    obtain ⟨f, hf, hfield⟩ := ih hts
    exact ⟨[f], hf.mono .plainKey, .field hfield⟩
  | ascendingKey _ ht ih =>
    obtain ⟨f, hf, hfield⟩ := ih hts.left
    exact ⟨[f], hf.mono .plainKey, (WritesOut.field hfield).append (.dropped (Or.inl ht))⟩
  | descendingKey _ ht ih =>
    obtain ⟨f, hf, hfield⟩ := ih hts.left
    exact ⟨_, hf.concat (hts.right.kind ht) .descendingKey,
      (WritesOut.field hfield).append (.kept (by simp [ht, Kind.isKept]))⟩
  | oneKey _ ih => exact expands_mono (ih hts) .oneKey
  | moreKeys _ ht _ iha ihb =>
    exact expands_between (iha hts.left) (by simp [ht, Kind.isKept]) hts.right.head (ihb hts.right.tail)
      fun ha hu hb => .moreKeys ha (hu.trans ht) hb
  | noCollection => exact ⟨[], ⟨[], .noCollection, .nil⟩, .nil _⟩
  | @collection t u ht hu =>
    have hin : Emits source .nothing [t] [source t] .nothing := .single (by simp [Held.step, Held.plain, ht])
    have hname : Emits source .nothing [u] [source u] .nothing := .single (by simp [Held.step, Held.plain, hu])
    exact ⟨_, ⟨[t, u], .collection ht hu, hts.spellTokens⟩, hin.append hname⟩
  | noCriteria => exact ⟨[], ⟨[], .noCriteria, .nil⟩, .nil⟩
  | criteria ht _ ih =>
    obtain ⟨xs, hxs, hout⟩ := ih hts.tail
    exact ⟨_, .cons (hts.kind ht) hxs .criteria, (WritesOut.kept (by simp [ht, Kind.isKept])).append hout⟩
  | noOrder => exact ⟨[], ⟨[], .noOrder, .nil⟩, .nil⟩
  | order ht hu _ ih =>
    obtain ⟨xs, ⟨a, ha, hxs⟩, hout⟩ := ih hts.tail.tail
    exact ⟨_, ⟨_ :: _ :: a, .order ht hu ha, List.rel_append hts.head (List.rel_append hts.tail.head hxs)⟩,
      (WritesOut.kept (by simp [ht, Kind.isKept])).append
        ((WritesOut.kept (by simp [hu, Kind.isKept])).append hout)⟩
  | noPage => exact ⟨[], ⟨[], .noPage, .nil⟩, .nil⟩
  | limit ht hu hn =>
    exact ⟨_, ⟨_, .limit ht hu hn, hts.spellTokens⟩, .keptAll (by simp [ht, hu.kind_eq, Kind.isKept])⟩
  | offset ht hu hn hv hw hm =>
    exact ⟨_, ⟨_, .offset ht hu hn hv hw hm, hts.spellTokens⟩,
      .keptAll (by simp [ht, hu.kind_eq, hv, hw.kind_eq, Kind.isKept])⟩
  | noSemicolon => exact ⟨[], ⟨[], .noSemicolon, .nil⟩, .nil⟩
  | semicolon ht => exact ⟨[], ⟨[], .noSemicolon, .nil⟩, .dropped (Or.inr ht)⟩
  | query ht _ _ _ _ _ iha ihb ihc ihd ihe =>
    have hrest := hts.tail.left
    exact expands_query ht hts.head (iha hrest.left.left.left) (ihb hrest.left.left.right) (ihc hrest.left.right)
      (ihd hrest.right) (ihe hts.tail.right)

/-! ### Whole texts -/

/-- A token of a text is spelled by the bytes that it takes up. -/
theorem Layout.spelled_at {p : Nat} {s : Text} {ts : List Token} (h : Layout p s ts) :
    ∀ t ∈ ts, t.kind ≠ .endOfText → ∃ i, t.position = p + i ∧ t.toLexeme.Spelled ((s.drop i).take t.width) := by
  induction h with
  | endOfText hg => simp
  | @token p gap x rest l ts hg hx hr _ ih =>
    intro t ht hend
    rcases List.mem_cons.1 ht with rfl | ht
    · refine ⟨gap.length, rfl, ?_⟩
      rw [hx.width_eq, List.append_assoc, List.drop_left, List.take_left]
      exact hx
    · obtain ⟨i, hi, hspelled⟩ := ih t ht hend
      refine ⟨gap.length + x.length + i, by omega, ?_⟩
      have hdrop : (gap ++ x ++ rest).drop (gap.length + x.length + i) = rest.drop i := by
        rw [← List.length_append, List.drop_append]
        simp
      rwa [hdrop]

theorem bytesIn_spelled {s : Text} {t : Token} (h : t ∈ tokens s) (ht : t.kind ≠ .endOfText) :
    t.toLexeme.Spelled (t.bytesIn s) := by
  obtain ⟨i, hi, hspelled⟩ := (layout_tokens ⟨0, s⟩).spelled_at t h ht
  rw [Nat.zero_add] at hi
  rw [Token.bytesIn, hi]
  exact hspelled

namespace Query

/-- A text that denotes a query denotes the same query when it is written out. -/
theorem parse_expansion (rule : NameRule) (s : Text) (q : Query) (h : Query.parse s rule = .ok q) :
    Query.parse (expansion s) rule = .ok q := by
  obtain ⟨body, last, hts, -, hbody⟩ := parse_eq_ok_iff_isSentence.1 h
  have hspelled : SpelledBy (Token.bytesIn s) body := by
    obtain ⟨body', last', hts', -, hkinds⟩ := tokens_eq_append_end s
    obtain ⟨rfl, -⟩ := List.append_inj' (hts.symm.trans hts') rfl
    intro t ht
    obtain ⟨x, hx⟩ := hkinds t ht
    have hmem : t ∈ tokens s := hts ▸ List.mem_append_left _ ht
    exact .cons ⟨bytesIn_spelled hmem hx.kind_ne_endOfText,
      State.kind_ne_invalid_of_run (parse_eq_ok.1 h) t hmem⟩ .nil
  obtain ⟨xs, ⟨ts, hd, hxs⟩, hexpand⟩ := hbody.expands hspelled
  have htext : expansion s = Text.join [32] xs := by
    rw [expansion, hts, List.dropLast_concat, hexpand]
  -- the tokens of the text are those of the phrase, and the end of the text
  have hlexemes : (tokens (expansion s)).map Token.toLexeme = ts.map Token.toLexeme ++ [⟨.endOfText, []⟩] := by
    rw [htext]
    refine lexemes_joined (List.forall₂_map_left_iff.2 (hxs.imp fun _ _ h => h.1)) fun l hl => ?_
    obtain ⟨t, ht, rfl⟩ := List.mem_map.1 hl
    exact hxs.valid t ht
  have hsentence : IsSentence rule q (ts ++ [⟨⟨.endOfText, []⟩, 0⟩]) := ⟨ts, _, rfl, rfl, hd⟩
  exact parse_eq_ok.2 (State.run_congr hsentence.run_eq (by simp [hlexemes]))

theorem parse_expansion_members :
    expansion (ascii "SEARCH WHERE a IN (1,'x') and (b IN(2)) ORDER BY c ASC, d;") =
        ascii "SEARCH WHERE ( {}a = 1 OR {}a = 'x' ) and ( ( {}b = 2 ) ) ORDER BY {}c , {}d" ∧
      Query.parse (ascii "SEARCH WHERE ( {}a = 1 OR {}a = 'x' ) and ( ( {}b = 2 ) ) ORDER BY {}c , {}d") =
        .ok { criteria := some (.composite .and
                [.composite .or [.leaf ⟨[], ascii "a"⟩ (.scalar (.int 1)),
                    .leaf ⟨[], ascii "a"⟩ (.scalar (.string (ascii "x")))],
                  .leaf ⟨[], ascii "b"⟩ (.scalar (.int 2))]),
              sort := some [⟨⟨[], ascii "c"⟩, false⟩, ⟨⟨[], ascii "d"⟩, false⟩] } := by
  have hexpansion : expansion (ascii "SEARCH WHERE a IN (1,'x') and (b IN(2)) ORDER BY c ASC, d;") =
      ascii "SEARCH WHERE ( {}a = 1 OR {}a = 'x' ) and ( ( {}b = 2 ) ) ORDER BY {}c , {}d" := by
    decide +kernel
  refine ⟨hexpansion, ?_⟩
  rw [← hexpansion]
  exact parse_expansion .ascii _ _ (by decide +kernel)

end Query

end DocSearch
