import DocSearch.Expression

/-!
# Reading expressions back

A reader goes over the text of an expression byte by byte, with the calls and sequences around the place it
has come to on a stack.  If no string of an expression contains a quote, reading the text of the expression
delivers the expression, whatever is on the stack and whatever follows (`Expression.IsQuoteFree.reads`).
-/

namespace DocSearch

/-- The byte around strings. -/
def quote : UInt8 := 39

def openParen : UInt8 := '('.toUInt8

def closeParen : UInt8 := ')'.toUInt8

/-! ### Functions -/

namespace Function

def spelling (prefixes : Bool) (f : Function) : Text := Segment.spell prefixes (.name f)

def all : List Function :=
  [search, collection, qname, andQuery, orQuery, elementValueQuery, indexOrder, elementReference]

def ofSpelling? (prefixes : Bool) (name : Text) : Option Function :=
  all.find? fun f => f.spelling prefixes == name

theorem ofSpelling?_spelling (prefixes : Bool) (f : Function) :
    ofSpelling? prefixes (f.spelling prefixes) = some f := by
  cases prefixes <;> cases f <;> decide

theorem spelling_ne_nil (prefixes : Bool) (f : Function) : f.spelling prefixes ≠ [] := by
  cases prefixes <;> cases f <;> decide

theorem of_mem_spelling {prefixes : Bool} {f : Function} :
    ∀ b ∈ f.spelling prefixes, b ≠ openParen ∧ b ≠ quote ∧ b ≠ closeParen := by
  have hall : (f.spelling prefixes).all (fun b => b != openParen && b != quote && b != closeParen) = true := by
    cases prefixes <;> cases f <;> rfl
  intro b hb
  simpa [and_assoc] using List.all_eq_true.1 hall b hb

end Function

/-! ### The reader -/

/-- A call, or a sequence if there is no function, with the items that have been read. -/
structure Frame where
  function : Option Function
  items : List Expression

namespace Frame

def push (fr : Frame) (e : Expression) : Frame := { fr with items := fr.items ++ [e] }

def close (fr : Frame) : Expression :=
  match fr.function with
  | some f => .call f fr.items
  | none => .sequence fr.items

/-- The frame that a parenthesis opens behind the given name, which is empty for a sequence. -/
def opened? (prefixes : Bool) (name : Text) : Option Frame :=
  if name = [] then some ⟨none, []⟩ else (Function.ofSpelling? prefixes name).map fun f => ⟨some f, []⟩

end Frame

/-- A place inside the text of an expression. -/
inductive ReaderPlace where
  /-- In front of an item, or behind the given part of the name in front of it. -/
  | item (name : Text)
  | string (s : Text)
  | after
  | comma

inductive Reader where
  | inside (frames : List Frame) (place : ReaderPlace)
  | done (e : Expression)

namespace Reader

/-- A further item has been read, the whole expression if nothing is around it. -/
def deliver (e : Expression) : List Frame → Reader
  | [] => done e
  | fr :: frames => inside (fr.push e :: frames) .after

def closed? : List Frame → Option Reader
  | [] => none
  | fr :: frames => some (deliver fr.close frames)

def step (prefixes : Bool) (frames : List Frame) (place : ReaderPlace) (b : UInt8) : Option Reader :=
  match place with
  | .item name =>
    if b = openParen then (Frame.opened? prefixes name).map fun fr => inside (fr :: frames) (.item [])
    else if b = closeParen then closed? frames
    else if b = quote then some (inside frames (.string []))
    else some (inside frames (.item (name ++ [b])))
  | .string s => if b = quote then some (deliver (.string s) frames) else some (inside frames (.string (s ++ [b])))
  | .after =>
    if b = closeParen then closed? frames
    else if b = ','.toUInt8 then some (inside frames .comma)
    else none
  | .comma => if b = ' '.toUInt8 then some (inside frames (.item [])) else none

/-- The expression at the front of a text, and the rest of the text. -/
def read (prefixes : Bool) : Reader → Text → Option (Expression × Text)
  | done e, s => some (e, s)
  | inside .., [] => none
  | inside frames place, b :: s => (step prefixes frames place b).bind fun r => read prefixes r s

variable {prefixes : Bool} {frames : List Frame}

theorem read_cons {place : ReaderPlace} {b : UInt8} {r : Reader} (h : step prefixes frames place b = some r)
    (s : Text) : read prefixes (inside frames place) (b :: s) = read prefixes r s := by
  rw [read, h]
  rfl

theorem read_string {s : Text} (hs : quote ∉ s) (t rest : Text) :
    read prefixes (inside frames (.string t)) (s ++ quote :: rest) =
      read prefixes (deliver (.string (t ++ s)) frames) rest := by
  induction s generalizing t with
  | nil =>
    have hstep : step prefixes frames (.string t) quote = some (deliver (.string t) frames) := by
      simp only [step, if_true]
    rw [List.append_nil, List.nil_append, read_cons hstep]
  | cons b s ih =>
    have hb : b ≠ quote := fun h => hs (h ▸ List.mem_cons_self ..)
    have hs' : quote ∉ s := fun h => hs (List.mem_cons_of_mem _ h)
    have hstep : step prefixes frames (.string t) b = some (inside frames (.string (t ++ [b]))) := if_neg hb
    rw [List.cons_append, read_cons hstep, ih hs', List.append_assoc, List.singleton_append]

theorem read_name {s : Text} (hs : ∀ b ∈ s, b ≠ openParen ∧ b ≠ quote ∧ b ≠ closeParen) (t rest : Text) :
    read prefixes (inside frames (.item t)) (s ++ rest) = read prefixes (inside frames (.item (t ++ s))) rest := by
  induction s generalizing t with
  | nil => rw [List.append_nil, List.nil_append]
  | cons b s ih =>
    obtain ⟨hopen, hquote, hclose⟩ := hs b (List.mem_cons_self ..)
    have hstep : step prefixes frames (.item t) b = some (inside frames (.item (t ++ [b]))) := by
      simp only [step, if_neg hopen, if_neg hclose, if_neg hquote]
    rw [List.cons_append, read_cons hstep, ih fun c hc => hs c (List.mem_cons_of_mem _ hc), List.append_assoc,
      List.singleton_append]

/-- A parenthesis closes the inner frame in front of an item and behind one. -/
theorem read_close {fr : Frame} {place : ReaderPlace} (hplace : place = .item [] ∨ place = .after) (rest : Text) :
    read prefixes (inside (fr :: frames) place) (closeParen :: rest) =
      read prefixes (deliver fr.close frames) rest := by
  refine read_cons ?_ rest
  rcases hplace with rfl | rfl <;> rfl

theorem read_separator (rest : Text) :
    read prefixes (inside frames .after) (ascii ", " ++ rest) = read prefixes (inside frames (.item [])) rest := rfl

theorem read_open {name : Text} {fr : Frame} (h : Frame.opened? prefixes name = some fr) (rest : Text) :
    read prefixes (inside frames (.item name)) (openParen :: rest) =
      read prefixes (inside (fr :: frames) (.item [])) rest := by
  refine read_cons ?_ rest
  simp only [step, if_true, h, Option.map_some]

end Reader

/-! ### Texts of expressions -/

namespace Expression

def text (prefixes : Bool) (e : Expression) : Text := spellAll prefixes e.segments

/-- The texts of items with their separators. -/
def itemsText (prefixes : Bool) (es : List Expression) : Text := spellAll prefixes (segmentsAll es)

variable {prefixes : Bool}

theorem text_string (s : Text) : (string s).text prefixes = quote :: (s ++ [quote]) := by
  simp [text, segments, spellAll, Segment.spell]
  rfl

theorem itemsText_cons_cons (e e' : Expression) (es : List Expression) :
    itemsText prefixes (e :: e' :: es) = e.text prefixes ++ (ascii ", " ++ itemsText prefixes (e' :: es)) := by
  simp [text, itemsText, segmentsAll, spellAll, Segment.spell]

theorem text_sequence (es : List Expression) :
    (sequence es).text prefixes = openParen :: (itemsText prefixes es ++ [closeParen]) := by
  simp [text, itemsText, segments, spellAll, Segment.spell]
  rfl

theorem text_call (f : Function) (es : List Expression) :
    (call f es).text prefixes = f.spelling prefixes ++ openParen :: (itemsText prefixes es ++ [closeParen]) := by
  simp [text, itemsText, segments, spellAll, Function.spelling, Segment.spell]
  rfl

/-! ### Reading texts of expressions -/

/-- No string contains a quote. -/
inductive IsQuoteFree : Expression → Prop
  | string {s : Text} (hs : quote ∉ s) : IsQuoteFree (.string s)
  | call {f : Function} {es : List Expression} (hes : ∀ e ∈ es, IsQuoteFree e) : IsQuoteFree (.call f es)
  | sequence {es : List Expression} (hes : ∀ e ∈ es, IsQuoteFree e) : IsQuoteFree (.sequence es)

/-- Reading the text of the expression delivers the expression. -/
def Reads (prefixes : Bool) (e : Expression) : Prop :=
  ∀ frames rest, Reader.read prefixes (.inside frames (.item [])) (e.text prefixes ++ rest) =
    Reader.read prefixes (.deliver e frames) rest

private theorem read_items {es : List Expression} (hes : ∀ e ∈ es, e.Reads prefixes) (fr : Frame)
    (frames : List Frame) (rest : Text) :
    Reader.read prefixes (.inside (fr :: frames) (.item [])) (itemsText prefixes es ++ closeParen :: rest) =
      Reader.read prefixes (.deliver { fr with items := fr.items ++ es }.close frames) rest := by
  induction es generalizing fr with
  | nil =>
    rw [List.append_nil]
    exact Reader.read_close (Or.inl rfl) rest
  | cons e es ih =>
    have he := hes e (List.mem_cons_self ..)
    cases es with
    | nil => exact (he _ _).trans (Reader.read_close (Or.inr rfl) rest)
    | cons e' es =>
      have ih' := ih (fun d hd => hes d (List.mem_cons_of_mem _ hd)) (fr.push e)
      rw [itemsText_cons_cons, List.append_assoc, List.append_assoc, he, Reader.deliver, Reader.read_separator, ih']
      simp only [Frame.push, List.append_assoc, List.singleton_append]

theorem IsQuoteFree.reads {e : Expression} (h : e.IsQuoteFree) : e.Reads prefixes := by
  induction h with
  | @string s hs =>
    intro frames rest
    have hopen : Reader.step prefixes frames (.item []) quote = some (.inside frames (.string [])) := rfl
    rw [text_string, List.cons_append, List.append_assoc, List.singleton_append, Reader.read_cons hopen,
      Reader.read_string hs, List.nil_append]
  | @call f es _ ih =>
    intro frames rest
    have hopened : Frame.opened? prefixes (f.spelling prefixes) = some ⟨some f, []⟩ := by
      rw [Frame.opened?, if_neg (f.spelling_ne_nil prefixes), Function.ofSpelling?_spelling]
      rfl
    rw [text_call, List.append_assoc, Reader.read_name Function.of_mem_spelling, List.nil_append, List.cons_append,
      List.append_assoc, List.singleton_append, Reader.read_open hopened, read_items ih]
    rfl
  | @sequence es _ ih =>
    intro frames rest
    have hopened : Frame.opened? prefixes [] = some ⟨none, []⟩ := rfl
    rw [text_sequence, List.cons_append, List.append_assoc, List.singleton_append, Reader.read_open hopened,
      read_items ih]
    rfl

/-- The expression at the front of a text is read back together with what follows it. -/
theorem IsQuoteFree.read_text {e : Expression} (h : e.IsQuoteFree) (rest : Text) :
    Reader.read prefixes (.inside [] (.item [])) (e.text prefixes ++ rest) = some (e, rest) := by
  rw [h.reads [] rest]
  cases rest <;> rfl

end Expression

end DocSearch
