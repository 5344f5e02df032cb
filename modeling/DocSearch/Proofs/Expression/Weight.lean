import DocSearch.Proofs.Expression.Reader

/-!
# Counting the parts of expressions

Strings, sequences and the calls of each function are counted together, each with a factor of its own (`Weights`).
The length of the prefixes in the text of an expression is such a number: this much longer is its text with them
(`Expression.length_text`).
-/

namespace DocSearch

/-- What a string, a call of each function and a sequence count for. -/
structure Weights where
  string : Nat := 0
  call : Function → Nat := fun _ => 0
  sequence : Nat := 0

namespace Weights

/-- Calls count for the length of their prefixes. -/
def prefixes : Weights where
  call f := f.prefixName.length

/-- Calls and sequences count for one parenthesis each. -/
def groups : Weights where
  call _ := 1
  sequence := 1

/-- Only strings count. -/
def strings : Weights where
  string := 1

end Weights

namespace Expression

mutual

/-- What all the parts of an expression count for. -/
def weight (w : Weights) : Expression → Nat
  | string _ => w.string
  | call f args => w.call f + weightAll w args
  | sequence items => w.sequence + weightAll w items

def weightAll (w : Weights) : List Expression → Nat
  | [] => 0
  | e :: es => weight w e + weightAll w es

end

/-! ### Prefixes -/

theorem length_spelling (f : Function) :
    (f.spelling true).length = (f.spelling false).length + f.prefixName.length := by
  simp [Function.spelling, Segment.spell, Nat.add_comm]

theorem itemsText_singleton (prefixes : Bool) (e : Expression) : itemsText prefixes [e] = e.text prefixes := rfl

mutual

/-- Prefixes add their lengths to the text, once for each call. -/
theorem length_text : ∀ e : Expression, (e.text true).length = (e.text false).length + e.weight .prefixes
  | string s => by simp [text_string, weight, Weights.prefixes]
  | call f args => by
    have hspelling := length_spelling f
    have hargs := length_itemsText args
    simp only [text_call, List.length_append, List.length_cons, weight, Weights.prefixes] at *
    omega
  | sequence items => by
    have hitems := length_itemsText items
    simp only [text_sequence, List.length_append, List.length_cons, weight, Weights.prefixes] at *
    omega

theorem length_itemsText : ∀ es : List Expression,
    (itemsText true es).length = (itemsText false es).length + weightAll .prefixes es
  | [] => rfl
  | [e] => by
    have he := length_text e
    simpa only [itemsText_singleton, weightAll, Nat.add_zero] using he
  | e :: e' :: es => by
    have he := length_text e
    have hes := length_itemsText (e' :: es)
    rw [itemsText_cons_cons, itemsText_cons_cons, weightAll]
    simp only [List.length_append]
    omega

end

end Expression

end DocSearch
