import DocSearch.Proofs.Query.Compile

/-!
# Bounds of pages

The text of a query with a limit is that of the query without its limit, and the bounds of the page behind it
(`Query.compile_eq_map_page`).  The bounds are numerals without leading zeros of the exact first and last number, words
or not, so two pages that follow each other neither overlap nor leave a result out.
-/

namespace DocSearch

namespace Query

variable {q : Query} {limit : UInt64}

/-- The bounds of a page with the given first and last number. -/
def boundsText (first last : Nat) : Text :=
  ascii "[" ++ Decimal.ofNat first ++ ascii " to " ++ Decimal.ofNat last ++ ascii "]"

theorem pageBounds_eq_boundsText (h : q.limit = some limit) :
    q.pageBounds = boundsText (q.offset.toNat + 1) (q.offset.toNat + limit.toNat) := pageBounds_of_limit h

/-- The page does not change anything in front of its bounds. -/
theorem compile_eq_map_page (h : q.limit = some limit) (prefixes : Bool) :
    q.compile prefixes = (compile prefixes { q with limit := none }).map
      (· ++ boundsText (q.offset.toNat + 1) (q.offset.toNat + limit.toNat)) := by
  have hcriteria : criteriaExpression? { q with limit := none } = q.criteriaExpression? := rfl
  have hcall : ∀ e, call { q with limit := none } e = q.call e := fun _ => rfl
  have hbounds : pageBounds { q with limit := none } = [] := rfl
  rw [compile_eq_map, compile_eq_map, hcriteria, hbounds, pageBounds_eq_boundsText h]
  cases q.criteriaExpression? with
  | error f => rfl
  | ok e => simp only [Except.map, hcall, List.append_nil]

/-- Without a limit an offset does not show. -/
theorem compile_skip (q : Query) (skip : Option UInt64) (prefixes : Bool) :
    compile prefixes { q with skip, limit := none } = compile prefixes { q with limit := none } := by
  rw [compile_eq_map, compile_eq_map]
  rfl

/-- The page that starts behind the last result of another one of the same length. -/
theorem compile_eq_map_nextPage (h : q.limit = some limit) {next : UInt64}
    (hnext : next.toNat = q.offset.toNat + limit.toNat) (prefixes : Bool) :
    compile prefixes { q with skip := some next } = (compile prefixes { q with limit := none }).map
      (· ++ boundsText (q.offset.toNat + limit.toNat + 1) (q.offset.toNat + limit.toNat + limit.toNat)) := by
  have hpage := compile_eq_map_page (q := { q with skip := some next }) h prefixes
  have hoffset : offset { q with skip := some next } = next := rfl
  rw [hoffset, hnext] at hpage
  exact hpage

/-- The bounds of a page are the numerals of the exact first and last number: the sum of two words is exact by its
digits, and by machine wherever that is done, namely where it is a word.  The next page starts behind the last number.
-/
theorem page_bounds_exact (q : Query) (limit : UInt64) (hlimit : q.limit = some limit) (prefixes : Bool) :
    (∃ first last : Nat, first = q.offset.toNat + 1 ∧ last = q.offset.toNat + limit.toNat ∧
      q.compile prefixes = (compile prefixes { q with limit := none }).map (· ++ boundsText first last) ∧
      ∀ next : UInt64, next.toNat = q.offset.toNat + limit.toNat →
        compile prefixes { q with skip := some next } =
          (compile prefixes { q with limit := none }).map (· ++ boundsText (last + 1) (last + limit.toNat))) ∧
    (∀ s n, Decimal.IsCanonical s n ↔ s = Decimal.ofNat n) ∧
    ∀ a b : UInt64,
      (a ≤ Decimal.maxWord - b ↔ a.toNat + b.toNat < UInt64.size) ∧
      (a ≤ Decimal.maxWord - b → (a + b).toNat = a.toNat + b.toNat) ∧
      Decimal.add (Decimal.ofNat a.toNat) (Decimal.ofNat b.toNat) = Decimal.ofNat (a.toNat + b.toNat) ∧
      Decimal.sum a b = Decimal.ofNat (a.toNat + b.toNat) := by
  refine ⟨⟨_, _, rfl, rfl, compile_eq_map_page hlimit prefixes, fun next hnext => ?_⟩,
    fun s n => Decimal.isCanonical_iff, fun a b => ⟨Decimal.le_maxWord_sub_iff, fun hle => ?_, Decimal.add_ofNat _ _,
      Decimal.sum_eq a b⟩⟩
  · exact compile_eq_map_nextPage hlimit hnext prefixes
  · exact Decimal.toNat_add_of_le hle

/-- A page that ends with the largest word, and the page behind it. -/
theorem page_bounds_exact_behind_words :
    compile false { skip := some 0x8000000000000000, limit := some 0x7FFFFFFFFFFFFFFF } =
        .ok (ascii "search(collection(), (), ())[9223372036854775809 to 18446744073709551615]") ∧
      compile false { skip := some 0xFFFFFFFFFFFFFFFF, limit := some 0x7FFFFFFFFFFFFFFF } =
        .ok (ascii "search(collection(), (), ())[18446744073709551616 to 27670116110564327422]") := by
  obtain ⟨⟨first, last, rfl, rfl, hpage, hnext⟩, -⟩ := page_bounds_exact
    { skip := some 0x8000000000000000, limit := some 0x7FFFFFFFFFFFFFFF } 0x7FFFFFFFFFFFFFFF rfl false
  refine ⟨hpage.trans ?_, (hnext 0xFFFFFFFFFFFFFFFF (by decide)).trans ?_⟩
  · decide +kernel
  · decide +kernel

end Query

end DocSearch
