import DocSearch.Proofs.Query.Compile

/-!
# Broken criteria

A node of a tree is broken if it is `null` or a composite without children.  Compiling visits the nodes in
pre-order and stops at the first broken one (`Criteria.expression?_eq_error`), so a query is refused exactly if
its criteria contain a broken node, however deep.  Trees that are put together by `composite?` contain none
(`Criteria.Built.firstFault?_eq_none`).
-/

namespace DocSearch

namespace Criteria

/-! ### Nodes -/

mutual

/-- The nodes of a tree: a node before its children, and the children from left to right. -/
def nodes : Criteria → List Criteria
  | leaf name value => [leaf name value]
  | composite op cs => composite op cs :: nodesAll cs
  | null => [null]

def nodesAll : List Criteria → List Criteria
  | [] => []
  | c :: cs => nodes c ++ nodesAll cs

end

/-- A node that is no criteria, whatever is below it. -/
def IsBroken (c : Criteria) : Prop := c = .null ∨ ∃ op, c = .composite op []

/-- What is wrong with a node itself. -/
def fault? : Criteria → Option CriteriaFault
  | leaf .. => none
  | composite _ [] => some .emptyComposite
  | composite _ (_ :: _) => none
  | null => some .nullComposite

/-- The fault of the first broken node. -/
def firstFault? (c : Criteria) : Option CriteriaFault := c.nodes.findSome? fault?

/-- The fault of the first broken node of several trees. -/
def firstFaultAll? (cs : List Criteria) : Option CriteriaFault := (nodesAll cs).findSome? fault?

theorem firstFault?_composite {op : Connective} {cs : List Criteria} (h : cs ≠ []) :
    (composite op cs).firstFault? = firstFaultAll? cs := by
  cases cs with
  | nil => exact absurd rfl h
  | cons c cs => rfl

theorem firstFaultAll?_cons (c : Criteria) (cs : List Criteria) :
    firstFaultAll? (c :: cs) = c.firstFault?.or (firstFaultAll? cs) := by
  simp only [firstFaultAll?, firstFault?, nodesAll, List.findSome?_append]

theorem firstFaultAll?_append (cs ds : List Criteria) :
    firstFaultAll? (cs ++ ds) = (firstFaultAll? cs).or (firstFaultAll? ds) := by
  induction cs with
  | nil => rfl
  | cons c cs ih => rw [List.cons_append, firstFaultAll?_cons, firstFaultAll?_cons, ih, Option.or_assoc]

theorem firstFaultAll?_eq_none {cs : List Criteria} (h : ∀ c ∈ cs, c.firstFault? = none) :
    firstFaultAll? cs = none := by
  induction cs with
  | nil => rfl
  | cons c cs ih =>
    rw [firstFaultAll?_cons, h c (List.mem_cons_self ..), Option.none_or]
    exact ih fun d hd => h d (List.mem_cons_of_mem _ hd)

/-- The first fault is that of a node with no broken node before it. -/
theorem firstFault?_eq_some {c : Criteria} {f : CriteriaFault} :
    c.firstFault? = some f ↔
      ∃ before node after, c.nodes = before ++ node :: after ∧ node.fault? = some f ∧
        ∀ d ∈ before, d.fault? = none :=
  List.findSome?_eq_some_iff

theorem firstFault?_eq_none {c : Criteria} : c.firstFault? = none ↔ ∀ d ∈ c.nodes, d.fault? = none :=
  List.findSome?_eq_none_iff

theorem fault?_eq_some {c : Criteria} {f : CriteriaFault} :
    c.fault? = some f ↔
      (c = null ∧ f = .nullComposite) ∨ (∃ op, c = composite op []) ∧ f = .emptyComposite := by
  cases c with
  | leaf name value => simp [fault?]
  | composite op cs => cases cs <;> simp [fault?, eq_comm]
  | null => simp [fault?, eq_comm]

theorem fault?_eq_none {c : Criteria} : c.fault? = none ↔ ¬ c.IsBroken := by
  cases c with
  | leaf name value => simp [fault?, IsBroken]
  | composite op cs => cases cs <;> simp [fault?, IsBroken]
  | null => simp [fault?, IsBroken]

/-! ### Compiling -/

mutual

/-- A tree without broken node is compiled, any other is refused for its first broken node. -/
theorem expression?_spec : ∀ c : Criteria,
    match c.firstFault? with
    | some f => c.expression? = .error f
    | none => ∃ e, c.expression? = .ok e
  | leaf name value => ⟨_, rfl⟩
  | composite op [] => rfl
  | composite op (c :: cs) => by
    have h := expressions?_spec (c :: cs)
    rw [firstFault?_composite (List.cons_ne_nil c cs), expression?_cons]
    cases hf : firstFaultAll? (c :: cs) with
    | some f =>
      rw [hf] at h
      exact bind_eq_error.2 (Or.inl h)
    | none =>
      rw [hf] at h
      obtain ⟨es, hes⟩ := h
      exact ⟨_, bind_eq_ok.2 ⟨es, hes, rfl⟩⟩
  | null => rfl

theorem expressions?_spec : ∀ cs : List Criteria,
    match firstFaultAll? cs with
    | some f => expressions? cs = .error f
    | none => ∃ es, expressions? cs = .ok es
  | [] => ⟨[], rfl⟩
  | c :: cs => by
    have hc := expression?_spec c
    have hcs := expressions?_spec cs
    rw [firstFaultAll?_cons, expressions?]
    -- a fault of the first tree hides those of the trees behind it
    cases hf : c.firstFault? with
    | some f =>
      rw [hf] at hc
      rw [Option.some_or]
      exact bind_eq_error.2 (Or.inl hc)
    | none =>
      rw [hf] at hc
      obtain ⟨e, he⟩ := hc
      rw [Option.none_or, he, ok_bind]
      cases hfs : firstFaultAll? cs with
      | some f =>
        rw [hfs] at hcs
        exact bind_eq_error.2 (Or.inl hcs)
      | none =>
        rw [hfs] at hcs
        obtain ⟨es, hes⟩ := hcs
        exact ⟨_, bind_eq_ok.2 ⟨es, hes, rfl⟩⟩

end

theorem expression?_eq_error {c : Criteria} {f : CriteriaFault} :
    c.expression? = .error f ↔ c.firstFault? = some f := by
  have hc := expression?_spec c
  cases hf : c.firstFault? with
  | some f' =>
    rw [hf] at hc
    rw [hc, Except.error.injEq, Option.some.injEq]
  | none =>
    rw [hf] at hc
    obtain ⟨e, he⟩ := hc
    rw [he]
    exact ⟨nofun, nofun⟩

/-! ### Trees that are put together with checks -/

theorem composite?_eq_ok {op : Connective} {cs : List Criteria} {c : Criteria} :
    composite? op cs = .ok c ↔ cs ≠ [] ∧ c = composite op cs := by
  cases cs <;> simp [composite?, eq_comm]

theorem composite?_eq_error {op : Connective} {cs : List Criteria} {f : CriteriaFault} :
    composite? op cs = .error f ↔ cs = [] ∧ f = .noChild op := by
  cases cs <;> simp [composite?, eq_comm]

/-- The trees of leaves and checked composites. -/
inductive Built : Criteria → Prop
  | leaf (name : ElementName) (value : Value) : Built (.leaf name value)
  | composite {op : Connective} {cs : List Criteria} {c : Criteria} (hcs : ∀ d ∈ cs, Built d)
      (hc : composite? op cs = .ok c) : Built c

/-- The trees of leaves and checked composites with the given tree in one place. -/
inductive BuiltAround (d : Criteria) : Criteria → Prop
  | here : BuiltAround d d
  | composite {op : Connective} {before after : List Criteria} {b c : Criteria} (hbefore : ∀ a ∈ before, Built a)
      (hb : BuiltAround d b) (hafter : ∀ a ∈ after, Built a) (hc : composite? op (before ++ b :: after) = .ok c) :
      BuiltAround d c

theorem Built.firstFault?_eq_none {c : Criteria} (h : c.Built) : c.firstFault? = none := by
  induction h with
  | leaf name value => rfl
  | composite _ hc ih =>
    obtain ⟨hcs, rfl⟩ := composite?_eq_ok.1 hc
    rw [firstFault?_composite hcs]
    exact firstFaultAll?_eq_none ih

/-- A broken tree shows through everything that is built around it. -/
theorem BuiltAround.firstFault?_eq {c d : Criteria} (h : BuiltAround d c) {f : CriteriaFault}
    (hd : d.firstFault? = some f) : c.firstFault? = some f := by
  induction h with
  | here => exact hd
  | @composite op before after b c hbefore _ _ hc ih =>
    obtain ⟨hcs, rfl⟩ := composite?_eq_ok.1 hc
    have hnone := firstFaultAll?_eq_none fun a ha => (hbefore a ha).firstFault?_eq_none
    rw [firstFault?_composite hcs, firstFaultAll?_append, hnone, Option.none_or, firstFaultAll?_cons, ih,
      Option.some_or]

end Criteria

/-! ### Queries -/

namespace Query

/-- What a query fails for is found in its criteria. -/
theorem compile_eq_error {q : Query} {prefixes : Bool} {f : CriteriaFault} :
    q.compile prefixes = .error f ↔ ∃ c, q.criteria = some c ∧ c.firstFault? = some f := by
  have hcompile : q.compile prefixes = .error f ↔ q.criteriaExpression? = .error f := by
    rw [compile_eq_map]
    cases q.criteriaExpression? with
    | error f' => exact ⟨fun h => by cases h; rfl, fun h => by cases h; rfl⟩
    | ok e => exact ⟨nofun, nofun⟩
  rw [hcompile, criteriaExpression?]
  cases hc : q.criteria with
  | none => simp
  | some c => simp [Criteria.expression?_eq_error]

/-- The node that a query fails for has no broken node in front of it. -/
theorem compile_eq_error_iff_first {q : Query} {prefixes : Bool} {f : CriteriaFault} :
    q.compile prefixes = .error f ↔
      ∃ c before node after, q.criteria = some c ∧ c.nodes = before ++ node :: after ∧
        (∀ d ∈ before, ¬ d.IsBroken) ∧
        (node = .null ∧ f = .nullComposite ∨ (∃ op, node = .composite op []) ∧ f = .emptyComposite) := by
  simp only [compile_eq_error, Criteria.firstFault?_eq_some, Criteria.fault?_eq_some, Criteria.fault?_eq_none]
  constructor
  · rintro ⟨c, hc, before, node, after, hnodes, hnode, hbefore⟩
    exact ⟨c, before, node, after, hc, hnodes, hbefore, hnode⟩
  · rintro ⟨c, before, node, after, hc, hnodes, hbefore, hnode⟩
    exact ⟨c, hc, before, node, after, hnodes, hnode, hbefore⟩

theorem compile_fails_iff {q : Query} {prefixes : Bool} :
    (∃ f, q.compile prefixes = .error f) ↔ ∃ c node, q.criteria = some c ∧ node ∈ c.nodes ∧ node.IsBroken := by
  constructor
  · rintro ⟨f, hf⟩
    obtain ⟨c, before, node, after, hc, hnodes, -, hnode⟩ := compile_eq_error_iff_first.1 hf
    exact ⟨c, node, hc, by simp [hnodes], hnode.imp And.left And.left⟩
  · rintro ⟨c, node, hc, hmem, hnode⟩
    cases hf : c.firstFault? with
    | some f => exact ⟨f, compile_eq_error.2 ⟨c, hc, hf⟩⟩
    | none =>
      have hsound := Criteria.firstFault?_eq_none.1 hf node hmem
      exact absurd hnode (Criteria.fault?_eq_none.1 hsound)

/-- A query compiles if its criteria have no broken node. -/
theorem exists_compile {q : Query} {prefixes : Bool} :
    (∃ text, q.compile prefixes = .ok text) ↔ ∀ c ∈ q.criteria, c.firstFault? = none := by
  constructor
  · rintro ⟨text, ht⟩ c hc
    cases hf : c.firstFault? with
    | none => rfl
    | some f => cases ht.symm.trans (compile_eq_error.2 ⟨c, hc, hf⟩)
  · intro h
    cases ht : q.compile prefixes with
    | ok text => exact ⟨text, rfl⟩
    | error f =>
      obtain ⟨c, hc, hf⟩ := compile_eq_error.1 ht
      cases hf.symm.trans (h c hc)

theorem compile_ok_of_built {q : Query} {c : Criteria} (hc : q.criteria = some c) (h : c.Built) (prefixes : Bool) :
    ∃ text, q.compile prefixes = .ok text := by
  refine exists_compile.2 fun d hd => ?_
  cases hc.symm.trans hd
  exact h.firstFault?_eq_none

/-- A query fails to compile exactly if a node of its criteria is broken, and then for the first one that is.  No
checked composite is broken, so trees of these compile, and a broken node in one place among them is the one
that is reported. -/
theorem compile_fails_at_first_broken_node (q : Query) (prefixes : Bool) :
    ((∃ f, q.compile prefixes = .error f) ↔ ∃ c node, q.criteria = some c ∧ node ∈ c.nodes ∧ node.IsBroken) ∧
    (∀ f, q.compile prefixes = .error f ↔
      ∃ c before node after, q.criteria = some c ∧ c.nodes = before ++ node :: after ∧
        (∀ d ∈ before, ¬ d.IsBroken) ∧
        (node = .null ∧ f = .nullComposite ∨ (∃ op, node = .composite op []) ∧ f = .emptyComposite)) ∧
    CriteriaFault.nullComposite.message = ascii "Cannot compile a null composite criteria" ∧
    CriteriaFault.emptyComposite.message = ascii "Cannot compile a composite criteria without children" ∧
    (∀ op cs f, Criteria.composite? op cs = .error f ↔ cs = [] ∧ f = .noChild op) ∧
    (∀ c, q.criteria = some c → c.Built → ∃ text, q.compile prefixes = .ok text) ∧
    ∀ c d, q.criteria = some c → Criteria.BuiltAround d c →
      (d = .null → q.compile prefixes = .error .nullComposite) ∧
      ∀ op, d = .composite op [] → q.compile prefixes = .error .emptyComposite := by
  refine ⟨compile_fails_iff, fun _ => compile_eq_error_iff_first, rfl, rfl,
    fun _ _ _ => Criteria.composite?_eq_error, fun c hc hbuilt => compile_ok_of_built hc hbuilt prefixes,
    fun c d hc hd => ⟨?_, ?_⟩⟩
  · rintro rfl
    exact compile_eq_error.2 ⟨c, hc, hd.firstFault?_eq rfl⟩
  · rintro op rfl
    exact compile_eq_error.2 ⟨c, hc, hd.firstFault?_eq rfl⟩

/-- The first of two broken nodes is reported, though it lies deeper than the second one, and so is the only one
behind a leaf. -/
theorem compile_fails_at_null_before_empty :
    Query.compile false { criteria := some (.composite .and
        [.leaf ⟨[], ascii "a"⟩ (.scalar .null), .composite .or [.leaf ⟨[], ascii "b"⟩ (.scalar .null), .null],
          .composite .or []]) } = .error .nullComposite ∧
      Query.compile true { criteria := some (.composite .and
        [.leaf ⟨[], ascii "a"⟩ (.scalar .null), .composite .or []]) } = .error .emptyComposite := by
  constructor
  · refine ((compile_fails_at_first_broken_node _ false).2.1 _).2 ⟨_, [_, _, _, _], .null, _, rfl, rfl, ?_,
      Or.inl ⟨rfl, rfl⟩⟩
    simp [Criteria.IsBroken]
  · have haround : Criteria.BuiltAround (.composite .or [])
        (.composite .and [.leaf ⟨[], ascii "a"⟩ (.scalar .null), .composite .or []]) :=
      .composite (List.forall_mem_singleton.2 (.leaf ..)) .here (List.forall_mem_nil _) rfl
    exact ((compile_fails_at_first_broken_node _ true).2.2.2.2.2.2 _ _ rfl haround).2 .or rfl

end Query

end DocSearch
