import NodeInventory.Query
import Mathlib.Data.Set.List

/-!
# Compiled filters

A filter compiles to nested arrays, and nothing of it is lost: the sign of a comparison is no
connective, so what an array stands for can be told from its head, and the expression of a
comparison is never taken for a filter, even if it looks like one.

* `Filter.IsFilterQuery` : the JSON values that are compiled filters, by their shape;
* `Filter.eq_of_toJson_compile_eq`, `Filter.same_toJson_compile` : filters that compile to equal
  values are equal, field by field and as JSON;
* `Filter.exists_toJson_compile_eq_iff` : every value of that shape is a compiled filter, and no
  other;
* `Filter.compile_lossless` : all of this.
-/

namespace NodeInventory

theorem Sign.token_injective : Function.Injective Sign.token := by
  intro a b h
  have ha := ofToken_token a
  rw [h, ofToken_token] at ha
  exact (Except.ok.inj ha).symm

theorem Connective.token_injective : Function.Injective Connective.token := by
  intro a b h
  have ha := ofToken_token a
  rw [h, ofToken_token] at ha
  exact (Except.ok.inj ha).symm

theorem Sign.token_ne_token (sign : Sign) (op : Connective) : sign.token ≠ op.token := by
  cases sign <;> cases op <;> decide

namespace Filter

/-! ### The shape of compiled filters -/

/-- The JSON values that are filters in the query language: a sign, a column and any value, or a
connective and any number of such values. -/
inductive IsFilterQuery : Json → Prop
  | comparison {sign : String} (h : sign ∈ ["=", "!=", "~", "<", "<=", ">", ">="]) (column : String)
      (expression : Json) : IsFilterQuery (.array [.string sign, .string column, expression])
  | chain {op : String} {operands : List Json} (h : op ∈ ["and", "or", "not"])
      (hoperands : ∀ v ∈ operands, IsFilterQuery v) :
      IsFilterQuery (.array (.string op :: operands))

theorem mem_signs_iff {s : String} :
    s ∈ ["=", "!=", "~", "<", "<=", ">", ">="] ↔ ∃ sign : Sign, sign.token = s := by
  constructor
  · intro h
    simp only [List.mem_cons, List.not_mem_nil, or_false] at h
    rcases h with rfl | rfl | rfl | rfl | rfl | rfl | rfl
    exacts [⟨.equal, rfl⟩, ⟨.notEqual, rfl⟩, ⟨.matching, rfl⟩, ⟨.less, rfl⟩, ⟨.lessOrEqual, rfl⟩,
      ⟨.greater, rfl⟩, ⟨.greaterOrEqual, rfl⟩]
  · rintro ⟨sign, rfl⟩
    cases sign <;> decide

theorem mem_connectives_iff {s : String} :
    s ∈ ["and", "or", "not"] ↔ ∃ op : Connective, op.token = s := by
  constructor
  · intro h
    simp only [List.mem_cons, List.not_mem_nil, or_false] at h
    rcases h with rfl | rfl | rfl
    exacts [⟨.and, rfl⟩, ⟨.or, rfl⟩, ⟨.not, rfl⟩]
  · rintro ⟨op, rfl⟩
    cases op <;> decide

/-! ### What a filter compiles to -/

theorem toJson_compile_comparison (sign : Sign) (column : String) (expression : Json) :
    (compile (.comparison sign column expression)).toJson =
      .array [.string sign.token, .string column, expression] := rfl

theorem toJsonItems_compileItems (fs : List Filter) :
    Query.toJsonItems (compileItems fs) = fs.map fun f => (compile f).toJson := by
  induction fs with
  | nil => rfl
  | cons f fs ih => rw [compileItems, Query.toJsonItems, ih, List.map_cons]

theorem toJson_compile_chain (op : Connective) (fs : List Filter) :
    (compile (.chain op fs)).toJson =
      .array (.string op.token :: fs.map fun f => (compile f).toJson) := by
  rw [← toJsonItems_compileItems]
  rfl

/-! ### Nothing is lost -/

-- The head of an array is a sign or a connective, never both, so the cases in which a comparison
-- meets a chain fall away.
mutual

/-- A filter can be read off the value that it compiles to. -/
theorem eq_of_toJson_compile_eq (f g : Filter) (h : (compile f).toJson = (compile g).toJson) :
    f = g := by
  cases f with
  | comparison sign column expression =>
    cases g with
    | comparison sign' column' expression' =>
      simp only [toJson_compile_comparison, Json.array.injEq, List.cons.injEq,
        Json.string.injEq, and_true] at h
      obtain ⟨hsign, rfl, rfl⟩ := h
      rw [Sign.token_injective hsign]
    | chain op gs =>
      simp [toJson_compile_comparison, toJson_compile_chain, Sign.token_ne_token] at h
  | chain op fs =>
    cases g with
    | comparison sign column expression =>
      simp [toJson_compile_comparison, toJson_compile_chain, (Sign.token_ne_token _ _).symm] at h
    | chain op' gs =>
      simp only [toJson_compile_chain, Json.array.injEq, List.cons.injEq, Json.string.injEq] at h
      rw [Connective.token_injective h.1, eq_of_map_toJson_compile_eq fs gs h.2]

theorem eq_of_map_toJson_compile_eq (fs gs : List Filter)
    (h : (fs.map fun f => (compile f).toJson) = gs.map fun g => (compile g).toJson) : fs = gs := by
  cases fs with
  | nil =>
    cases gs with
    | nil => rfl
    | cons g gs => cases h
  | cons f fs =>
    cases gs with
    | nil => cases h
    | cons g gs =>
      simp only [List.map_cons, List.cons.injEq] at h
      rw [eq_of_toJson_compile_eq f g h.1, eq_of_map_toJson_compile_eq fs gs h.2]

end

mutual

/-- Filters compile to the same value if and only if they are the same, their expressions being
compared as JSON values. -/
theorem same_toJson_compile (f g : Filter) :
    (compile f).toJson.same (compile g).toJson = f.same g := by
  cases f with
  | comparison sign column expression =>
    cases g with
    | comparison sign' column' expression' =>
      have hsign : (sign.token == sign'.token) = decide (sign = sign') := by
        cases sign <;> cases sign' <;> rfl
      simp only [toJson_compile_comparison, Json.same, Json.sameItems, Filter.same, hsign,
        Bool.and_true, Bool.and_assoc]
      rfl
    | chain op gs =>
      simp [toJson_compile_comparison, toJson_compile_chain, Json.same, Json.sameItems,
        Filter.same, Sign.token_ne_token]
  | chain op fs =>
    cases g with
    | comparison sign column expression =>
      simp [toJson_compile_comparison, toJson_compile_chain, Json.same, Json.sameItems,
        Filter.same, (Sign.token_ne_token _ _).symm]
    | chain op' gs =>
      have hop : (op.token == op'.token) = decide (op = op') := by
        cases op <;> cases op' <;> rfl
      simp only [toJson_compile_chain, Json.same, Json.sameItems, Filter.same, hop,
        sameItems_map_toJson_compile fs gs]

theorem sameItems_map_toJson_compile (fs gs : List Filter) :
    Json.sameItems (fs.map fun f => (compile f).toJson) (gs.map fun g => (compile g).toJson) =
      sameChildren fs gs := by
  cases fs with
  | nil => cases gs <;> rfl
  | cons f fs =>
    cases gs with
    | nil => rfl
    | cons g gs =>
      rw [List.map_cons, List.map_cons, Json.sameItems, sameChildren, same_toJson_compile f g,
        sameItems_map_toJson_compile fs gs]

end

/-! ### Compiled filters and no others -/

mutual

theorem isFilterQuery_toJson_compile (f : Filter) : IsFilterQuery (compile f).toJson := by
  cases f with
  | comparison sign column expression =>
    rw [toJson_compile_comparison]
    exact .comparison (mem_signs_iff.2 ⟨sign, rfl⟩) column expression
  | chain op fs =>
    rw [toJson_compile_chain]
    exact .chain (mem_connectives_iff.2 ⟨op, rfl⟩) (isFilterQuery_of_mem_map fs)

theorem isFilterQuery_of_mem_map (fs : List Filter) :
    ∀ v ∈ fs.map fun f => (compile f).toJson, IsFilterQuery v := by
  cases fs with
  | nil => simp
  | cons f fs =>
    intro v hv
    rcases List.mem_cons.1 hv with rfl | hv
    · exact isFilterQuery_toJson_compile f
    · exact isFilterQuery_of_mem_map fs v hv

end

/-- Every value of the shape of a compiled filter is one, and no other value is. -/
theorem exists_toJson_compile_eq_iff {v : Json} :
    (∃ f, (compile f).toJson = v) ↔ IsFilterQuery v := by
  constructor
  · rintro ⟨f, rfl⟩
    exact isFilterQuery_toJson_compile f
  · intro h
    induction h with
    | comparison hsign column expression =>
      obtain ⟨sign, rfl⟩ := mem_signs_iff.1 hsign
      exact ⟨.comparison sign column expression, toJson_compile_comparison ..⟩
    | @chain op operands hop _ ih =>
      obtain ⟨op, rfl⟩ := mem_connectives_iff.1 hop
      -- a filter for each operand makes a list of filters for the list of operands
      have hrange : operands ∈ Set.range (List.map fun f => (compile f).toJson) := by
        rw [Set.range_list_map]
        exact ih
      obtain ⟨fs, rfl⟩ := hrange
      exact ⟨.chain op fs, toJson_compile_chain op fs⟩

/-- **The compiler loses nothing.**  Two filters compile to one JSON value only if they are equal,
and to values that are the same as JSON only if they are; and the values that filters compile to are
just those of the shape `IsFilterQuery`. -/
theorem compile_lossless :
    (∀ f g : Filter, (compile f).toJson = (compile g).toJson ↔ f = g) ∧
    (∀ f g : Filter, (compile f).toJson.same (compile g).toJson = f.same g) ∧
    ∀ v : Json, (∃ f, (compile f).toJson = v) ↔ IsFilterQuery v :=
  ⟨fun f g => ⟨eq_of_toJson_compile_eq f g, fun h => h ▸ rfl⟩, same_toJson_compile,
    fun _ => exists_toJson_compile_eq_iff⟩

end Filter

end NodeInventory
