import NodeInventory.Filter.Codec
import NodeInventory.Proofs.Json.Merge
import NodeInventory.Proofs.Json.RoundTrip
import Mathlib.Logic.Function.Iterate

/-!
# Filters through JSON text

A filter is the same after it has been written as JSON text and read again, whatever its expressions
are made of: they may be objects with the very fields that filters are written with.  But no more
than 127 containers may be nested in a text, of which a comparison takes one and a chain two, so a
filter that is nested deeper is not read again, and never as another one.

* `Filter.ofJson_toJson` : the JSON form of a filter is that of no other, by recursion on the
  filter;
* `Filter.numbers_toJson` : it holds the numbers of the expressions and no others;
* `Filter.depth_comparison`, `Filter.depth_chain` : what is nested in it;
* `Filter.ofText_text_toJson` : the text of a filter, up to the limit of nesting.
-/

namespace NodeInventory

namespace Filter

mutual

/-- The expressions that columns are compared with. -/
def expressions : Filter → List Json
  | .comparison _ _ expression => [expression]
  | .chain _ children => childExpressions children

/-- The expressions of children. -/
def childExpressions : List Filter → List Json
  | [] => []
  | f :: fs => expressions f ++ childExpressions fs

end

/-! ### The JSON form -/

theorem ofJson_comparison (nested : Bool) (sign : Sign) (column : String) {expression : Json}
    (h : expression.DistinctKeys) :
    ofJson nested (toJson (.comparison sign column expression)) =
      .ok (.comparison sign column expression) := by
  have hkind : kindOfFields? nested [("type", .string "comparison"), ("sign", .string sign.token),
      ("column", .string column), ("expression", expression)] = some .comparison := rfl
  have hsign : signOfJson (.string sign.token) = .ok sign := by
    rw [signOfJson, Sign.ofToken_token]
    rfl
  have hfields : readComparisonFields ⟨none, none, none⟩ [("type", .string "comparison"),
      ("sign", .string sign.token), ("column", .string column), ("expression", expression)] =
      .ok ⟨some sign, some column, some expression⟩ := by
    simp [readComparisonFields, hsign, Json.mergeKeys_of_distinctKeys expression h]
  rw [toJson, ofJson, hkind]
  dsimp only
  rw [hfields]
  rfl

theorem ofJson_chain (nested : Bool) (op : Connective) {children : List Filter}
    (h : ofJsonItems (toJsonItems children) = .ok children) :
    ofJson nested (toJson (.chain op children)) = .ok (.chain op children) := by
  have hkind : kindOfFields? nested [("type", .string "chain"), ("operator", .string op.token),
      ("filters", .array (toJsonItems children))] = some .chain := rfl
  have hop : connectiveOfJson (.string op.token) = .ok op := by
    rw [connectiveOfJson, Connective.ofToken_token]
    rfl
  have hfields : readChainFields ⟨none, none⟩ [("type", .string "chain"),
      ("operator", .string op.token), ("filters", .array (toJsonItems children))] =
      .ok ⟨some op, some children⟩ := by
    simp [readChainFields, hop, childrenOfJson, h]
  rw [toJson, ofJson, hkind]
  dsimp only
  rw [hfields]
  rfl

mutual

theorem ofJson_toJson (f : Filter) (h : ∀ e ∈ f.expressions, e.DistinctKeys) (nested : Bool) :
    ofJson nested f.toJson = .ok f := by
  cases f with
  | comparison sign column expression =>
    exact ofJson_comparison nested sign column (h expression (List.mem_singleton_self _))
  | chain op children => exact ofJson_chain nested op (ofJsonItems_toJsonItems children h)

theorem ofJsonItems_toJsonItems (fs : List Filter)
    (h : ∀ e ∈ childExpressions fs, e.DistinctKeys) : ofJsonItems (toJsonItems fs) = .ok fs := by
  cases fs with
  | nil => rfl
  | cons f fs =>
    rw [childExpressions, List.forall_mem_append] at h
    rw [toJsonItems, ofJsonItems, ofJson_toJson f h.1 true, ofJsonItems_toJsonItems fs h.2]

end

mutual

theorem numbers_toJson (f : Filter) : f.toJson.numbers = f.expressions.flatMap Json.numbers := by
  cases f with
  | comparison sign column expression =>
    simp [toJson, Json.numbers, Json.numbersFields, expressions]
  | chain op children =>
    simp [toJson, Json.numbers, Json.numbersFields, expressions, numbersItems_toJsonItems children]

theorem numbersItems_toJsonItems (fs : List Filter) :
    Json.numbersItems (toJsonItems fs) = (childExpressions fs).flatMap Json.numbers := by
  cases fs with
  | nil => rfl
  | cons f fs =>
    rw [toJsonItems, Json.numbersItems, childExpressions, List.flatMap_append, numbers_toJson f,
      numbersItems_toJsonItems fs]

end

/-! ### Nesting -/

theorem depth_comparison (sign : Sign) (column : String) (expression : Json) :
    (toJson (.comparison sign column expression)).depth = expression.depth + 1 := by
  simp [toJson, Json.depth, Json.depthFields]

theorem depth_chain (op : Connective) (children : List Filter) :
    (toJson (.chain op children)).depth = Json.depthItems (toJsonItems children) + 2 := by
  simp [toJson, Json.depth, Json.depthFields]

theorem depth_negate (f : Filter) : f.negate.toJson.depth = f.toJson.depth + 2 := by
  rw [negate, depth_chain, toJsonItems, toJsonItems, Json.depthItems, Json.depthItems, Nat.max_zero]

theorem depth_iterate_negate (n : ℕ) (f : Filter) :
    (negate^[n] f).toJson.depth = f.toJson.depth + 2 * n := by
  induction n with
  | zero => rfl
  | succ n ih => rw [Function.iterate_succ_apply', depth_negate, ih]; omega

theorem expressions_iterate_negate (n : ℕ) (f : Filter) :
    (negate^[n] f).expressions = f.expressions := by
  induction n with
  | zero => rfl
  | succ n ih =>
    rw [Function.iterate_succ_apply', negate, expressions, childExpressions, ih, childExpressions,
      List.append_nil]

/-! ### The text -/

/-- **Writing a filter and reading it again.**  A filter whose expressions hold preserved numbers
only is read back from its text if at most 127 arrays and objects are nested in that, and else the
text is not read at all.  No object in an expression names a field twice, as in any value that has
been read (`Json.distinctKeys_of_parse`). -/
theorem ofText_text_toJson (f : Filter)
    (hnumbers : ∀ e ∈ f.expressions, ∀ n ∈ e.numbers, n.IsPreserved)
    (hkeys : ∀ e ∈ f.expressions, e.DistinctKeys) :
    ofText f.toJson.text = if f.toJson.depth ≤ 127 then .ok f else .error .malformed := by
  have hpreserved : ∀ n ∈ f.toJson.numbers, n.IsPreserved := by
    rw [numbers_toJson]
    intro n hn
    obtain ⟨e, he, hn⟩ := List.mem_flatMap.1 hn
    exact hnumbers e he n hn
  have hread := Json.Written.readPrefix_text f.toJson
    (Json.numbersReadBack_of_preserved f.toJson hpreserved)
  have hvalue : f.toJson.written.value? Json.nestingLimit =
      if f.toJson.depth ≤ 127 then some f.toJson else none :=
    Json.value?_written f.toJson hpreserved Json.nestingLimit
  rw [ofText, hread]
  dsimp only
  rw [hvalue]
  by_cases hdepth : f.toJson.depth ≤ 127
  · rw [if_pos hdepth, if_pos hdepth]
    dsimp only
    rw [ofJson_toJson f hkeys false]
    rfl
  · rw [if_neg hdepth, if_neg hdepth]

/-- An expression in the form of a chain stays what it is, and so does a chain without children;
63 negations of a comparison with a number are read again, but not of one with an array. -/
theorem ofText_text_toJson_negations :
    ofText (toJson (.chain .or [.chain .and [], .comparison .matching "parameters" (.object
      [("type", "chain"), ("operator", "and"), ("filters", .array [Json.ofInt (-7)])])])).text =
      .ok (.chain .or [.chain .and [], .comparison .matching "parameters" (.object
        [("type", "chain"), ("operator", "and"), ("filters", .array [Json.ofInt (-7)])])]) ∧
    ofText (negate^[63] (equals "line" (Json.ofInt 12))).toJson.text =
      .ok (negate^[63] (equals "line" (Json.ofInt 12))) ∧
    ofText (negate^[63] (equals "line" (.array [Json.ofInt 12]))).toJson.text =
      .error .malformed := by
  have hseven : (Json.Number.integer (-7)).IsPreserved :=
    Json.Number.isPreserved_integer (by decide) (by decide)
  have htwelve : (Json.Number.integer 12).IsPreserved :=
    Json.Number.isPreserved_integer (by decide) (by decide)
  refine ⟨(ofText_text_toJson _ ?_ ?_).trans ?_, (ofText_text_toJson _ ?_ ?_).trans ?_,
    (ofText_text_toJson _ ?_ ?_).trans ?_⟩
  · simpa [expressions, childExpressions, Json.numbers, Json.numbersItems, Json.numbersFields,
      Json.ofInt] using hseven
  · simp [expressions, childExpressions, Json.DistinctKeys, Json.DistinctKeysItems,
      Json.DistinctKeysFields, Json.ofInt]
  · exact if_pos (by decide)
  · rw [expressions_iterate_negate]
    simpa [equals, expressions, Json.numbers, Json.ofInt] using htwelve
  · rw [expressions_iterate_negate]
    simp [equals, expressions, Json.DistinctKeys, Json.ofInt]
  · rw [depth_iterate_negate]
    exact if_pos (by decide)
  · rw [expressions_iterate_negate]
    simpa [equals, expressions, Json.numbers, Json.numbersItems, Json.ofInt] using htwelve
  · rw [expressions_iterate_negate]
    simp [equals, expressions, Json.DistinctKeys, Json.DistinctKeysItems, Json.ofInt]
  · rw [depth_iterate_negate]
    exact if_neg (by decide)

end Filter

end NodeInventory
