import NodeInventory.Filter.Codec
import NodeInventory.Proofs.Json.RoundTrip
import Mathlib.Data.List.Forall2
import Mathlib.Data.List.Perm.Basic
import Mathlib.Logic.Relation

/-!
# The JSON values that represent a filter

A filter is read from an object by the values of its fields, whatever their order and whatever other
fields there are.  `Filter.Represents` says which values represent which filter, without mentioning
the reader: each field that a comparison or a chain knows is there once and holds what it should,
and only the children of a chain may be left out.

* `Filter.readComparisonFields_eq_ok_iff`, `Filter.readChainFields_eq_ok_iff` : the fields that are
  read go each into its own slot, by induction on the list of fields;
* `Filter.ofJson_eq_ok_iff_represents` : the reader returns what a value represents, by recursion on
  the filter;
* `Filter.Rearranged.represents_iff` : order and unknown fields do not matter, at any depth;
* `Filter.ofText_eq_ok_iff_represents` : so a text is read as the filter that it represents, and
  refused if it, or a part of it that should, does not represent any.
-/

namespace NodeInventory

/-! ### Tokens -/

theorem Sign.ofToken_eq_ok_iff {s : String} {sign : Sign} :
    Sign.ofToken s = .ok sign ↔ s = sign.token := by
  constructor
  · intro h
    rw [Sign.ofToken] at h
    cases hfind : Sign.all.find? fun sign => sign.token = s with
    | none => simp [hfind] at h
    | some sign' =>
      obtain rfl : sign' = sign := by simpa [hfind] using h
      have htoken := List.find?_some hfind
      exact (of_decide_eq_true htoken).symm
  · rintro rfl
    exact Sign.ofToken_token sign

theorem Connective.eq_of_toList_token {op op' : Connective}
    (h : op.token.toList = op'.token.toList) : op = op' := by
  cases op <;> cases op' <;> simp [Connective.token] at h ⊢

theorem Connective.ofToken_eq_ok_iff {s : String} {op : Connective} :
    Connective.ofToken s = .ok op ↔ s.toList.map Char.toLower = op.token.toList := by
  rw [Connective.ofToken]
  cases hfind : Connective.all.find? fun c => c.token.toList = s.toList.map Char.toLower with
  | none =>
    have hmem : op ∈ Connective.all := by cases op <;> decide
    have hne : op.token.toList ≠ s.toList.map Char.toLower := by
      simpa using List.find?_eq_none.1 hfind op hmem
    simpa using hne.symm
  | some op' =>
    have hfound := List.find?_some hfind
    have htoken : op'.token.toList = s.toList.map Char.toLower := of_decide_eq_true hfound
    rw [← htoken]
    simp only [Except.ok.injEq]
    exact ⟨fun h => h ▸ rfl, Connective.eq_of_toList_token⟩

namespace Filter

/-! ### Representations -/

/-- The values of the fields of a name. -/
def valuesOf (name : String) (fields : List (String × Json)) : List Json :=
  (fields.filter fun f => f.1 = name).map (·.2)

/-- A value represents a filter. Where an object in an expression names a field twice, the last
value counts. -/
inductive Represents : Json → Filter → Prop
  | comparison {fields : List (String × Json)} {sign : Sign} {column : String} {expression : Json}
      (htype : valuesOf "type" fields = [.string "comparison"])
      (hsign : valuesOf "sign" fields = [.string sign.token])
      (hcolumn : valuesOf "column" fields = [.string column])
      (hexpression : valuesOf "expression" fields = [expression]) :
      Represents (.object fields) (.comparison sign column expression.mergeKeys)
  | childless {fields : List (String × Json)} {op : Connective} {token : String}
      (htype : valuesOf "type" fields = [.string "chain"])
      (htoken : valuesOf "operator" fields = [.string token])
      (hop : token.toList.map Char.toLower = op.token.toList)
      (hfilters : valuesOf "filters" fields = []) :
      Represents (.object fields) (.chain op [])
  | chain {fields : List (String × Json)} {op : Connective} {token : String} {items : List Json}
      {children : List Filter}
      (htype : valuesOf "type" fields = [.string "chain"])
      (htoken : valuesOf "operator" fields = [.string token])
      (hop : token.toList.map Char.toLower = op.token.toList)
      (hfilters : valuesOf "filters" fields = [.array items])
      (hchildren : List.Forall₂ Represents items children) :
      Represents (.object fields) (.chain op children)

/-- A part of a value stands where a filter should: the value itself, or an item of the children of
a chain. -/
inductive Reaches : Json → Json → Prop
  | here (v : Json) : Reaches v v
  | child {fields : List (String × Json)} {items : List Json} {v n : Json}
      (htype : valuesOf "type" fields = [.string "chain"])
      (hfilters : Json.array items ∈ valuesOf "filters" fields) (hv : v ∈ items)
      (h : Reaches v n) : Reaches (.object fields) n

/-- A value is in neither of the other forms that are read, an array of the fields and an object
with a number for its type. An object with a text for its type is plain. -/
def IsPlain : Json → Prop
  | .array _ => False
  | .object fields => ∀ n, Json.number n ∉ valuesOf "type" fields
  | _ => True

/-- Everything that stands where a filter should is plain. -/
def AllPlain (v : Json) : Prop := ∀ n, Reaches v n → IsPlain n

/-- The word for a kind of filter. -/
def Kind.word : Kind → String
  | .comparison => "comparison"
  | .chain => "chain"

/-- The names of the fields that a kind of filter is read from. -/
def Kind.fieldNames : Kind → List String
  | .comparison => ["sign", "column", "expression"]
  | .chain => ["operator", "filters"]

/-- The fields of a name are not read from an object, whatever its type says it is. -/
def IsUnknown (fields : List (String × Json)) (name : String) : Prop :=
  name ≠ "type" ∧
    ∀ kind : Kind, valuesOf "type" fields = [.string kind.word] → name ∉ kind.fieldNames

/-- A value with the fields of one object in another order and with further fields that are not
read, where that object is the value or stands among the children of a chain. -/
inductive Rearranged : Json → Json → Prop
  | fields {fields more fields' : List (String × Json)} (hmore : ∀ f ∈ more, IsUnknown fields f.1)
      (hfields : fields'.Perm (fields ++ more)) : Rearranged (.object fields) (.object fields')
  | child {before after : List (String × Json)} {left right : List Json} {v v' : Json}
      (h : Rearranged v v') :
      Rearranged (.object (before ++ ("filters", .array (left ++ v :: right)) :: after))
        (.object (before ++ ("filters", .array (left ++ v' :: right)) :: after))

/-! ### Values of fields -/

theorem valuesOf_nil (name : String) : valuesOf name [] = [] := rfl

theorem valuesOf_cons_self (name : String) (v : Json) (fields : List (String × Json)) :
    valuesOf name ((name, v) :: fields) = v :: valuesOf name fields := by
  simp [valuesOf]

theorem valuesOf_cons_of_ne {name k : String} (h : k ≠ name) (v : Json)
    (fields : List (String × Json)) : valuesOf name ((k, v) :: fields) = valuesOf name fields := by
  simp [valuesOf, h]

theorem valuesOf_append (name : String) (fields more : List (String × Json)) :
    valuesOf name (fields ++ more) = valuesOf name fields ++ valuesOf name more := by
  simp [valuesOf]

theorem valuesOf_perm {fields fields' : List (String × Json)} (h : fields.Perm fields')
    (name : String) : (valuesOf name fields).Perm (valuesOf name fields') :=
  (h.filter _).map _

theorem valuesOf_eq_nil {name : String} {fields : List (String × Json)}
    (h : ∀ f ∈ fields, f.1 ≠ name) : valuesOf name fields = [] := by
  simpa [valuesOf] using h

/-! ### What the parts of the reader take -/

theorem signOfJson_eq_ok_iff {v : Json} {sign : Sign} :
    signOfJson v = .ok sign ↔ v = .string sign.token := by
  cases v with
  | string s =>
    rw [signOfJson, Json.string.injEq, ← Sign.ofToken_eq_ok_iff]
    cases Sign.ofToken s <;> simp [Except.mapError]
  | _ => simp [signOfJson]

theorem connectiveOfJson_eq_ok_iff {v : Json} {op : Connective} : connectiveOfJson v = .ok op ↔
    ∃ token, v = .string token ∧ token.toList.map Char.toLower = op.token.toList := by
  cases v with
  | string s =>
    simp only [connectiveOfJson, Json.string.injEq, exists_eq_left', ← Connective.ofToken_eq_ok_iff]
    cases Connective.ofToken s <;> simp [Except.mapError]
  | _ => simp [connectiveOfJson]

/-- The text that a field holds. -/
def textOfJson : Json → Except DecodeError String
  | .string s => .ok s
  | _ => .error .malformed

theorem textOfJson_eq_ok_iff {v : Json} {s : String} : textOfJson v = .ok s ↔ v = .string s := by
  cases v <;> simp [textOfJson]

theorem childrenOfJson_eq_ok_iff {v : Json} {fs : List Filter} : childrenOfJson v = .ok fs ↔
    ∃ items, v = .array items ∧ ofJsonItems items = .ok fs := by
  cases v <;> simp [childrenOfJson]

/-- The expression that a field holds. -/
def expressionOfJson (v : Json) : Except DecodeError Json := .ok v.mergeKeys

/-- A slot is filled from the field of its name, which must not be repeated, or left as it is. -/
def Fills {α : Type} (decode : Json → Except DecodeError α) (values : List Json)
    (slot slot' : Option α) : Prop :=
  match values with
  | [] => slot' = slot
  | [v] => slot = none ∧ ∃ a, decode v = .ok a ∧ slot' = some a
  | _ => False

theorem fills_cons_iff {α : Type} {decode : Json → Except DecodeError α} {v : Json}
    {values : List Json} {slot slot' : Option α} : Fills decode (v :: values) slot slot' ↔
      slot = none ∧ ∃ a, decode v = .ok a ∧ Fills decode values (some a) slot' := by
  match values with
  | [] => simp [Fills]
  | [w] => simp [Fills]
  | w :: x :: values => simp [Fills]

theorem fills_none_some_iff {α : Type} {decode : Json → Except DecodeError α}
    {values : List Json} {a : α} :
    Fills decode values none (some a) ↔ ∃ v, values = [v] ∧ decode v = .ok a := by
  match values with
  | [] => simp [Fills]
  | [v] => simp [Fills]
  | _ :: _ :: _ => simp [Fills]

theorem fills_none_none_iff {α : Type} {decode : Json → Except DecodeError α}
    {values : List Json} : Fills decode values none none ↔ values = [] := by
  match values with
  | [] => simp [Fills]
  | [v] => simp [Fills]
  | _ :: _ :: _ => simp [Fills]

/-! ### The fields of a comparison -/

section

variable {fields : List (String × Json)} {draft draft' : ComparisonDraft} {v : Json}

theorem readComparisonFields_sign_iff :
    readComparisonFields draft (("sign", v) :: fields) = .ok draft' ↔ draft.sign = none ∧
      ∃ sign, signOfJson v = .ok sign ∧
        readComparisonFields { draft with sign := some sign } fields = .ok draft' := by
  rw [readComparisonFields.eq_def]
  cases draft.sign <;> cases hv : signOfJson v <;> simp [hv]

theorem readComparisonFields_column_iff :
    readComparisonFields draft (("column", v) :: fields) = .ok draft' ↔ draft.column = none ∧
      ∃ column, textOfJson v = .ok column ∧
        readComparisonFields { draft with column := some column } fields = .ok draft' := by
  rw [readComparisonFields.eq_def]
  cases draft.column <;> cases v <;> simp [textOfJson]

theorem readComparisonFields_expression_iff :
    readComparisonFields draft (("expression", v) :: fields) = .ok draft' ↔
      draft.expression = none ∧ ∃ expression, expressionOfJson v = .ok expression ∧
        readComparisonFields { draft with expression := some expression } fields = .ok draft' := by
  rw [readComparisonFields.eq_def]
  cases draft.expression <;> simp [expressionOfJson]

theorem readComparisonFields_of_ne {k : String} (hsign : k ≠ "sign") (hcolumn : k ≠ "column")
    (hexpression : k ≠ "expression") :
    readComparisonFields draft ((k, v) :: fields) = readComparisonFields draft fields := by
  rw [readComparisonFields.eq_def]
  simp [hsign, hcolumn, hexpression]

theorem readComparisonFields_eq_ok_iff : readComparisonFields draft fields = .ok draft' ↔
    Fills signOfJson (valuesOf "sign" fields) draft.sign draft'.sign ∧
      Fills textOfJson (valuesOf "column" fields) draft.column draft'.column ∧
      Fills expressionOfJson (valuesOf "expression" fields) draft.expression draft'.expression := by
  induction fields generalizing draft with
  | nil =>
    cases draft
    cases draft'
    simp [readComparisonFields, valuesOf_nil, Fills, eq_comm]
  | cons f fields ih =>
    obtain ⟨k, v⟩ := f
    by_cases hsign : k = "sign"
    · subst hsign
      rw [readComparisonFields_sign_iff, valuesOf_cons_self, valuesOf_cons_of_ne (by decide),
        valuesOf_cons_of_ne (by decide), fills_cons_iff]
      simp only [ih]
      tauto
    · by_cases hcolumn : k = "column"
      · subst hcolumn
        rw [readComparisonFields_column_iff, valuesOf_cons_self, valuesOf_cons_of_ne (by decide),
          valuesOf_cons_of_ne (by decide), fills_cons_iff]
        simp only [ih]
        tauto
      · by_cases hexpression : k = "expression"
        · subst hexpression
          rw [readComparisonFields_expression_iff, valuesOf_cons_self,
            valuesOf_cons_of_ne (by decide), valuesOf_cons_of_ne (by decide), fills_cons_iff]
          simp only [ih]
          grind
        · rw [readComparisonFields_of_ne hsign hcolumn hexpression, valuesOf_cons_of_ne hsign,
            valuesOf_cons_of_ne hcolumn, valuesOf_cons_of_ne hexpression]
          exact ih

end

/-! ### The fields of a chain -/

section

variable {fields : List (String × Json)} {draft draft' : ChainDraft} {v : Json}

theorem readChainFields_operator_iff :
    readChainFields draft (("operator", v) :: fields) = .ok draft' ↔ draft.op = none ∧
      ∃ op, connectiveOfJson v = .ok op ∧
        readChainFields { draft with op := some op } fields = .ok draft' := by
  rw [readChainFields.eq_def]
  cases draft.op <;> cases hv : connectiveOfJson v <;> simp [hv]

theorem readChainFields_filters_iff :
    readChainFields draft (("filters", v) :: fields) = .ok draft' ↔ draft.children = none ∧
      ∃ children, childrenOfJson v = .ok children ∧
        readChainFields { draft with children := some children } fields = .ok draft' := by
  rw [readChainFields.eq_def]
  cases draft.children <;> cases hv : childrenOfJson v <;> simp [hv]

theorem readChainFields_of_ne {k : String} (hoperator : k ≠ "operator") (hfilters : k ≠ "filters") :
    readChainFields draft ((k, v) :: fields) = readChainFields draft fields := by
  rw [readChainFields.eq_def]
  simp [hoperator, hfilters]

theorem readChainFields_eq_ok_iff : readChainFields draft fields = .ok draft' ↔
    Fills connectiveOfJson (valuesOf "operator" fields) draft.op draft'.op ∧
      Fills childrenOfJson (valuesOf "filters" fields) draft.children draft'.children := by
  induction fields generalizing draft with
  | nil =>
    cases draft
    cases draft'
    simp [readChainFields, valuesOf_nil, Fills, eq_comm]
  | cons f fields ih =>
    obtain ⟨k, v⟩ := f
    by_cases hoperator : k = "operator"
    · subst hoperator
      rw [readChainFields_operator_iff, valuesOf_cons_self, valuesOf_cons_of_ne (by decide),
        fills_cons_iff]
      simp only [ih]
      grind
    · by_cases hfilters : k = "filters"
      · subst hfilters
        rw [readChainFields_filters_iff, valuesOf_cons_self, valuesOf_cons_of_ne (by decide),
          fills_cons_iff]
        simp only [ih]
        grind
      · rw [readChainFields_of_ne hoperator hfilters, valuesOf_cons_of_ne hoperator,
          valuesOf_cons_of_ne hfilters]
        exact ih

end

/-! ### One object -/

theorem kindOfFields?_eq_some_iff {nested : Bool} {fields : List (String × Json)} {kind : Kind} :
    kindOfFields? nested fields = some kind ↔
      ∃ v, valuesOf "type" fields = [v] ∧ Kind.ofJson? nested v = some kind := by
  rw [kindOfFields?, valuesOf]
  split
  · next k v hfields => simp [hfields]
  · next hfields =>
    simp only [reduceCtorEq, false_iff]
    rintro ⟨v, hv, -⟩
    obtain ⟨f, hf, rfl⟩ := List.map_eq_singleton_iff.1 hv
    exact hfields f.1 f.2 hf

theorem kindOfFields?_iff_of_isPlain {nested : Bool} {fields : List (String × Json)} {kind : Kind}
    (h : IsPlain (.object fields)) :
    kindOfFields? nested fields = some kind ↔ valuesOf "type" fields = [.string kind.word] := by
  rw [kindOfFields?_eq_some_iff]
  constructor
  · rintro ⟨v, hv, hkind⟩
    rw [hv]
    cases v with
    | string s =>
      rw [Kind.ofJson?] at hkind
      split_ifs at hkind with hcomparison hchain
      · cases hkind
        rw [hcomparison, Kind.word]
      · cases hkind
        rw [hchain, Kind.word]
    | number n => exact absurd (hv ▸ List.mem_singleton_self _) (h n)
    | _ => cases hkind
  · intro htype
    exact ⟨_, htype, by cases kind <;> rfl⟩

theorem bind_eq_ok_iff {α β : Type} {x : Except DecodeError α} {next : α → Except DecodeError β}
    {b : β} : (x >>= next) = .ok b ↔ ∃ a, x = .ok a ∧ next a = .ok b := by
  cases x <;> simp [bind, Except.bind]

theorem ComparisonDraft.finish_eq_ok_iff {draft : ComparisonDraft} {f : Filter} :
    draft.finish = .ok f ↔ ∃ sign column expression,
      draft = ⟨some sign, some column, some expression⟩ ∧
        f = .comparison sign column expression := by
  obtain ⟨sign, column, expression⟩ := draft
  cases sign <;> cases column <;> cases expression <;> simp [ComparisonDraft.finish, eq_comm]

theorem ChainDraft.finish_eq_ok_iff {draft : ChainDraft} {f : Filter} :
    draft.finish = .ok f ↔
      ∃ op, draft.op = some op ∧ f = .chain op (draft.children.getD []) := by
  cases hop : draft.op <;> simp [ChainDraft.finish, hop, eq_comm]

theorem ofJson_object_comparison_iff {nested : Bool} {fields : List (String × Json)} {f : Filter}
    (h : kindOfFields? nested fields = some .comparison) :
    ofJson nested (.object fields) = .ok f ↔ ∃ (sign : Sign) (column : String) (expression : Json),
      valuesOf "sign" fields = [.string sign.token] ∧ valuesOf "column" fields = [.string column] ∧
      valuesOf "expression" fields = [expression] ∧
      f = .comparison sign column expression.mergeKeys := by
  rw [ofJson, h]
  dsimp only
  rw [bind_eq_ok_iff]
  constructor
  · rintro ⟨draft, hread, hfinish⟩
    obtain ⟨sign, column, e, rfl, rfl⟩ := ComparisonDraft.finish_eq_ok_iff.1 hfinish
    obtain ⟨hfills, hfills', hfills''⟩ := readComparisonFields_eq_ok_iff.1 hread
    obtain ⟨v, hsign, hv⟩ := fills_none_some_iff.1 hfills
    obtain ⟨u, hcolumn, hu⟩ := fills_none_some_iff.1 hfills'
    obtain ⟨expression, hexpression, he⟩ := fills_none_some_iff.1 hfills''
    obtain rfl := signOfJson_eq_ok_iff.1 hv
    obtain rfl := textOfJson_eq_ok_iff.1 hu
    cases he
    exact ⟨sign, column, expression, hsign, hcolumn, hexpression, rfl⟩
  · rintro ⟨sign, column, expression, hsign, hcolumn, hexpression, rfl⟩
    refine ⟨⟨some sign, some column, some expression.mergeKeys⟩, ?_, rfl⟩
    exact readComparisonFields_eq_ok_iff.2
      ⟨fills_none_some_iff.2 ⟨_, hsign, signOfJson_eq_ok_iff.2 rfl⟩,
        fills_none_some_iff.2 ⟨_, hcolumn, rfl⟩, fills_none_some_iff.2 ⟨_, hexpression, rfl⟩⟩

theorem ofJson_object_chain_iff {nested : Bool} {fields : List (String × Json)} {f : Filter}
    (h : kindOfFields? nested fields = some .chain) :
    ofJson nested (.object fields) = .ok f ↔ ∃ (op : Connective) (token : String)
      (children : List Filter), valuesOf "operator" fields = [.string token] ∧
      token.toList.map Char.toLower = op.token.toList ∧
      (valuesOf "filters" fields = [] ∧ children = [] ∨
        ∃ items, valuesOf "filters" fields = [.array items] ∧ ofJsonItems items = .ok children) ∧
      f = .chain op children := by
  rw [ofJson, h]
  dsimp only
  rw [bind_eq_ok_iff]
  constructor
  · rintro ⟨⟨slot, children⟩, hread, hfinish⟩
    obtain ⟨op, rfl, rfl⟩ := ChainDraft.finish_eq_ok_iff.1 hfinish
    obtain ⟨hop, hchildren⟩ := readChainFields_eq_ok_iff.1 hread
    obtain ⟨v, hoperator, hv⟩ := fills_none_some_iff.1 hop
    obtain ⟨token, rfl, htoken⟩ := connectiveOfJson_eq_ok_iff.1 hv
    refine ⟨op, token, _, hoperator, htoken, ?_, rfl⟩
    cases children with
    | none => exact .inl ⟨fills_none_none_iff.1 hchildren, rfl⟩
    | some children =>
      obtain ⟨u, hfilters, hu⟩ := fills_none_some_iff.1 hchildren
      obtain ⟨items, rfl, hitems⟩ := childrenOfJson_eq_ok_iff.1 hu
      exact .inr ⟨items, hfilters, hitems⟩
  · rintro ⟨op, token, children, hoperator, htoken, hchildren, rfl⟩
    have hop : Fills connectiveOfJson (valuesOf "operator" fields) none (some op) :=
      fills_none_some_iff.2 ⟨_, hoperator, connectiveOfJson_eq_ok_iff.2 ⟨token, rfl, htoken⟩⟩
    rcases hchildren with ⟨hfilters, rfl⟩ | ⟨items, hfilters, hitems⟩
    · exact ⟨⟨some op, none⟩,
        readChainFields_eq_ok_iff.2 ⟨hop, fills_none_none_iff.2 hfilters⟩, rfl⟩
    · exact ⟨⟨some op, some children⟩, readChainFields_eq_ok_iff.2 ⟨hop, fills_none_some_iff.2
        ⟨_, hfilters, childrenOfJson_eq_ok_iff.2 ⟨items, rfl, hitems⟩⟩⟩, rfl⟩

/-- The kind of a filter. -/
def kind : Filter → Kind
  | .comparison .. => .comparison
  | .chain .. => .chain

theorem kindOfFields?_of_ofJson_eq_ok {nested : Bool} {fields : List (String × Json)} {f : Filter}
    (h : ofJson nested (.object fields) = .ok f) : kindOfFields? nested fields = some f.kind := by
  cases hkind : kindOfFields? nested fields with
  | none =>
    rw [ofJson, hkind] at h
    cases h
  | some k =>
    cases k with
    | comparison =>
      obtain ⟨_, _, _, -, -, -, rfl⟩ := (ofJson_object_comparison_iff hkind).1 h
      rfl
    | chain =>
      obtain ⟨_, _, _, -, -, -, rfl⟩ := (ofJson_object_chain_iff hkind).1 h
      rfl

/-! ### The reader -/

theorem allPlain_object_iff {fields : List (String × Json)} :
    AllPlain (.object fields) ↔ IsPlain (.object fields) ∧
      (valuesOf "type" fields = [.string "chain"] →
        ∀ items, .array items ∈ valuesOf "filters" fields → ∀ v ∈ items, AllPlain v) := by
  constructor
  · intro h
    exact ⟨h _ (.here _), fun htype items hfilters v hv n hn => h n (.child htype hfilters hv hn)⟩
  · rintro ⟨hplain, hchildren⟩ n hn
    cases hn with
    | here => exact hplain
    | child htype hfilters hv hn => exact hchildren htype _ hfilters _ hv n hn

theorem ofJsonItems_cons_eq_ok_iff {v : Json} {items : List Json} {fs : List Filter} :
    ofJsonItems (v :: items) = .ok fs ↔
      ∃ g gs, ofJson true v = .ok g ∧ ofJsonItems items = .ok gs ∧ fs = g :: gs := by
  rw [ofJsonItems]
  cases ofJson true v <;> cases ofJsonItems items <;> simp [eq_comm]

mutual

/-- The reader returns just what a plain value represents. -/
theorem ofJson_eq_ok_iff_represents (f : Filter) {v : Json} (nested : Bool) (h : AllPlain v) :
    ofJson nested v = .ok f ↔ Represents v f := by
  cases v with
  | object fields =>
    have hkind : ∀ kind, kindOfFields? nested fields = some kind ↔
        valuesOf "type" fields = [.string kind.word] := fun _ =>
      kindOfFields?_iff_of_isPlain (h _ (.here _))
    cases f with
    | comparison sign column expression =>
      constructor
      · intro hread
        have hk := kindOfFields?_of_ofJson_eq_ok hread
        obtain ⟨_, _, e, hsign, hcolumn, hexpression, hf⟩ :=
          (ofJson_object_comparison_iff hk).1 hread
        cases hf
        exact .comparison ((hkind .comparison).1 hk) hsign hcolumn hexpression
      · intro hf
        cases hf with
        | @comparison _ _ _ e htype hsign hcolumn hexpression =>
          exact (ofJson_object_comparison_iff ((hkind .comparison).2 htype)).2
            ⟨sign, column, e, hsign, hcolumn, hexpression, rfl⟩
    | chain op children =>
      have hchildren : ∀ {items}, valuesOf "type" fields = [.string "chain"] →
          valuesOf "filters" fields = [.array items] →
          (ofJsonItems items = .ok children ↔ List.Forall₂ Represents items children) :=
        fun {items} htype hfilters =>
          ofJsonItems_eq_ok_iff_represents children
            ((allPlain_object_iff.1 h).2 htype items (hfilters ▸ List.mem_singleton_self _))
      constructor
      · intro hread
        have hk := kindOfFields?_of_ofJson_eq_ok hread
        have htype := (hkind .chain).1 hk
        obtain ⟨_, token, _, htoken, hop, hfs, hf⟩ := (ofJson_object_chain_iff hk).1 hread
        cases hf
        rcases hfs with ⟨hfilters, rfl⟩ | ⟨items, hfilters, hitems⟩
        · exact .childless htype htoken hop hfilters
        · exact .chain htype htoken hop hfilters ((hchildren htype hfilters).1 hitems)
      · intro hf
        cases hf with
        | @childless _ _ token htype htoken hop hfilters =>
          exact (ofJson_object_chain_iff ((hkind .chain).2 htype)).2
            ⟨op, token, [], htoken, hop, .inl ⟨hfilters, rfl⟩, rfl⟩
        | @chain _ _ token items _ htype htoken hop hfilters hfs =>
          exact (ofJson_object_chain_iff ((hkind .chain).2 htype)).2 ⟨op, token, children, htoken,
            hop, .inr ⟨items, hfilters, (hchildren htype hfilters).2 hfs⟩, rfl⟩
  | array items => exact absurd (h _ (.here _)) id
  | _ => exact ⟨nofun, nofun⟩

theorem ofJsonItems_eq_ok_iff_represents (fs : List Filter) {items : List Json}
    (h : ∀ v ∈ items, AllPlain v) :
    ofJsonItems items = .ok fs ↔ List.Forall₂ Represents items fs := by
  cases items with
  | nil => simp [ofJsonItems, eq_comm]
  | cons v items =>
    rw [ofJsonItems_cons_eq_ok_iff]
    rw [List.forall_mem_cons] at h
    cases fs with
    | nil => simp
    | cons f fs =>
      rw [List.forall₂_cons, ← ofJson_eq_ok_iff_represents f true h.1,
        ← ofJsonItems_eq_ok_iff_represents fs h.2]
      simp

end

/-! ### Parts of a value that represents a filter -/

theorem exists_of_forall₂_append_cons {α β : Type} {R : α → β → Prop} {left right : List α} {a : α}
    {bs : List β} (h : List.Forall₂ R (left ++ a :: right) bs) :
    ∃ left' b right', bs = left' ++ b :: right' ∧ List.Forall₂ R left left' ∧ R a b ∧
      List.Forall₂ R right right' := by
  induction left generalizing bs with
  | nil =>
    cases h with
    | cons hab hright => exact ⟨[], _, _, rfl, .nil, hab, hright⟩
  | cons c left ih =>
    cases h with
    | cons hc hrest =>
      obtain ⟨left', b, right', rfl, hleft, hab, hright⟩ := ih hrest
      exact ⟨_ :: left', b, right', rfl, .cons hc hleft, hab, hright⟩

theorem Reaches.exists_represents {v n : Json} (h : Reaches v n) {f : Filter}
    (hf : Represents v f) : ∃ g, Represents n g := by
  induction h generalizing f with
  | here v => exact ⟨f, hf⟩
  | @child fields items v n htype hfilters hv _ ih =>
    cases hf with
    | comparison htype' => simp [htype] at htype'
    | childless _ _ _ hnone => simp [hnone] at hfilters
    | chain _ _ _ hsome hchildren =>
      obtain rfl : items = _ := by simpa [hsome] using hfilters
      obtain ⟨left, right, rfl⟩ := List.append_of_mem hv
      obtain ⟨_, g, _, -, -, hg, -⟩ := exists_of_forall₂_append_cons hchildren
      exact ih hg

/-! ### Order and unknown fields -/

theorem Represents.of_perm {fields fields' : List (String × Json)} {f : Filter}
    (hf : Represents (.object fields) f)
    (htypes : (valuesOf "type" fields').Perm (valuesOf "type" fields))
    (hnames : ∀ kind : Kind, valuesOf "type" fields = [.string kind.word] →
      ∀ name ∈ kind.fieldNames, (valuesOf name fields').Perm (valuesOf name fields)) :
    Represents (.object fields') f := by
  have honce : ∀ {name v}, (valuesOf name fields').Perm (valuesOf name fields) →
      valuesOf name fields = [v] → valuesOf name fields' = [v] := fun hperm hv =>
    List.perm_singleton.1 (hv ▸ hperm)
  cases hf with
  | comparison htype hsign hcolumn hexpression =>
    have hperm := hnames .comparison htype
    exact .comparison (honce htypes htype) (honce (hperm _ (by decide)) hsign)
      (honce (hperm _ (by decide)) hcolumn) (honce (hperm _ (by decide)) hexpression)
  | childless htype htoken hop hfilters =>
    have hperm := hnames .chain htype
    have hnone := hperm "filters" (by decide)
    rw [hfilters] at hnone
    exact .childless (honce htypes htype) (honce (hperm _ (by decide)) htoken) hop hnone.eq_nil
  | chain htype htoken hop hfilters hchildren =>
    have hperm := hnames .chain htype
    exact .chain (honce htypes htype) (honce (hperm _ (by decide)) htoken) hop
      (honce (hperm _ (by decide)) hfilters) hchildren

section

variable {before after : List (String × Json)} {left right : List Json} {v v' : Json}

theorem valuesOf_replace_of_ne {name : String} (h : name ≠ "filters") (x y : Json) :
    valuesOf name (before ++ ("filters", x) :: after) =
      valuesOf name (before ++ ("filters", y) :: after) := by
  rw [valuesOf_append, valuesOf_append, valuesOf_cons_of_ne h.symm, valuesOf_cons_of_ne h.symm]

theorem Represents.replace_child (hv : ∀ g, Represents v g → Represents v' g) {f : Filter}
    (hf : Represents (.object (before ++ ("filters", .array (left ++ v :: right)) :: after)) f) :
    Represents (.object (before ++ ("filters", .array (left ++ v' :: right)) :: after)) f := by
  have hother : ∀ {name}, name ≠ "filters" →
      valuesOf name (before ++ ("filters", .array (left ++ v :: right)) :: after) =
        valuesOf name (before ++ ("filters", .array (left ++ v' :: right)) :: after) :=
    fun hname => valuesOf_replace_of_ne hname _ _
  generalize hfields : before ++ ("filters", .array (left ++ v :: right)) :: after = fields
    at hf hother
  cases hf with
  | comparison htype hsign hcolumn hexpression =>
    rw [hother (by decide)] at htype hsign hcolumn hexpression
    exact .comparison htype hsign hcolumn hexpression
  | childless _ _ _ hfilters =>
    rw [← hfields, valuesOf_append, valuesOf_cons_self] at hfilters
    simp at hfilters
  | @chain _ _ _ items _ htype htoken hop hfilters hchildren =>
    rw [hother (by decide)] at htype htoken
    rw [← hfields, valuesOf_append, valuesOf_cons_self] at hfilters
    -- so there is no other field of that name
    obtain ⟨hbefore, rfl, hafter⟩ : valuesOf "filters" before = [] ∧
        left ++ v :: right = items ∧ valuesOf "filters" after = [] := by
      simpa [List.append_eq_singleton_iff] using hfilters
    obtain ⟨left', g, right', rfl, hleft, hg, hright⟩ := exists_of_forall₂_append_cons hchildren
    refine .chain htype htoken hop ?_ (List.rel_append hleft (.cons (hv g hg) hright))
    rw [valuesOf_append, valuesOf_cons_self, hbefore, hafter, List.nil_append]

end

section

variable {fields more fields' : List (String × Json)}

theorem valuesOf_perm_of_ne {name : String} (hfields : fields'.Perm (fields ++ more))
    (h : ∀ f ∈ more, f.1 ≠ name) : (valuesOf name fields').Perm (valuesOf name fields) := by
  have hperm := valuesOf_perm hfields name
  rwa [valuesOf_append, valuesOf_eq_nil h, List.append_nil] at hperm

theorem valuesOf_type_perm (hmore : ∀ f ∈ more, IsUnknown fields f.1)
    (hfields : fields'.Perm (fields ++ more)) :
    (valuesOf "type" fields').Perm (valuesOf "type" fields) :=
  valuesOf_perm_of_ne hfields fun f hf => (hmore f hf).1

theorem valuesOf_perm_of_isUnknown (hmore : ∀ f ∈ more, IsUnknown fields f.1)
    (hfields : fields'.Perm (fields ++ more)) {kind : Kind}
    (htype : valuesOf "type" fields = [.string kind.word]) {name : String}
    (hname : name ∈ kind.fieldNames) : (valuesOf name fields').Perm (valuesOf name fields) := by
  refine valuesOf_perm_of_ne hfields fun f hf heq => ?_
  exact (hmore f hf).2 kind htype (heq ▸ hname)

end

theorem Rearranged.represents_iff {v v' : Json} (h : Rearranged v v') {f : Filter} :
    Represents v f ↔ Represents v' f := by
  induction h generalizing f with
  | fields hmore hfields =>
    have htypes := valuesOf_type_perm hmore hfields
    constructor
    · intro hf
      exact hf.of_perm htypes fun _ htype _ => valuesOf_perm_of_isUnknown hmore hfields htype
    · intro hf
      refine hf.of_perm htypes.symm fun kind htype' _ hname => ?_
      have htype := List.perm_singleton.1 (htype' ▸ htypes.symm)
      exact (valuesOf_perm_of_isUnknown hmore hfields htype hname).symm
  | child _ ih => exact ⟨.replace_child fun _ => ih.1, .replace_child fun _ => ih.2⟩

theorem Rearranged.allPlain {v v' : Json} (h : Rearranged v v') (hv : AllPlain v) :
    AllPlain v' := by
  induction h with
  | @fields fields more fields' hmore hfields =>
    have htypes := valuesOf_type_perm hmore hfields
    obtain ⟨hplain, hchildren⟩ := allPlain_object_iff.1 hv
    refine allPlain_object_iff.2 ⟨fun m hm => hplain m (htypes.subset hm), ?_⟩
    intro htype' items hitems
    have htype : valuesOf "type" fields = [.string Kind.chain.word] :=
      List.perm_singleton.1 (htype' ▸ htypes.symm)
    have hperm : (valuesOf "filters" fields').Perm (valuesOf "filters" fields) :=
      valuesOf_perm_of_isUnknown hmore hfields htype (by decide)
    exact hchildren htype items (hperm.subset hitems)
  | @child before after left right v v' _ ih =>
    have htypes : valuesOf "type" (before ++ ("filters", .array (left ++ v :: right)) :: after) =
        valuesOf "type" (before ++ ("filters", .array (left ++ v' :: right)) :: after) :=
      valuesOf_replace_of_ne (by decide) _ _
    obtain ⟨hplain, hchildren⟩ := allPlain_object_iff.1 hv
    refine allPlain_object_iff.2 ⟨fun m hm => hplain m (htypes ▸ hm), fun htype items hitems => ?_⟩
    replace hchildren := hchildren (htypes ▸ htype)
    rw [valuesOf_append, valuesOf_cons_self] at hchildren hitems
    -- the children are those that there were, apart from the one
    have hold : ∀ y ∈ left ++ v :: right, AllPlain y := hchildren _ (by simp)
    rcases List.mem_append.1 hitems with hbefore | hmem
    · exact hchildren items (List.mem_append_left _ hbefore)
    rcases List.mem_cons.1 hmem with hreplaced | hafter
    · cases hreplaced
      rw [List.forall_mem_append, List.forall_mem_cons] at hold ⊢
      exact ⟨hold.1, ih hold.2.1, hold.2.2⟩
    · exact hchildren items (by simp [hafter])

theorem represents_iff_of_reflTransGen {v v' : Json} (h : Relation.ReflTransGen Rearranged v v')
    (hv : AllPlain v) : AllPlain v' ∧ ∀ f, Represents v f ↔ Represents v' f := by
  induction h with
  | refl => exact ⟨hv, fun _ => Iff.rfl⟩
  | tail _ hstep ih => exact ⟨hstep.allPlain ih.1, fun f => (ih.2 f).trans hstep.represents_iff⟩

/-! ### The text -/

theorem ofText_eq_ok_iff {s : String} {w : Json.Written} {v : Json}
    (hread : Json.Written.parse s = some w) (hvalue : w.value? Json.nestingLimit = some v)
    {f : Filter} : ofText s = .ok f ↔ ofJson false v = .ok f := by
  obtain ⟨rest, hfront, hrest⟩ := Json.Written.readPrefix_of_parse hread
  rw [ofText, hfront]
  simp only [hvalue, hrest, if_true]
  cases ofJson false v <;> simp

/-- **Reading a filter from JSON.**  A text in which everything that stands where a filter should is
plain is read as the filter that its value represents.  It is refused if anything in it that stands
where a filter should represents none, and it is read the same with fields in another order and with
further fields. -/
theorem ofText_eq_ok_iff_represents {s : String} {w : Json.Written} {v : Json}
    (hread : Json.Written.parse s = some w) (hvalue : w.value? Json.nestingLimit = some v)
    (hplain : AllPlain v) :
    (∀ f, ofText s = .ok f ↔ Represents v f) ∧
      (∀ n, Reaches v n → (∀ g, ¬ Represents n g) → ∃ e, ofText s = .error e) ∧
      ∀ s' w' v', Json.Written.parse s' = some w' → w'.value? Json.nestingLimit = some v' →
        Relation.ReflTransGen Rearranged v v' → ∀ f, ofText s' = .ok f ↔ ofText s = .ok f := by
  have hrepresents : ∀ f, ofText s = .ok f ↔ Represents v f := fun f =>
    (ofText_eq_ok_iff hread hvalue).trans (ofJson_eq_ok_iff_represents f false hplain)
  refine ⟨hrepresents, fun n hn hnone => ?_, fun s' w' v' hread' hvalue' hchain f => ?_⟩
  · cases hresult : ofText s with
    | ok f =>
      obtain ⟨g, hg⟩ := hn.exists_represents ((hrepresents f).1 hresult)
      exact absurd hg (hnone g)
    | error e => exact ⟨e, rfl⟩
  · obtain ⟨hplain', hiff⟩ := represents_iff_of_reflTransGen hchain hplain
    calc ofText s' = .ok f ↔ ofJson false v' = .ok f := ofText_eq_ok_iff hread' hvalue'
      _ ↔ Represents v' f := ofJson_eq_ok_iff_represents f false hplain'
      _ ↔ Represents v f := (hiff f).symm
      _ ↔ ofText s = .ok f := (hrepresents f).symm

theorem not_represents_xor (g : Filter) :
    ¬ Represents (.object [("type", "chain"), ("operator", "xor")]) g := by
  intro h
  have hword : ∀ {token : String} {op : Connective},
      valuesOf "operator" [("type", .string "chain"), ("operator", .string "xor")] =
        [.string token] → token.toList.map Char.toLower ≠ op.token.toList := by
    intro token op htoken
    obtain rfl : "xor" = token := by simpa [valuesOf] using htoken
    cases op <;> decide
  cases h with
  | comparison htype => simp [valuesOf] at htype
  | childless _ htoken hop => exact hword htoken hop
  | chain _ htoken hop => exact hword htoken hop

/-- A chain, the same chain from back to front and with a note, and one with a child whose operator
is none. -/
theorem ofText_chain_backwards :
    ofText (Json.object [("type", "chain"), ("operator", "OR"), ("filters", .array [.object
      [("type", "comparison"), ("sign", "~"), ("column", "os"), ("expression", .null)]])]).text =
        .ok (.chain .or [.comparison .matching "os" .null]) ∧
    ofText (Json.object [("note", .null), ("filters", .array [.object [("expression", .null),
      ("column", "os"), ("sign", "~"), ("type", "comparison")]]), ("operator", "OR"),
      ("type", "chain")]).text = .ok (.chain .or [.comparison .matching "os" .null]) ∧
    ∃ e, ofText (Json.object [("type", "chain"), ("operator", "not"), ("filters", .array [.object
      [("type", "chain"), ("operator", "xor")]])]).text = .error e := by
  have hchain : ofText (Json.object [("type", "chain"), ("operator", "OR"), ("filters", .array
      [.object [("type", "comparison"), ("sign", "~"), ("column", "os"),
        ("expression", .null)]])]).text = .ok (.chain .or [.comparison .matching "os" .null]) := by
    refine (Json.exists_parse_text ?_ ?_).elim fun w h =>
      ((ofText_eq_ok_iff_represents h.1 h.2 ?_).1 _).2 ?_
    · simp [Json.numbers, Json.numbersFields, Json.numbersItems]
    · decide
    · simp [allPlain_object_iff, IsPlain, valuesOf]
    · have hos := @Represents.comparison [("type", "comparison"), ("sign", "~"), ("column", "os"),
        ("expression", .null)] .matching "os" .null rfl rfl rfl rfl
      exact .chain rfl rfl (by decide) rfl (.cons hos .nil)
  refine ⟨hchain, ?_, ?_⟩
  · refine (Json.exists_parse_text ?_ ?_).elim fun w h => (Json.exists_parse_text ?_ ?_).elim
      fun w' h' => ((ofText_eq_ok_iff_represents h.1 h.2 ?_).2.2 _ _ _ h'.1 h'.2 ?_ _).2 hchain
    · simp [Json.numbers, Json.numbersFields, Json.numbersItems]
    · decide
    · simp [Json.numbers, Json.numbersFields, Json.numbersItems]
    · decide
    · simp [allPlain_object_iff, IsPlain, valuesOf]
    · -- first the fields of the child, then those of the chain
      have hos : Rearranged
          (.object [("type", "comparison"), ("sign", "~"), ("column", "os"), ("expression", .null)])
          (.object [("expression", .null), ("column", "os"), ("sign", "~"),
            ("type", "comparison")]) :=
        @Rearranged.fields _ [] _ (List.forall_mem_nil _) (by decide)
      have hchild := @Rearranged.child [("type", "chain"), ("operator", "OR")] [] [] [] _ _ hos
      refine (Relation.ReflTransGen.single hchild).tail
        (@Rearranged.fields _ [("note", .null)] _ ?_ (by decide))
      rw [List.forall_mem_singleton]
      exact ⟨by decide, fun kind _ => by cases kind <;> decide⟩
  · refine (Json.exists_parse_text ?_ ?_).elim fun w h =>
      (ofText_eq_ok_iff_represents h.1 h.2 ?_).2.1 _ ?_ not_represents_xor
    · simp [Json.numbers, Json.numbersFields, Json.numbersItems]
    · decide
    · simp [allPlain_object_iff, IsPlain, valuesOf]
    · exact .child rfl (List.mem_singleton_self _) (List.mem_singleton_self _) (.here _)

end Filter

end NodeInventory
