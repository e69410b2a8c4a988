import NodeInventory.Filter.Basic
import NodeInventory.Json.Basic
import NodeInventory.Json.Reader
import NodeInventory.Protocol

/-!
# Filters and tokens as JSON

Signs, connectives and versions as JSON strings (`readToken`), and filters as JSON values
(`Filter.toJson`, `Filter.ofText`).
-/

namespace NodeInventory

/-!
## Tokens as JSON

Signs, connectives and versions are JSON strings with their tokens. `readToken` reads one from a
text: an unknown token is reported before anything that follows it is looked at.
-/

/-- Reads a JSON string that holds a token. -/
def readToken {α : Type} (ofToken : String → Except QueryError α) (s : String) :
    Except DecodeError α :=
  match Json.Written.readPrefix s with
  | some (.string pieces, rest) =>
    match Json.Written.textOf? pieces with
    | none => .error .malformed
    | some token =>
      match ofToken token with
      | .error e => .error (.unknown e)
      | .ok x => if Json.skipSpace rest = [] then .ok x else .error .malformed
  | _ => .error .malformed

/-- Reads a sign. -/
def Sign.ofText : String → Except DecodeError Sign := readToken Sign.ofToken

/-- Reads a connective. -/
def Connective.ofText : String → Except DecodeError Connective := readToken Connective.ofToken

/-- Reads a version. -/
def ApiVersion.ofText : String → Except DecodeError ApiVersion := readToken ApiVersion.ofToken

/-!
## Filters as JSON

A comparison is `{"type": "comparison", "sign": …, "column": …, "expression": …}`, a chain is
`{"type": "chain", "operator": …, "filters": […]}`.

* `Filter.toJson` writes that form.
* `Filter.ofJson` reads it with the fields in any order and among others, and also an array of the
  type and the fields in the order above. A field that it knows must not be repeated, a chain
  without `filters` has no children, and the type of a filter within another may be its number.
* `Filter.ofText` reads a text. Where several things are wrong with it, what is not JSON comes
  before a field that is not as it should be, the fields come in their order, and missing fields
  and trailing text come last.
-/

namespace Filter

mutual

/-- The JSON form of a filter. -/
def toJson : Filter → Json
  | .comparison sign column expression =>
    .object [("type", "comparison"), ("sign", sign.token), ("column", column),
      ("expression", expression)]
  | .chain op children =>
    .object [("type", "chain"), ("operator", op.token), ("filters", .array (toJsonItems children))]

/-- The JSON forms of filters. -/
def toJsonItems : List Filter → List Json
  | [] => []
  | f :: fs => toJson f :: toJsonItems fs

end

/-! ### Reading -/

/-- The two kinds of filter. -/
inductive Kind where
  | comparison
  | chain
deriving DecidableEq, Repr

/-- The kind that a type names: by its word or, within another filter, by its number. -/
def Kind.ofJson? (nested : Bool) : Json → Option Kind
  | .string s =>
    if s = "comparison" then some .comparison else if s = "chain" then some .chain else none
  | .number (.integer n) =>
    if nested ∧ n = 0 then some .comparison else if nested ∧ n = 1 then some .chain else none
  | _ => none

/-- The sign that a field holds. -/
def signOfJson : Json → Except DecodeError Sign
  | .string s => (Sign.ofToken s).mapError .unknown
  | _ => .error .malformed

/-- The connective that a field holds. -/
def connectiveOfJson : Json → Except DecodeError Connective
  | .string s => (Connective.ofToken s).mapError .unknown
  | _ => .error .malformed

/-- The fields of a comparison that have been read. -/
structure ComparisonDraft where
  sign : Option Sign
  column : Option String
  expression : Option Json

/-- Reads the fields of a comparison in their order. -/
def readComparisonFields (draft : ComparisonDraft) :
    List (String × Json) → Except DecodeError ComparisonDraft
  | [] => .ok draft
  | (k, v) :: fields =>
    if k = "sign" then
      if draft.sign.isSome then .error .malformed
      else match signOfJson v with
        | .ok sign => readComparisonFields { draft with sign := some sign } fields
        | .error e => .error e
    else if k = "column" then
      if draft.column.isSome then .error .malformed
      else match v with
        | .string column => readComparisonFields { draft with column := some column } fields
        | _ => .error .malformed
    else if k = "expression" then
      if draft.expression.isSome then .error .malformed
      else readComparisonFields { draft with expression := some v.mergeKeys } fields
    else readComparisonFields draft fields

/-- The comparison, if no field is missing. -/
def ComparisonDraft.finish (draft : ComparisonDraft) : Except DecodeError Filter :=
  match draft with
  | ⟨some sign, some column, some expression⟩ => .ok (.comparison sign column expression)
  | _ => .error .malformed

/-- The fields of a chain that have been read. -/
structure ChainDraft where
  op : Option Connective
  children : Option (List Filter)

/-- The chain, if its operator is not missing. -/
def ChainDraft.finish (draft : ChainDraft) : Except DecodeError Filter :=
  match draft.op with
  | some op => .ok (.chain op (draft.children.getD []))
  | none => .error .malformed

/-- The kind of an object: it has to name exactly one. -/
def kindOfFields? (nested : Bool) (fields : List (String × Json)) : Option Kind :=
  match fields.filter fun f => f.1 = "type" with
  | [(_, v)] => Kind.ofJson? nested v
  | _ => none

mutual

/-- The filter that a JSON value writes; `nested` says that it is a part of another filter. -/
def ofJson (nested : Bool) : Json → Except DecodeError Filter
  | .object fields =>
    match kindOfFields? nested fields with
    | some .comparison => do (← readComparisonFields ⟨none, none, none⟩ fields).finish
    | some .chain => do (← readChainFields ⟨none, none⟩ fields).finish
    | none => .error .malformed
  | .array (kind :: items) =>
    match Kind.ofJson? nested kind with
    | some .comparison => do
      let draft ← readComparisonFields ⟨none, none, none⟩
        (["sign", "column", "expression"].zip items)
      if 3 < items.length then .error .malformed else draft.finish
    | some .chain =>
      match items with
      | [] => .error .malformed
      | [op] => do return .chain (← connectiveOfJson op) []
      | op :: children :: rest => do
        let op ← connectiveOfJson op
        let children ← childrenOfJson children
        if rest = [] then return .chain op children else .error .malformed
    | none => .error .malformed
  | _ => .error .malformed

/-- Reads the fields of a chain in their order. -/
def readChainFields (draft : ChainDraft) : List (String × Json) → Except DecodeError ChainDraft
  | [] => .ok draft
  | (k, v) :: fields =>
    if k = "operator" then
      if draft.op.isSome then .error .malformed
      else match connectiveOfJson v with
        | .ok op => readChainFields { draft with op := some op } fields
        | .error e => .error e
    else if k = "filters" then
      if draft.children.isSome then .error .malformed
      else match childrenOfJson v with
        | .ok children => readChainFields { draft with children := some children } fields
        | .error e => .error e
    else readChainFields draft fields

/-- The filters in an array. -/
def childrenOfJson : Json → Except DecodeError (List Filter)
  | .array items => ofJsonItems items
  | _ => .error .malformed

/-- The filters that JSON values write. -/
def ofJsonItems : List Json → Except DecodeError (List Filter)
  | [] => .ok []
  | v :: items =>
    match ofJson true v with
    | .error e => .error e
    | .ok f =>
      match ofJsonItems items with
      | .error e => .error e
      | .ok fs => .ok (f :: fs)

end

/-- The filter that a text writes as JSON. -/
def ofText (s : String) : Except DecodeError Filter :=
  match Json.Written.readPrefix s with
  | none => .error .malformed
  | some (w, rest) =>
    match w.value? Json.nestingLimit with
    | none => .error .malformed
    | some v =>
      match ofJson false v with
      | .error e => .error e
      | .ok f => if Json.skipSpace rest = [] then .ok f else .error .malformed

end Filter

end NodeInventory
