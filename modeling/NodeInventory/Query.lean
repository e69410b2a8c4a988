import NodeInventory.Filter.Basic
import NodeInventory.Json.Basic
import NodeInventory.Json.Reader
import NodeInventory.Protocol
import NodeInventory.Text

/-!
# Queries, orderings and request parameters

What a request asks of a query endpoint: which rows (`Query`), in which order (`OrderBy`), and how
both stand in its path (`Parameters`).
-/

namespace NodeInventory

/-!
## Queries

A `Query` is a nested list in the query language of the store, such as
`["and", ["=", "type", "Class"], ["~", "title", "^Nginx"]]`.

* `Query.toJson` is its JSON value; `Query.write` writes its text directly, the same text.
* `Filter.compile` renders a filter: a comparison as sign, column and expression, a chain as its
  connective and its children in their order.
-/

/-- A query: a list of queries, or any JSON value. -/
inductive Query where
  | list (items : List Query)
  | atom (value : Json)

namespace Query

/-- A string as a query. -/
def ofString (s : String) : Query := .atom (.string s)

/-- A token and its operands. -/
def op (token : String) (operands : List Query) : Query := .list (ofString token :: operands)

/-- A sign, a column and an expression. -/
def comparison (sign column : String) (expression : Json) : Query :=
  op sign [ofString column, .atom expression]

/-- Both queries. -/
def and (extra query : Query) : Query := op "and" [extra, query]

/-- Some columns of the rows that a query selects. -/
def extract (columns : List String) (query : Query) : Query :=
  op "extract" [.list (columns.map ofString), query]

mutual

/-- The query as a JSON value. -/
def toJson : Query → Json
  | .list items => .array (toJsonItems items)
  | .atom value => value

/-- Queries as JSON values. -/
def toJsonItems : List Query → List Json
  | [] => []
  | q :: qs => toJson q :: toJsonItems qs

end

/-- The text of a query, by way of its JSON value. -/
def text (q : Query) : String := q.toJson.text

mutual

/-- The text of a query, written directly. -/
def write : Query → List Char
  | .list [] => ['[', ']']
  | .list (q :: qs) => '[' :: (write q ++ writeItems qs)
  | .atom value => value.write

/-- The further items of a list, and its end. -/
def writeItems : List Query → List Char
  | [] => [']']
  | q :: qs => ',' :: (write q ++ writeItems qs)

end

end Query

namespace Filter

mutual

/-- A filter as a query. -/
def compile : Filter → Query
  | .comparison sign column expression => .comparison sign.token column expression
  | .chain op children => .op op.token (compileItems children)

/-- Filters as queries. -/
def compileItems : List Filter → List Query
  | [] => []
  | f :: fs => compile f :: compileItems fs

end

end Filter

/-!
## Orderings

An ordering is a list of `OrderBy`: rows are compared by the first field, those equal in it by the
second, and so on.
-/

/-- A direction of sorting. -/
inductive Direction where
  | ascending
  | descending
deriving DecidableEq, Repr

namespace Direction

/-- The direction in writing. -/
def token : Direction → String
  | ascending => "asc"
  | descending => "desc"

/-- The direction of a token. -/
def ofToken? (s : String) : Option Direction :=
  [ascending, descending].find? fun d => d.token = s

/-- A direction by its token, which may also be the one field, `null`, of an object. -/
def decoder : Json.Decoder Direction
  | _, .string pieces => Json.Written.textOf? pieces >>= ofToken?
  | _ + 1, .object [(key, .null)] => Json.Written.textOf? key >>= ofToken?
  | _, _ => none

end Direction

/-- A field to sort by. -/
structure OrderBy where
  field : String
  direction : Direction
deriving DecidableEq, Repr

namespace OrderBy

/-- Upwards by a field. -/
def ascending (field : String) : OrderBy := ⟨field, .ascending⟩

/-- Downwards by a field. -/
def descending (field : String) : OrderBy := ⟨field, .descending⟩

/-- The JSON form. -/
def toJson (o : OrderBy) : Json := .object [("field", o.field), ("order", o.direction.token)]

/-- The JSON form of an ordering. -/
def listToJson (order : List OrderBy) : Json := .array (order.map toJson)

/-- Reads the JSON form. -/
def decoder : Json.Decoder OrderBy :=
  .record ⟨["field", "order"], []⟩ fun fields => do
    return ⟨← fields.get "field" .text, ← fields.get "order" Direction.decoder⟩

end OrderBy

/-!
## Request parameters

* `encodeParameter` writes `key=value`, the value as compact JSON, percent-encoded.
* `Parameters` are the query and the ordering of a request to a query endpoint;
  `Parameters.path` is the endpoint with them behind it.
-/

/-- What a parameter may hold: a JSON value, a query, or a table keyed by bytes, which JSON cannot
express unless it is empty. -/
inductive ParameterValue where
  | json (value : Json)
  | query (q : Query)
  | byteKeyed (entries : List (List UInt8 × Json))

/-- The JSON text of a value, or the reason why it has none. -/
def ParameterValue.text : ParameterValue → Except String String
  | .json value => .ok value.text
  | .query q => .ok (String.ofList q.write)
  | .byteKeyed [] => .ok (Json.object []).text
  | .byteKeyed _ => .error "key must be a string"

/-- `key=text`, the text percent-encoded. -/
def parameter (key text : String) : String := key ++ "=" ++ Text.Percent.encodeString text

/-- `key=value`, the value as percent-encoded JSON. -/
def encodeParameter (key : String) (value : ParameterValue) : Except QueryError String :=
  match value.text with
  | .ok text => .ok (parameter key text)
  | .error reason => .error (.unencodable (key ++ ": " ++ reason))

/-- The query and the ordering of a request. -/
structure Parameters where
  version : ApiVersion
  query : Option Query := none
  order : List OrderBy := []

namespace Parameters

/-- The parameters in writing, one by one; an empty ordering is none. -/
def parts (p : Parameters) : List String :=
  (match p.query with
    | some q => [parameter "query" (String.ofList q.write)]
    | none => []) ++
  (match p.order with
    | [] => []
    | order => [parameter p.version.orderParameter (OrderBy.listToJson order).text])

/-- The parameters in writing, joined by `&`. -/
def encode (p : Parameters) : String := "&".intercalate p.parts

/-- An endpoint with the parameters behind it. -/
def path (p : Parameters) (endpoint : String) : String :=
  let encoded := p.encode
  if encoded = "" then endpoint else endpoint ++ "?" ++ encoded

end Parameters

end NodeInventory
