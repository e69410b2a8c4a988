import NodeInventory.Json.Reader
import NodeInventory.Protocol
import NodeInventory.Query

/-!
# The rows of the store

Facts, classes and resources as rows of their listings, and the tables and queries that are made of
them.
-/

namespace NodeInventory

/-!
## Facts of hosts

* `Fact` is a row of the listing of facts: what one host reported under one name.
* `Fact.unwrap` undoes the encoding of structured values as strings.
* `HostFacts.ofFacts` makes a table of facts: the hosts in ascending order, the facts of a host in
  the order in which they first came, each with the value that came last.
-/

/-- A fact of a host. -/
structure Fact where
  certname : String
  name : String
  value : Json
  environment : Option String

namespace Fact

/-- Reads a fact; the environment may be missing. -/
def decoder : Json.Decoder Fact :=
  .record ⟨["certname", "name", "value"], ["environment"]⟩ fun fields => do
    return ⟨← fields.get "certname" .text, ← fields.get "name" .text, ← fields.get "value" .value,
      ← fields.getD "environment" none (.nullable .text)⟩

/-! ### Values in strings -/

/-- The marks that enclose structured values and strings in JSON. -/
def jsonMarks : List (Char × Char) := [('{', '}'), ('[', ']'), ('"', '"')]

/-- A text that begins and ends with a pair of marks. -/
def isWrapped (s : List Char) : Bool :=
  2 ≤ s.length && jsonMarks.any fun (left, right) => s.head? = some left && s.getLast? = some right

/-- The value of a string that holds JSON between marks is what it holds; any other value stays. -/
def unwrap : Json → Json
  | .string s => if isWrapped s.toList then (Json.parse s).getD (.string s) else .string s
  | v => v

end Fact

/-! ### Tables -/

/-- The facts of each host. -/
abbrev HostFacts := List (String × List (String × Json))

namespace HostFacts

/-- Sets a fact of a host; a new host takes its place in the order. -/
def set (host name : String) (value : Json) : HostFacts → HostFacts
  | [] => [(host, [(name, value)])]
  | (h, facts) :: hosts =>
    if h = host then (h, Json.setField name value facts) :: hosts
    else if host < h then (host, [(name, value)]) :: (h, facts) :: hosts
    else (h, facts) :: set host name value hosts

/-- The table of the facts in a listing. -/
def ofFacts (rows : List Fact) : HostFacts :=
  rows.foldl (fun hosts row => set row.certname row.name (Fact.unwrap row.value) hosts) []

end HostFacts

/-!
## Classes of hosts

* `Membership` is a row of the listing of classes: one host has one class.
* `HostClasses.ofMemberships` makes a table of classes: hosts in the order in which they first came,
  the classes of a host in the order in which they came.
* `HostClasses.takeOut` takes one host out of a table.
-/

/-- A host has a class. -/
structure Membership where
  certname : String
  title : String
deriving DecidableEq, Repr

/-- Reads a membership. -/
def Membership.decoder : Json.Decoder Membership :=
  .record ⟨["certname", "title"], []⟩ fun fields => do
    return ⟨← fields.get "certname" .text, ← fields.get "title" .text⟩

/-- The classes of each host. -/
abbrev HostClasses := List (String × List String)

namespace HostClasses

/-- Adds a class to a host; a new host comes last. -/
def add (host title : String) : HostClasses → HostClasses
  | [] => [(host, [title])]
  | (h, titles) :: hosts =>
    if h = host then (h, titles ++ [title]) :: hosts else (h, titles) :: add host title hosts

/-- The table of the memberships in a listing. -/
def ofMemberships (rows : List Membership) : HostClasses :=
  rows.foldl (fun hosts row => add row.certname row.title hosts) []

/-- The classes of a host; none for a host that is not in the table. -/
def titles (host : String) (hosts : HostClasses) : List String :=
  match hosts.find? fun h => h.1 = host with
  | some (_, titles) => titles
  | none => []

/-- Takes a host out of a table: its classes, if it is there, and the table without it, in which the
last host has come into its place. -/
def takeOut (host : String) (hosts : HostClasses) : Option (List String) × HostClasses :=
  match hosts.findIdx? (fun h => h.1 = host), hosts.getLast? with
  | some i, some last => (hosts[i]?.map (·.2), (hosts.set i last).dropLast)
  | _, _ => (none, hosts)

end HostClasses

/-!
## Resources

`Resource` is a row of the listing of resources. Its JSON form has the columns `Resource.columns`,
in that order; when it is read, all but the first three may be missing.
-/

/-- A resource on a host. -/
structure Resource where
  certname : String
  kind : String
  title : String
  /-- Whether other hosts can collect the resource. -/
  exported : Bool
  parameters : Json
  environment : Option String

namespace Resource

/-- The columns of a listing of resources. -/
def columns : List String :=
  ["certname", "type", "title", "exported", "parameters", "environment"]

/-- A value that may be absent; `null` is in its place. -/
def orNull : Option String → Json
  | some s => s
  | none => .null

/-- The JSON form. -/
def toJson (r : Resource) : Json :=
  .object [("certname", r.certname), ("type", r.kind), ("title", r.title),
    ("exported", .bool r.exported), ("parameters", r.parameters),
    ("environment", orNull r.environment)]

/-- Reads the JSON form. -/
def decoder : Json.Decoder Resource :=
  .record ⟨["certname", "type", "title"], ["exported", "parameters", "environment"]⟩
    fun fields => do
      return ⟨← fields.get "certname" .text, ← fields.get "type" .text, ← fields.get "title" .text,
        ← fields.getD "exported" false .flag, ← fields.getD "parameters" .null .value,
        ← fields.getD "environment" none (.nullable .text)⟩

end Resource

/-!
## Selecting resources

A `Selection` says which resources a listing has: those that a filter admits, and of these all, or
only those that are or are not exported.

* `Selection.query` is the query for it, `Selection.order` the ordering of the listing. A column
  whose value is fixed by the selection is left out of the ordering.
* `splitKind` reads `@@File` as the exported resources of type `File`, and `Selection.ofKind`
  selects them.
-/

/-- A selection of resources. -/
structure Selection where
  filter : Option Filter
  exported : Option Bool

/-- The filter, unless it is absent or empty. -/
def effectiveFilter (filter : Option Filter) : Option Filter := filter.filter fun f => !f.isEmpty

namespace Selection

/-- The condition that selects the rows; `none` if nothing restricts them. -/
def condition (s : Selection) : Option Query :=
  let exported := s.exported.map fun flag => Query.comparison "=" "exported" (.bool flag)
  let filter := (effectiveFilter s.filter).map Filter.compile
  match exported, filter with
  | some exported, some filter => some (.and exported filter)
  | some exported, none => some exported
  | none, filter => filter

/-- The query: the condition, and the columns where the version wants them listed. -/
def query (s : Selection) (version : ApiVersion) : Option Query :=
  s.condition.map fun condition =>
    if version.requiresExtract then .extract Resource.columns condition else condition

/-- The filter fixes the type. -/
def pinsKind (s : Selection) : Bool :=
  match s.filter with
  | some filter => filter.pins "type"
  | none => false

/-- The ordering: exported resources first, then by type, then by title. -/
def order (s : Selection) : List OrderBy :=
  (match s.exported with
    | none => [.descending "exported"]
    | some _ => []) ++
  (if s.pinsKind then [] else [.ascending "type"]) ++
  [.ascending "title"]

end Selection

/-! ### Types as keys -/

/-- What marks a type as that of exported resources. -/
def exportedMark : String := "@@"

/-- The type and whether the mark of exported resources stands before it. -/
def splitKind (key : String) : String × Bool :=
  match key.toList with
  | '@' :: '@' :: bare => (String.ofList bare, true)
  | _ => (key, false)

/-- The resources of a type that a filter admits, exported ones or not as the mark says. -/
def Selection.ofKind (key : String) (filter : Option Filter) : Selection :=
  let (kind, exported) := splitKind key
  let ofKind := Filter.equals "type" kind
  let filter := match effectiveFilter filter with
    | some filter => filter.andWith ofKind
    | none => ofKind
  ⟨some filter, some exported⟩

/-!
## Types of resources

`TypeCount` is a row of the listing of types: so many resources of a type are or are not exported.

* `TypeCount.query` asks the store to count them, `TypeCount.order` puts the exported ones first.
* `TypeCount.labels` maps the key of each row, such as `@@File`, to its label, such as `@@File (3)`.
-/

/-- The number of resources of a type that are, or are not, exported. -/
structure TypeCount where
  kind : String
  exported : Bool
  count : Nat
deriving DecidableEq, Repr

namespace TypeCount

/-- Reads a count. -/
def decoder : Json.Decoder TypeCount :=
  .record ⟨["type", "exported", "count"], []⟩ fun fields => do
    return ⟨← fields.get "type" .text, ← fields.get "exported" .flag, ← fields.get "count" .count⟩

/-- The type, with the mark of exported resources before it if they are exported. -/
def key (c : TypeCount) : String := if c.exported then exportedMark ++ c.kind else c.kind

/-- The key and the number. -/
def label (c : TypeCount) : String := s!"{c.key} ({c.count})"

/-- The query that counts the resources of every type that has a name. -/
def query : Query :=
  .op "extract" [
    .atom (.array [.array ["function", "count"], "type", "exported"]),
    .comparison "~" "type" ".",
    .atom (.array ["group_by", "type", "exported"])]

/-- The exported types first, then by type. -/
def order : List OrderBy := [.descending "exported", .ascending "type"]

/-- The labels by their keys, in the order of the rows. -/
def labels (counts : List TypeCount) : List (String × String) :=
  Json.mergeFields (counts.map fun c => (c.key, c.label))

end TypeCount

end NodeInventory
