import NodeInventory.Exchange
import NodeInventory.Protocol
import NodeInventory.Query
import NodeInventory.Rows
import NodeInventory.Text

/-!
# The client

The listings of a store (`Client`), the inventory that joins them (`InventorySource`), and the one
command to the store (`Command`).
-/

namespace NodeInventory

/-!
## Reading from the store

A `Client` reads the listings of a store that speaks one version of the API. What a version cannot
answer is empty, and no request is made for it.
-/

/-- A reader of the store. -/
structure Client where
  version : ApiVersion
  /-- The number of rows in a page. -/
  pageSize : Nat := Paging.defaultStep

namespace Client

/-- All rows of an endpoint that a query selects, in an ordering. -/
def rows {α : Type} (c : Client) (d : Json.Decoder α) (endpoint : String) (query : Option Query)
    (order : List OrderBy) : Exchange (List α) :=
  Paging.fetchAll d c.pageSize (Parameters.path ⟨c.version, query, order⟩ endpoint)

/-- The names of all facts. -/
def factNames (c : Client) : Exchange (List String) :=
  if c.version.supportsFactNames then do
    .ofExcept (decodeBody (.list .text) "fact-names" (← Exchange.get "fact-names"))
  else .pure []

/-- The query for the resources that make a host a member of a class. -/
def classQuery : Query := .comparison "=" "type" "Class"

/-- The classes of the hosts, both in ascending order. -/
def classes (c : Client) : Exchange HostClasses := do
  let order := [OrderBy.ascending "certname", OrderBy.ascending "title"]
  return HostClasses.ofMemberships (← c.rows Membership.decoder "resources" (some classQuery) order)

/-- The facts that a filter admits. -/
def facts (c : Client) (filter : Option Filter) : Exchange HostFacts := do
  let query := (effectiveFilter filter).map Filter.compile
  let order := [OrderBy.ascending "certname", OrderBy.ascending "name"]
  return HostFacts.ofFacts (← c.rows Fact.decoder "facts" query order)

/-- The resources of a selection. -/
def resources (c : Client) (selection : Selection) : Exchange (List Resource) :=
  c.rows Resource.decoder "resources" (selection.query c.version) selection.order

/-- The resources of a type, such as `File` or `@@File`, that a filter admits. -/
def resourcesOfKind (c : Client) (key : String) (filter : Option Filter) :
    Exchange (List Resource) :=
  c.resources (.ofKind key filter)

/-- The path of the listing of types. -/
def typesPath (c : Client) : String :=
  Parameters.path ⟨c.version, some TypeCount.query, TypeCount.order⟩ "resources"

/-- The labels of all types of resources. -/
def resourceTypes (c : Client) : Exchange (List (String × String)) :=
  if c.version.supportsAggregation then do
    let body ← Exchange.get c.typesPath
    return TypeCount.labels (← .ofExcept (decodeBody (.list TypeCount.decoder) c.typesPath body))
  else .pure []

end Client

/-!
## The inventory

* `HostRecord` is a host with its classes and its facts, without the facts that are never the same
  twice. `Client.inventory` lists the records of all hosts that have facts, in ascending order.
* An `InventorySource` is what an inventory lists: hosts, or the resources of a type. It has
  columns, and its records are JSON objects with these fields.
-/

/-- A host with its classes and its facts. -/
structure HostRecord where
  certname : String
  classes : List String
  facts : List (String × Json)

namespace HostRecord

/-- The JSON form. -/
def toJson (r : HostRecord) : Json :=
  .object [("certname", r.certname), ("classes", .array (r.classes.map .string)),
    ("facts", .object r.facts)]

/-- What the name of a fact contains that is never the same twice. -/
def volatileWords : List String := ["memoryfree", "swapfree", "uptime"]

/-- A word stands somewhere in a text. -/
def occursIn (word : List Char) : List Char → Bool
  | [] => word.isEmpty
  | c :: s => word.isPrefixOf (c :: s) || occursIn word s

/-- A fact that is never the same twice. -/
def isVolatile (name : String) : Bool :=
  volatileWords.any fun word => occursIn word.toList name.toList

/-- The record of a host from its classes and its facts. -/
def assemble (classes : List String) (host : String × List (String × Json)) : HostRecord :=
  ⟨host.1, classes, host.2.filter fun fact => !isVolatile fact.1⟩

/-- The records of hosts. The classes of each are taken out of the table when it has its turn; a
host that is not in the table has none. -/
def assembleAll : HostClasses → HostFacts → List HostRecord
  | _, [] => []
  | classes, host :: hosts =>
    let (titles, rest) := HostClasses.takeOut host.1 classes
    assemble (titles.getD []) host :: assembleAll rest hosts

end HostRecord

/-- The records of all hosts that have facts. -/
def Client.inventory (c : Client) : Exchange (List HostRecord) := do
  let classes ← c.classes
  let facts ← c.facts none
  return HostRecord.assembleAll classes facts

/-- The columns of the records of hosts, with one for each fact. -/
def Client.hostColumns (c : Client) : Exchange (List String) := do
  let names ← c.factNames
  return ["certname", "classes", "facts"] ++ names.map ("facts." ++ ·)

/-- What an inventory lists. -/
inductive InventorySource where
  | hosts
  /-- The resources of a type such as `File` or `@@File`. -/
  | resources (kind : String)
deriving DecidableEq, Repr

namespace InventorySource

/-- The columns of the records. -/
def columns (c : Client) : InventorySource → Exchange (List String)
  | hosts => c.hostColumns
  | resources _ => .pure Resource.columns

/-- The records as JSON. -/
def records (c : Client) : InventorySource → Exchange (List Json)
  | hosts => do return (← c.inventory).map HostRecord.toJson
  | resources kind => do return (← c.resourcesOfKind kind none).map Resource.toJson

end InventorySource

/-!
## Commands to the store

`deactivate` tells the store that a node is no more. Only some versions take commands.
-/

namespace Command

/-- The version of the form of a deactivation. -/
def deactivationForm : Nat := 3

/-- The path of the deactivation of a node, behind that of the command endpoint. -/
def deactivationPath (node : String) : String :=
  s!"?certname={Text.Percent.encodeString node}&command=deactivate_node&version={deactivationForm}"

/-- What the deactivation of a node carries; `date` is the day on which it is sent. -/
def deactivationBody (node date : String) : Json :=
  .object [("certname", node), ("producer_timestamp", date)]

/-- Deactivates a node. The result is the receipt of the store. -/
def deactivate (node date : String) : Exchange String :=
  .post (deactivationPath node) (deactivationBody node date)

/-- The path of the command endpoint, if the version has one. -/
def endpoint (version : ApiVersion) : Except ClientError String :=
  match version.commandPath? with
  | some path => .ok path
  | none =>
    .error (.configuration s!"PuppetDB API version {version.token} has no command endpoint")

end Command

end NodeInventory
