import NodeInventory.Client
import NodeInventory.Proofs.Json.Records
import NodeInventory.Proofs.Json.RoundTrip
import NodeInventory.Proofs.Listing.Resources
import NodeInventory.Proofs.Paging.Run

/-!
# The records of resources

An inventory of resources has a record for each row that the store serves.  The row is decoded into
a resource and this is written again; between the two, the record keeps the columns of the row as
they were served.

* `Resource.Row` : a row as a store serves it, its columns in any order and among other fields;
* `Resource.Row.toJson_resource` : what is written of the resource is the record of the row;
* `Resource.Row.decoder_eq` : what is read of the row is the resource;
* `InventorySource.records_exact` : the records of an inventory are those of the rows of all pages.
-/

namespace NodeInventory

namespace Resource

open Json (field?)

/-- A row of the listing of resources as a store serves it.  No column is repeated, and those behind
the title may be missing. -/
structure Row where
  /-- All that is served, in its order. -/
  fields : List (String × Json)
  certname : String
  kind : String
  title : String
  exported : Option Bool
  environment : Option (Option String)
  nodup_columns : ((fields.map (·.1)).filter fun name => columns.contains name).Nodup
  field?_certname : field? "certname" fields = some (.string certname)
  field?_type : field? "type" fields = some (.string kind)
  field?_title : field? "title" fields = some (.string title)
  field?_exported : field? "exported" fields = exported.map .bool
  field?_environment : field? "environment" fields = environment.map orNull

theorem nullable_of_orNull {room : ℕ} {w : Json.Written} {x : Option String}
    (h : w.value? room = some (orNull x)) : Json.Decoder.nullable .text room w = some x := by
  cases x with
  | none => exact Json.Decoder.nullable_of_null h _
  | some s => exact Json.Decoder.nullable_of_ne_null h nofun (Json.Decoder.text_of_value? h)

namespace Row

/-- What is served in a column, repeated fields within it merged.  A flag that is missing is
`false`, and another column `null`. -/
def value (row : Row) (column : String) : Json :=
  ((field? column row.fields).map Json.mergeKeys).getD
    (if column = "exported" then .bool false else .null)

/-- The columns of the row, in their order, and nothing else. -/
def record (row : Row) : Json := .object (columns.map fun column => (column, row.value column))

/-- The resource in the row. -/
def resource (row : Row) : Resource :=
  ⟨row.certname, row.kind, row.title, row.exported.getD false, row.value "parameters",
    row.environment.getD none⟩

/-- What is written of the resource is the record of the row. -/
theorem toJson_resource (row : Row) : row.resource.toJson = row.record := by
  have hexported : row.value "exported" = .bool (row.exported.getD false) := by
    rw [value, row.field?_exported]
    cases row.exported <;> rfl
  have henvironment : row.value "environment" = orNull (row.environment.getD none) := by
    rw [value, row.field?_environment]
    rcases row.environment with _ | _ | _ <;> rfl
  have htext : ∀ column s, field? column row.fields = some (.string s) →
      row.value column = .string s := by
    intro column s h
    rw [value, h]
    rfl
  simp only [record, columns, List.map_cons, List.map_nil, htext _ _ row.field?_certname,
    htext _ _ row.field?_type, htext _ _ row.field?_title, hexported, henvironment]
  rfl

/-- What is read of the row is the resource. -/
theorem decoder_eq (row : Row) {room : ℕ} {w : Json.Written}
    (h : w.value? (room + 1) = some (.object row.fields)) :
    decoder (room + 1) w = some row.resource := by
  obtain ⟨ws, rfl, hfields⟩ := Json.Written.exists_object_of_value? h
  refine Json.Decoder.record_eq_some hfields row.nodup_columns ?_ fun present hshows => ?_
  · intro name hname
    simp only [List.mem_cons, List.not_mem_nil, or_false] at hname
    rcases hname with rfl | rfl | rfl
    · exact Json.Decoder.mem_of_field?_eq_some row.field?_certname
    · exact Json.Decoder.mem_of_field?_eq_some row.field?_type
    · exact Json.Decoder.mem_of_field?_eq_some row.field?_title
  · have hcertname : present.get "certname" .text = some row.certname :=
      hshows.get_eq (by decide) row.field?_certname fun _ => Json.Decoder.text_of_value?
    have hkind : present.get "type" .text = some row.kind :=
      hshows.get_eq (by decide) row.field?_type fun _ => Json.Decoder.text_of_value?
    have htitle : present.get "title" .text = some row.title :=
      hshows.get_eq (by decide) row.field?_title fun _ => Json.Decoder.text_of_value?
    have hexported : present.getD "exported" false .flag =
        some ((row.exported.map id).getD false) :=
      hshows.getD_eq (by decide) row.field?_exported _ fun _ _ => Json.Decoder.flag_of_value?
    have hparameters : present.getD "parameters" .null .value = some (row.value "parameters") :=
      hshows.getD_eq (by decide) Option.map_id'.symm _ fun _ _ => Json.Decoder.value_of_value?
    have henvironment : present.getD "environment" none (.nullable .text) =
        some ((row.environment.map id).getD none) :=
      hshows.getD_eq (by decide) row.field?_environment _ fun _ _ => nullable_of_orNull
    simp [hcertname, hkind, htitle, hexported, hparameters, henvironment, resource]

theorem run_list_eq {rows : List Row} {body : String}
    (h : Json.Writes body (.array (rows.map fun row => .object row.fields))) :
    (Json.Decoder.list decoder).run body = some (rows.map resource) :=
  Json.Decoder.run_list_of_writes h fun row _ => row.decoder_eq

end Row

end Resource

/-! ### The records of all pages -/

namespace Client

/-- The path of the resources of a type. -/
def kindPath (c : Client) (key : String) : String :=
  (c.resourceParameters (.ofKind key none)).path "resources"

/-- The reply to the request for page `k` of the resources of a type lists rows. -/
def ServesRows (c : Client) (key : String) (answers : List Answer) (k : ℕ)
    (rows : List Resource.Row) : Prop :=
  ∃ body, Paging.pageReply (c.kindPath key) (max c.pageSize 1) answers k = .ok body ∧
    Json.Writes body (.array (rows.map fun row => .object row.fields))

theorem ServesRows.arrives {c : Client} {key : String} {answers : List Answer} {k : ℕ}
    {rows : List Resource.Row} (h : c.ServesRows key answers k rows) :
    Paging.Arrives Resource.decoder (c.kindPath key) (max c.pageSize 1) answers k
      (rows.map Resource.Row.resource) := by
  obtain ⟨body, hreply, hwrites⟩ := h
  exact ⟨body, hreply, Resource.Row.run_list_eq hwrites⟩

theorem resourcesOfKind_of_servesRows {c : Client} {key : String} {answers : List Answer}
    {pages : List (List Resource.Row)} {last : List Resource.Row}
    (hpages : ∀ k (h : k < pages.length),
      c.ServesRows key answers k pages[k] ∧ max c.pageSize 1 ≤ pages[k].length)
    (hlast : c.ServesRows key answers pages.length last)
    (hshort : last.length < max c.pageSize 1) :
    c.resourcesOfKind key none answers =
      ⟨(List.range (pages.length + 1)).map
          (Paging.pageRequest (c.kindPath key) (max c.pageSize 1)),
        .ok ((pages.flatten ++ last).map Resource.Row.resource),
        answers.drop (pages.length + 1)⟩ := by
  have hfull : Paging.FullPages Resource.decoder (c.kindPath key) (max c.pageSize 1) answers
      (pages.map fun rows => rows.map Resource.Row.resource) := by
    intro k hk
    obtain ⟨hserves, hsize⟩ := hpages k (by simpa using hk)
    simpa using And.intro hserves.arrives hsize
  have hrun := Paging.fetchAll_of_short hfull (by simpa using hlast.arrives) (by simpa using hshort)
  rw [List.length_map, ← List.map_flatten, ← List.map_append] at hrun
  exact hrun

end Client

/-- **An inventory of resources passes the rows through.**  When the store serves rows page by page,
each page full but for the last, the inventory of a type has one record for each row, in the order
of the pages.  Its fields are the columns of the inventory, in their order, with what is served in
them. -/
theorem InventorySource.records_exact (c : Client) (key : String) (answers : List Answer)
    (pages : List (List Resource.Row)) (last : List Resource.Row)
    (hpages : ∀ k (h : k < pages.length),
      c.ServesRows key answers k pages[k] ∧ max c.pageSize 1 ≤ pages[k].length)
    (hlast : c.ServesRows key answers pages.length last)
    (hshort : last.length < max c.pageSize 1) :
    columns c (.resources key) answers = ⟨[], .ok Resource.columns, answers⟩ ∧
    records c (.resources key) answers =
      ⟨(List.range (pages.length + 1)).map
          (Paging.pageRequest (c.kindPath key) (max c.pageSize 1)),
        .ok ((pages.flatten ++ last).map Resource.Row.record),
        answers.drop (pages.length + 1)⟩ := by
  have hrun := Client.resourcesOfKind_of_servesRows hpages hlast hshort
  have hrecords : ((pages.flatten ++ last).map Resource.Row.resource).map Resource.toJson =
      (pages.flatten ++ last).map Resource.Row.record := by
    rw [List.map_map]
    exact List.map_congr_left fun row _ => row.toJson_resource
  have hbind := Exchange.bind_pure_of_ok (List.map Resource.toJson) (congrArg Outcome.result hrun)
  rw [hrun, hrecords] at hbind
  exact ⟨rfl, hbind⟩

/-- An exported row, its columns in another order and with a field that no column is for. -/
def nagiosRow : Resource.Row :=
  ⟨[("tags", .array ["web"]), ("title", "web1"), ("exported", .bool true),
      ("parameters", .object [("address", "10.0.0.1")]), ("type", "Nagios_host"),
      ("certname", "web1")],
    "web1", "Nagios_host", "web1", some true, none, by decide, rfl, rfl, rfl, rfl, rfl⟩

/-- A row with the columns that may not be missing. -/
def bareRow : Resource.Row :=
  ⟨[("certname", "web2"), ("type", "Nagios_host"), ("title", "web2")],
    "web2", "Nagios_host", "web2", none, none, by decide, rfl, rfl, rfl, rfl, rfl⟩

/-- The answers that serve these two, with one row to a page. -/
def nagiosAnswers : List Answer :=
  [[nagiosRow], [bareRow], []].map fun rows _ =>
    .ok (Json.array (rows.map fun row => .object row.fields)).text

/-- The records have the six columns in their order, those that were missing with their defaults,
and no tags. -/
theorem InventorySource.records_exact_nagios :
    (∀ k, (h : k < [[nagiosRow], [bareRow]].length) →
      Client.ServesRows ⟨.v4, 1⟩ "@@Nagios_host" nagiosAnswers k [[nagiosRow], [bareRow]][k] ∧
        max 1 1 ≤ [[nagiosRow], [bareRow]][k].length) ∧
    Client.ServesRows ⟨.v4, 1⟩ "@@Nagios_host" nagiosAnswers 2 [] ∧
    (records ⟨.v4, 1⟩ (.resources "@@Nagios_host") nagiosAnswers).result = .ok
      [.object [("certname", "web1"), ("type", "Nagios_host"), ("title", "web1"),
        ("exported", .bool true), ("parameters", .object [("address", "10.0.0.1")]),
        ("environment", .null)],
       .object [("certname", "web2"), ("type", "Nagios_host"), ("title", "web2"),
        ("exported", .bool false), ("parameters", .null), ("environment", .null)]] := by
  have hpages : ∀ k, (h : k < [[nagiosRow], [bareRow]].length) →
      Client.ServesRows ⟨.v4, 1⟩ "@@Nagios_host" nagiosAnswers k [[nagiosRow], [bareRow]][k] ∧
        max 1 1 ≤ [[nagiosRow], [bareRow]][k].length := by
    intro k hk
    obtain rfl | rfl : k = 0 ∨ k = 1 := by
      change k < 2 at hk
      omega
    · exact ⟨⟨_, rfl, Json.exists_parse_text nofun (by decide)⟩, le_refl 1⟩
    · exact ⟨⟨_, rfl, Json.exists_parse_text nofun (by decide)⟩, le_refl 1⟩
  have hlast : Client.ServesRows ⟨.v4, 1⟩ "@@Nagios_host" nagiosAnswers 2 [] :=
    ⟨_, rfl, Json.exists_parse_text nofun (by decide)⟩
  refine ⟨hpages, hlast, ?_⟩
  have hrecords := records_exact ⟨.v4, 1⟩ "@@Nagios_host" nagiosAnswers [[nagiosRow], [bareRow]] []
    hpages hlast (by decide)
  rw [hrecords.2]
  rfl

end NodeInventory
