import NodeInventory.Proofs.Tables.Facts
import NodeInventory.Proofs.Text.Utf8
import Std.Data.HashMap.Lemmas

/-!
# Facts host by host

The rows of a listing may come in any order of their hosts.  The table of facts depends on the rows
of each host alone, in their order, and what it has can be said without setting one fact after
another (`HostFacts.IsAssembled`).

* `HostFacts.mem_ofFacts_iff` : the entry of a host, made of its own rows;
* `HostFacts.ofFacts_eq_iff_isAssembled` : the table is the one that has hosts, names and values as
  the rows have them, and there is only one;
* `HostFacts.getElem?_gather` : what a table without an order has for a host;
* `HostFacts.ofFacts_host_by_host` : all of this, and that neither the order of the hosts in a
  listing nor that of an unordered table can be told from the table of facts.
-/

namespace NodeInventory

namespace HostFacts

/-- The rows of one host. -/
def rowsOf (host : String) (rows : List Fact) : List Fact :=
  rows.filter fun row => row.certname = host

/-- A row as a fact of its host. -/
def field (row : Fact) : String × Json := (row.name, Fact.unwrap row.value)

theorem rowsOf_ne_nil_iff {rows : List Fact} {host : String} :
    rowsOf host rows ≠ [] ↔ ∃ row ∈ rows, row.certname = host := by
  simp [rowsOf, List.filter_eq_nil_iff]

theorem rowsOf_concat (host : String) (rows : List Fact) (row : Fact) :
    rowsOf host (rows ++ [row]) =
      if row.certname = host then rowsOf host rows ++ [row] else rowsOf host rows := by
  by_cases hrow : row.certname = host <;> simp [rowsOf, hrow]

/-! ### What a table has -/

/-- The last row of a name. -/
def lastRow? (name : String) (rows : List Fact) : Option Fact :=
  (rows.filter fun row => row.name = name).getLast?

theorem lastValue?_map_field (name : String) (rows : List Fact) :
    Json.lastValue? name (rows.map field) =
      (lastRow? name rows).map fun row => Fact.unwrap row.value := by
  rw [Json.lastValue?, List.filter_map, List.getLast?_map, Option.map_map]
  rfl

/-- The table has the hosts of the rows, in strictly ascending order of their bytes.  Each host has
the names of its own rows, in the order in which they first come, and each name the value of the
last of these rows with it. -/
structure IsAssembled (rows : List Fact) (table : HostFacts) : Prop where
  hosts_ascending : (hosts table).Pairwise fun g h =>
    Text.Utf8.encode g.toList < Text.Utf8.encode h.toList
  mem_hosts : ∀ host, host ∈ hosts table ↔ ∃ row ∈ rows, row.certname = host
  names_eq : ∀ entry ∈ table,
    entry.2.map (·.1) = ((rowsOf entry.1 rows).map (·.name)).eraseDups
  value_eq : ∀ entry ∈ table, ∀ fact ∈ entry.2,
    ∃ row, lastRow? fact.1 (rowsOf entry.1 rows) = some row ∧ fact.2 = Fact.unwrap row.value

theorem eq_mergeFields_map_field_iff {facts : List (String × Json)} {rows : List Fact} :
    facts = Json.mergeFields (rows.map field) ↔
      facts.map (·.1) = (rows.map (·.name)).eraseDups ∧
        ∀ fact ∈ facts, ∃ row, lastRow? fact.1 rows = some row ∧ fact.2 = Fact.unwrap row.value := by
  rw [Json.eq_mergeFields_iff, List.map_map]
  refine and_congr Iff.rfl (forall₂_congr fun fact _ => ?_)
  rw [lastValue?_map_field, Option.map_eq_some_iff]
  exact exists_congr fun row => and_congr_right fun _ => eq_comm

theorem mem_ofFacts_iff {rows : List Fact} {host : String} {facts : List (String × Json)} :
    (host, facts) ∈ ofFacts rows ↔
      rowsOf host rows ≠ [] ∧ facts = Json.mergeFields ((rowsOf host rows).map field) := by
  rw [rowsOf_ne_nil_iff, ← mem_hosts_ofFacts]
  have hfacts := factsOf_ofFacts rows host
  constructor
  · intro hmem
    refine ⟨List.mem_map.2 ⟨_, hmem, rfl⟩, ?_⟩
    rw [← factsOf_of_mem (nodup_hosts_ofFacts rows) hmem, hfacts]
    rfl
  · rintro ⟨hhost, rfl⟩
    obtain ⟨⟨_, facts⟩, hmem, rfl⟩ := List.mem_map.1 hhost
    rw [factsOf_of_mem (nodup_hosts_ofFacts rows) hmem] at hfacts
    rw [hfacts] at hmem
    exact hmem

theorem isAssembled_ofFacts (rows : List Fact) : IsAssembled rows (ofFacts rows) where
  hosts_ascending := (hosts_ofFacts_ascending rows).imp fun hlt =>
    Text.Utf8.encode_lt_encode (String.lt_iff_toList_lt.1 hlt)
  mem_hosts _ := mem_hosts_ofFacts
  names_eq _ hentry := (eq_mergeFields_map_field_iff.1 (mem_ofFacts_iff.1 hentry).2).1
  value_eq _ hentry := (eq_mergeFields_map_field_iff.1 (mem_ofFacts_iff.1 hentry).2).2

theorem eq_map_of_forall {table : HostFacts} (facts : String → List (String × Json))
    (h : ∀ entry ∈ table, entry.2 = facts entry.1) :
    table = (hosts table).map fun host => (host, facts host) := by
  rw [hosts, List.map_map]
  refine (List.map_id table).symm.trans (List.map_congr_left fun entry hentry => ?_)
  exact Prod.ext rfl (h entry hentry)

/-- The table of facts is the one that is assembled of the rows. -/
theorem ofFacts_eq_iff_isAssembled {rows : List Fact} {table : HostFacts} :
    ofFacts rows = table ↔ IsAssembled rows table := by
  constructor
  · rintro rfl
    exact isAssembled_ofFacts rows
  · intro h
    have hhosts : hosts table = hosts (ofFacts rows) :=
      Text.Utf8.eq_of_ascending h.hosts_ascending (hosts_ofFacts_ascending rows) fun host => by
        rw [h.mem_hosts, mem_hosts_ofFacts]
    let facts (host : String) := Json.mergeFields ((rowsOf host rows).map field)
    have htable := eq_map_of_forall facts fun entry hentry =>
      eq_mergeFields_map_field_iff.2 ⟨h.names_eq entry hentry, h.value_eq entry hentry⟩
    have hofFacts := eq_map_of_forall facts fun entry (hentry : entry ∈ ofFacts rows) =>
      (mem_ofFacts_iff.1 hentry).2
    rw [htable, hhosts, ← hofFacts]

/-! ### Tables without an order -/

/-- The facts of each host, set one after another in a table that has no order of its hosts. -/
def gather (rows : List Fact) : Std.HashMap String (List (String × Json)) :=
  rows.foldl (fun table row => table.insert row.certname
    (Json.setField row.name (Fact.unwrap row.value) (table.getD row.certname []))) ∅

theorem gather_concat (rows : List Fact) (row : Fact) :
    gather (rows ++ [row]) = (gather rows).insert row.certname
      (Json.setField row.name (Fact.unwrap row.value) ((gather rows).getD row.certname [])) := by
  rw [gather, List.foldl_append]
  rfl

/-- A host that has rows has the facts that these make. -/
theorem getElem?_gather (rows : List Fact) (host : String) :
    (gather rows)[host]? = if rowsOf host rows = [] then none
      else some (Json.mergeFields ((rowsOf host rows).map field)) := by
  induction rows using List.reverseRecOn generalizing host with
  | nil => simp [gather, rowsOf]
  | append_singleton rows row ih =>
    have hold : (gather rows).getD row.certname [] =
        Json.mergeFields ((rowsOf row.certname rows).map field) := by
      rw [Std.HashMap.getD_eq_getD_getElem?, ih]
      split
      · next hrows => rw [hrows]; rfl
      · rfl
    rw [gather_concat, Std.HashMap.getElem?_insert, rowsOf_concat, hold, ih]
    by_cases hrow : row.certname = host
    · subst hrow
      simp [Json.mergeFields_concat, field]
    · simp [hrow]

theorem ofFacts_perm_gather (rows : List Fact) : (ofFacts rows).Perm (gather rows).toList := by
  have hnodup : (gather rows).toList.Nodup :=
    Std.HashMap.distinct_keys_toList.imp fun hne heq => by simp [heq] at hne
  refine (List.perm_ext_iff_of_nodup (nodup_hosts_ofFacts rows).of_map hnodup).2 ?_
  rintro ⟨host, facts⟩
  rw [mem_ofFacts_iff, Std.HashMap.mem_toList_iff_getElem?_eq_some, getElem?_gather]
  split
  · next hrows => simp [hrows]
  · next hrows => simp [hrows, eq_comm]

/-! ### Host by host -/

/-- **Facts are assembled host by host.**  The table of facts is the only one that has the hosts,
names and values of the rows as these have them.  Its entries are those of a table without an order,
in the order of the hosts; and it is the same for all listings that have the same rows of each host
in the same order. -/
theorem ofFacts_host_by_host (rows : List Fact) :
    (∀ table, ofFacts rows = table ↔ IsAssembled rows table) ∧
      (ofFacts rows).Perm (gather rows).toList ∧
      ∀ rows', (∀ host, rowsOf host rows = rowsOf host rows') → ofFacts rows = ofFacts rows' := by
  refine ⟨fun table => ofFacts_eq_iff_isAssembled, ofFacts_perm_gather rows, fun rows' h => ?_⟩
  have hrows' := isAssembled_ofFacts rows'
  refine ofFacts_eq_iff_isAssembled.2 ⟨hrows'.hosts_ascending, fun host => ?_,
    fun entry hentry => ?_, fun entry hentry => ?_⟩
  · rw [hrows'.mem_hosts, ← rowsOf_ne_nil_iff, ← rowsOf_ne_nil_iff, h]
  · rw [h, hrows'.names_eq entry hentry]
  · rw [h]
    exact hrows'.value_eq entry hentry

/-- Two hosts whose rows are mixed in two ways; one fact comes twice. -/
theorem ofFacts_host_by_host_mixed :
    (∀ host, rowsOf host [⟨"web1", "kernel", "Linux", none⟩, ⟨"db1", "disk", "sda", none⟩,
        ⟨"web1", "kernel", "BSD", none⟩] =
      rowsOf host [⟨"db1", "disk", "sda", none⟩, ⟨"web1", "kernel", "Linux", none⟩,
        ⟨"web1", "kernel", "BSD", none⟩]) ∧
    ofFacts [⟨"web1", "kernel", "Linux", none⟩, ⟨"db1", "disk", "sda", none⟩,
        ⟨"web1", "kernel", "BSD", none⟩] =
      ofFacts [⟨"db1", "disk", "sda", none⟩, ⟨"web1", "kernel", "Linux", none⟩,
        ⟨"web1", "kernel", "BSD", none⟩] ∧
    ofFacts [⟨"web1", "kernel", "Linux", none⟩, ⟨"db1", "disk", "sda", none⟩,
        ⟨"web1", "kernel", "BSD", none⟩] =
      [("db1", [("disk", .string "sda")]), ("web1", [("kernel", .string "BSD")])] := by
  have hrows : ∀ host, rowsOf host [⟨"web1", "kernel", "Linux", none⟩, ⟨"db1", "disk", "sda", none⟩,
        ⟨"web1", "kernel", "BSD", none⟩] =
      rowsOf host [⟨"db1", "disk", "sda", none⟩, ⟨"web1", "kernel", "Linux", none⟩,
        ⟨"web1", "kernel", "BSD", none⟩] := by
    intro host
    by_cases hweb : "web1" = host
    · subst hweb
      rfl
    · by_cases hdb : "db1" = host <;> simp [rowsOf, hweb, hdb]
  exact ⟨hrows, (ofFacts_host_by_host _).2.2 _ hrows, by decide⟩

end HostFacts

end NodeInventory
