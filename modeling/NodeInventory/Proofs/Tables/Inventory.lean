import NodeInventory.Client
import NodeInventory.Proofs.Json.Records
import NodeInventory.Proofs.Paging.Run
import NodeInventory.Proofs.Tables.Classes
import NodeInventory.Proofs.Tables.Facts
import NodeInventory.Proofs.Text.Utf8
import Mathlib.Data.List.Infix

/-!
# The inventory

An inventory joins the rows of facts with those of classes: every host that has facts is in it, with
its classes or none, and without the facts that are never the same twice (`HostRecord.IsJoin`).

* `HostRecord.assembleAll_eq_map` : taking one host after another out of the table of classes gives
  each the classes that the table had for it at first, by induction on the hosts;
* `HostRecord.isJoin_iff` : the records are the join, and there is only one;
* `Client.inventory_join` : what an inventory asks for and what it has, whatever the store answers.
-/

namespace NodeInventory

namespace HostRecord

/-! ### Facts that are never the same twice -/

theorem occursIn_iff {word s : List Char} : occursIn word s = true ↔ word <:+: s := by
  induction s with
  | nil => simp [occursIn]
  | cons c s ih =>
    rw [occursIn, Bool.or_eq_true, ih, List.isPrefixOf_iff_prefix, List.infix_cons_iff]

theorem isVolatile_iff {name : String} :
    isVolatile name = true ↔
      ∃ word ∈ ["memoryfree", "swapfree", "uptime"], word.toList <:+: name.toList := by
  simp only [isVolatile, List.any_eq_true, occursIn_iff]
  rfl

/-! ### Taking the classes out of their table -/

theorem assembleAll_cons (table : HostClasses) (host : String × List (String × Json))
    (hosts : HostFacts) :
    assembleAll table (host :: hosts) =
      assemble (HostClasses.titles host.1 table) host ::
        assembleAll (HostClasses.takeOut host.1 table).2 hosts := by
  rw [← HostClasses.getD_takeOut]
  rfl

/-- Each host has the classes that the table has for it before any host is taken out. -/
theorem assembleAll_eq_map {table : HostClasses} {facts : HostFacts}
    (htable : (HostClasses.hosts table).Nodup) (hfacts : (HostFacts.hosts facts).Nodup) :
    assembleAll table facts =
      facts.map fun host => assemble (HostClasses.titles host.1 table) host := by
  induction facts generalizing table with
  | nil => rfl
  | cons host hosts ih =>
    rw [HostFacts.hosts_cons, List.nodup_cons] at hfacts
    rw [assembleAll_cons, ih (HostClasses.nodup_hosts_takeOut htable host.1) hfacts.2, List.map_cons]
    congr 1
    refine List.map_congr_left fun h hh => ?_
    -- no later host is the one that has been taken out
    have hne : h.1 ≠ host.1 := by
      intro heq
      exact hfacts.1 (heq ▸ List.mem_map.2 ⟨h, hh, rfl⟩)
    rw [HostClasses.titles_takeOut htable hne]

/-! ### The join -/

/-- The classes of a host, by the rows of classes. -/
def classesOf (C : List Membership) (host : String) : List String :=
  (C.filter fun row => row.certname = host).map (·.title)

/-- The facts of a host, by the rows of facts: its own ones, one set after another. -/
def factsOf (F : List Fact) (host : String) : List (String × Json) :=
  Json.mergeFields
    ((F.filter fun row => row.certname = host).map fun row => (row.name, Fact.unwrap row.value))

/-- The records join the facts `F` with the classes `C`.  Their hosts are those of the facts, in
strictly ascending order of their bytes.  The classes of each are its titles in the order of the
rows.  Its facts are those that the table of facts has for it, which are made of its own rows, but
for those whose name has a word in it that stands for what is never the same twice. -/
structure IsJoin (C : List Membership) (F : List Fact) (records : List HostRecord) : Prop where
  hosts_ascending : (records.map (·.certname)).Pairwise fun g h =>
    Text.Utf8.encode g.toList < Text.Utf8.encode h.toList
  mem_hosts : ∀ host, host ∈ records.map (·.certname) ↔ ∃ row ∈ F, row.certname = host
  classes_eq : ∀ r ∈ records, r.classes = classesOf C r.certname
  facts_eq : ∀ r ∈ records, (r.certname, factsOf F r.certname) ∈ HostFacts.ofFacts F ∧
    r.facts = (factsOf F r.certname).filter fun fact =>
      ∀ word ∈ ["memoryfree", "swapfree", "uptime"], ¬ word.toList <:+: fact.1.toList

/-- The record that a join has for a host. -/
def joined (C : List Membership) (F : List Fact) (host : String) : HostRecord :=
  ⟨host, classesOf C host, (factsOf F host).filter fun fact =>
    ∀ word ∈ ["memoryfree", "swapfree", "uptime"], ¬ word.toList <:+: fact.1.toList⟩

theorem assemble_eq_joined {C : List Membership} {F : List Fact}
    {host : String × List (String × Json)} (hhost : host ∈ HostFacts.ofFacts F) :
    assemble (HostClasses.titles host.1 (HostClasses.ofMemberships C)) host = joined C F host.1 := by
  have hfacts : host.2 = factsOf F host.1 := by
    rw [factsOf, ← HostFacts.factsOf_ofFacts]
    exact (HostFacts.factsOf_of_mem (HostFacts.nodup_hosts_ofFacts F) hhost).symm
  rw [assemble, joined, HostClasses.titles_ofMemberships, hfacts]
  congr 1
  refine List.filter_congr fun fact _ => ?_
  rw [Bool.eq_iff_iff, Bool.not_eq_true', ← Bool.not_eq_true, isVolatile_iff, decide_eq_true_eq]
  simp only [not_exists, not_and]

theorem assembleAll_eq_joined (C : List Membership) (F : List Fact) :
    assembleAll (HostClasses.ofMemberships C) (HostFacts.ofFacts F) =
      (HostFacts.hosts (HostFacts.ofFacts F)).map (joined C F) := by
  rw [assembleAll_eq_map (HostClasses.nodup_hosts_ofMemberships C)
    (HostFacts.nodup_hosts_ofFacts F),
    HostFacts.hosts, List.map_map]
  exact List.map_congr_left fun host hhost => assemble_eq_joined hhost

theorem IsJoin.eq_map_joined {C : List Membership} {F : List Fact} {records : List HostRecord}
    (h : IsJoin C F records) : records = (records.map (·.certname)).map (joined C F) := by
  rw [List.map_map]
  refine (List.map_id records).symm.trans (List.map_congr_left fun r hr => ?_)
  have hclasses := h.classes_eq r hr
  have hfacts := (h.facts_eq r hr).2
  obtain ⟨certname, classes, facts⟩ := r
  simp only at hclasses hfacts
  rw [hclasses, hfacts]
  rfl

theorem IsJoin.hosts_eq {C : List Membership} {F : List Fact} {records : List HostRecord}
    (h : IsJoin C F records) :
    records.map (·.certname) = HostFacts.hosts (HostFacts.ofFacts F) := by
  refine Text.Utf8.eq_of_ascending h.hosts_ascending (HostFacts.hosts_ofFacts_ascending F)
    fun host => ?_
  rw [h.mem_hosts, HostFacts.mem_hosts_ofFacts]

/-- The records that are assembled are the join, and no others are. -/
theorem isJoin_iff {C : List Membership} {F : List Fact} {records : List HostRecord} :
    IsJoin C F records ↔
      assembleAll (HostClasses.ofMemberships C) (HostFacts.ofFacts F) = records := by
  rw [assembleAll_eq_joined]
  constructor
  · intro h
    rw [← h.hosts_eq, ← h.eq_map_joined]
  · rintro rfl
    have hhosts : ((HostFacts.hosts (HostFacts.ofFacts F)).map (joined C F)).map (·.certname) =
        HostFacts.hosts (HostFacts.ofFacts F) := by
      rw [List.map_map]
      exact List.map_id _
    refine ⟨?_, fun host => ?_, fun r hr => ?_, fun r hr => ?_⟩
    · rw [hhosts]
      exact (HostFacts.hosts_ofFacts_ascending F).imp fun hlt =>
        Text.Utf8.encode_lt_encode (String.lt_iff_toList_lt.1 hlt)
    · rw [hhosts, HostFacts.mem_hosts_ofFacts]
    · obtain ⟨host, -, rfl⟩ := List.mem_map.1 hr
      rfl
    · obtain ⟨host, hhost, rfl⟩ := List.mem_map.1 hr
      obtain ⟨⟨_, facts⟩, hmem, rfl⟩ := List.mem_map.1 hhost
      refine ⟨?_, rfl⟩
      have hfacts := HostFacts.factsOf_of_mem (HostFacts.nodup_hosts_ofFacts F) hmem
      rw [HostFacts.factsOf_ofFacts] at hfacts
      rw [← hfacts] at hmem
      exact hmem

end HostRecord

namespace Client

/-! ### The two listings -/

/-- The path of the listing of classes. -/
def classesPath (c : Client) : String :=
  Parameters.path ⟨c.version, some classQuery, [.ascending "certname", .ascending "title"]⟩
    "resources"

/-- The path of the listing of all facts. -/
def factsPath (c : Client) : String :=
  Parameters.path ⟨c.version, none, [.ascending "certname", .ascending "name"]⟩ "facts"

/-- The rows of classes, as they are fetched. -/
def fetchClasses (c : Client) : Exchange (List Membership) :=
  Paging.fetchAll Membership.decoder c.pageSize c.classesPath

/-- The rows of facts, as they are fetched. -/
def fetchFacts (c : Client) : Exchange (List Fact) :=
  Paging.fetchAll Fact.decoder c.pageSize c.factsPath

variable {c : Client} {answers : List Answer}

theorem inventory_of_error {e : ClientError} (h : (c.fetchClasses answers).result = .error e) :
    c.inventory answers =
      ⟨(c.fetchClasses answers).requests, .error e, (c.fetchClasses answers).unused⟩ := by
  have hclasses : c.classes answers =
      ⟨(c.fetchClasses answers).requests, .error e, (c.fetchClasses answers).unused⟩ :=
    Exchange.bind_of_error _ h
  have herror : (c.classes answers).result = .error e := by rw [hclasses]
  rw [inventory, Exchange.bind_of_error _ herror, hclasses]

theorem inventory_of_ok {C : List Membership} (h : (c.fetchClasses answers).result = .ok C) :
    c.inventory answers =
      ⟨(c.fetchClasses answers).requests ++ (c.fetchFacts (c.fetchClasses answers).unused).requests,
        (c.fetchFacts (c.fetchClasses answers).unused).result.map fun F =>
          HostRecord.assembleAll (HostClasses.ofMemberships C) (HostFacts.ofFacts F),
        (c.fetchFacts (c.fetchClasses answers).unused).unused⟩ := by
  have hclasses : c.classes answers = ⟨(c.fetchClasses answers).requests,
      .ok (HostClasses.ofMemberships C), (c.fetchClasses answers).unused⟩ :=
    Exchange.bind_pure_of_ok _ h
  have hok : (c.classes answers).result = .ok (HostClasses.ofMemberships C) := by rw [hclasses]
  rw [inventory, Exchange.bind_of_ok _ hok, hclasses]
  -- what is left is to fetch the facts and to make two tables of them
  generalize (c.fetchClasses answers).unused = unused
  cases hfacts : (c.fetchFacts unused).result with
  | error e =>
    have hfetch : c.facts none unused =
        ⟨(c.fetchFacts unused).requests, .error e, (c.fetchFacts unused).unused⟩ :=
      Exchange.bind_of_error _ hfacts
    have herror : (c.facts none unused).result = .error e := by rw [hfetch]
    rw [Exchange.bind_of_error _ herror, hfetch]
    rfl
  | ok F =>
    have hfetch : c.facts none unused = ⟨(c.fetchFacts unused).requests,
        .ok (HostFacts.ofFacts F), (c.fetchFacts unused).unused⟩ :=
      Exchange.bind_pure_of_ok _ hfacts
    have hok' : (c.facts none unused).result = .ok (HostFacts.ofFacts F) := by rw [hfetch]
    rw [Exchange.bind_pure_of_ok _ hok', hfetch]
    rfl

theorem result_inventory_eq_ok_iff {records : List HostRecord} :
    (c.inventory answers).result = .ok records ↔
      ∃ C F, (c.fetchClasses answers).result = .ok C ∧
        (c.fetchFacts (c.fetchClasses answers).unused).result = .ok F ∧
        HostRecord.IsJoin C F records := by
  simp only [HostRecord.isJoin_iff]
  cases hclasses : (c.fetchClasses answers).result with
  | error e => simp [inventory_of_error hclasses]
  | ok C =>
    rw [inventory_of_ok hclasses]
    cases (c.fetchFacts (c.fetchClasses answers).unused).result <;> simp [Except.map]

theorem result_inventory_eq_error_iff {e : ClientError} :
    (c.inventory answers).result = .error e ↔
      (c.fetchClasses answers).result = .error e ∨
        (∃ C, (c.fetchClasses answers).result = .ok C) ∧
          (c.fetchFacts (c.fetchClasses answers).unused).result = .error e := by
  cases hclasses : (c.fetchClasses answers).result with
  | error e => simp [inventory_of_error hclasses]
  | ok C =>
    rw [inventory_of_ok hclasses]
    cases (c.fetchFacts (c.fetchClasses answers).unused).result <;> simp [Except.map]

theorem requests_inventory (c : Client) (answers : List Answer) :
    ∃ m n, (c.inventory answers).requests =
      (List.range m).map (Paging.pageRequest c.classesPath (max c.pageSize 1)) ++
        (List.range n).map (Paging.pageRequest c.factsPath (max c.pageSize 1)) := by
  obtain ⟨classPages, classResult, -, hclassRun, -⟩ :=
    Paging.exists_fetchAll_eq Membership.decoder c.pageSize c.classesPath answers
  have hrequests : (c.fetchClasses answers).requests = (List.range (classPages.length + 1)).map
      (Paging.pageRequest c.classesPath (max c.pageSize 1)) := by
    rw [fetchClasses, hclassRun]
  refine ⟨classPages.length + 1, ?_⟩
  cases hclasses : (c.fetchClasses answers).result with
  | error e =>
    refine ⟨0, ?_⟩
    rw [inventory_of_error hclasses, hrequests]
    simp
  | ok C =>
    obtain ⟨factPages, factResult, -, hfactRun, -⟩ := Paging.exists_fetchAll_eq Fact.decoder
      c.pageSize c.factsPath (c.fetchClasses answers).unused
    refine ⟨factPages.length + 1, ?_⟩
    rw [inventory_of_ok hclasses, hrequests, fetchFacts, hfactRun]

theorem inventory_of_fails {pages : List (List Membership)} {e : ClientError}
    (hpages : Paging.FullPages Membership.decoder c.classesPath (max c.pageSize 1) answers pages)
    (hfails : Paging.Fails Membership.decoder c.classesPath (max c.pageSize 1) answers
      pages.length e) :
    c.inventory answers =
      ⟨(List.range (pages.length + 1)).map (Paging.pageRequest c.classesPath (max c.pageSize 1)),
        .error e, answers.drop (pages.length + 1)⟩ := by
  have hrun : c.fetchClasses answers = _ := Paging.fetchAll_of_fails hpages hfails
  have herror : (c.fetchClasses answers).result = .error e := by rw [hrun]
  rw [inventory_of_error herror, hrun]

/-- **The inventory is the exact left join of facts with classes**, whatever the store answers.  It
succeeds if and only if the rows of classes and then those of facts are fetched, and has their one
join then; else its error is that of the listing that fails.  All pages of classes are asked for
before any page of facts, and none of the latter is if a page of classes fails. -/
theorem inventory_join (c : Client) (answers : List Answer) :
    let size := max c.pageSize 1
    let run := c.inventory answers
    let classes := c.fetchClasses answers
    let facts := c.fetchFacts classes.unused
    (∀ records, run.result = .ok records ↔
      ∃ C F, classes.result = .ok C ∧ facts.result = .ok F ∧ HostRecord.IsJoin C F records) ∧
    (∀ e, run.result = .error e ↔
      classes.result = .error e ∨ (∃ C, classes.result = .ok C) ∧ facts.result = .error e) ∧
    (∃ m n, run.requests = (List.range m).map (Paging.pageRequest c.classesPath size) ++
      (List.range n).map (Paging.pageRequest c.factsPath size)) ∧
    ∀ pages e, Paging.FullPages Membership.decoder c.classesPath size answers pages →
      Paging.Fails Membership.decoder c.classesPath size answers pages.length e →
      run = ⟨(List.range (pages.length + 1)).map (Paging.pageRequest c.classesPath size), .error e,
        answers.drop (pages.length + 1)⟩ :=
  ⟨fun _ => result_inventory_eq_ok_iff, fun _ => result_inventory_eq_error_iff,
    requests_inventory c answers, fun _ _ => inventory_of_fails⟩

/-- Classes of three hosts, those of one apart from each other. -/
def serverClasses : List Resource :=
  [("web3", "Ssh"), ("web1", "Ntp"), ("web2", "Ntp"), ("web1", "Ssh")].map fun row =>
    ⟨row.1, "Class", row.2, false, .null, none⟩

/-- Facts of three hosts: one of them has no classes, and one only facts that change all the time.
-/
def serverFacts : List Fact :=
  [("web2", "os", "linux"), ("web1", "uptime_days", "3"), ("db1", "os", "bsd"),
    ("web2", "memoryfree_mb", "17")].map fun row => ⟨row.1, row.2.1, .string row.2.2, none⟩

/-- A page with all classes, and a page with all facts. -/
def serverAnswers : List Answer :=
  [fun _ => .ok (Json.array (serverClasses.map Resource.toJson)).text,
    fun _ => .ok (Json.array (serverFacts.map Fact.toJson)).text]

theorem fetchClasses_servers : fetchClasses ⟨.v4, 5⟩ serverAnswers =
    ⟨[Paging.pageRequest (classesPath ⟨.v4, 5⟩) 5 0],
      .ok (serverClasses.map fun r => ⟨r.certname, r.title⟩), serverAnswers.drop 1⟩ := by
  have hpage : Paging.Arrives Membership.decoder (classesPath ⟨.v4, 5⟩) 5 serverAnswers 0
      (serverClasses.map fun r => ⟨r.certname, r.title⟩) := by
    refine ⟨_, rfl, Json.Decoder.run_list_text Membership.decoder Resource.toJson _ (fun r hr => ?_)
      fun r _ => Membership.decoder_written_resource r 125⟩
    obtain ⟨row, -, rfl⟩ := List.mem_map.1 hr
    exact Resource.numbersReadBack_toJson trivial
  exact Paging.fetchAll_of_short Paging.fullPages_nil hpage (by decide)

theorem fetchFacts_servers : fetchFacts ⟨.v4, 5⟩ (serverAnswers.drop 1) =
    ⟨[Paging.pageRequest (factsPath ⟨.v4, 5⟩) 5 0], .ok serverFacts, []⟩ := by
  have hpage : Paging.Arrives Fact.decoder (factsPath ⟨.v4, 5⟩) 5 (serverAnswers.drop 1) 0
      (serverFacts.map id) := by
    refine ⟨_, rfl, Json.Decoder.run_list_text Fact.decoder Fact.toJson id (fun r hr => ?_)
      fun r hr => ?_⟩
    · obtain ⟨row, -, rfl⟩ := List.mem_map.1 hr
      exact Fact.numbersReadBack_toJson trivial
    · obtain ⟨row, -, rfl⟩ := List.mem_map.1 hr
      exact Fact.decoder_written (Json.value_written_string _ _)
  rw [List.map_id] at hpage
  exact Paging.fetchAll_of_short Paging.fullPages_nil hpage (by decide)

/-- The inventory of these hosts, and that of a store that does not answer. -/
theorem inventory_servers :
    (inventory ⟨.v4, 5⟩ serverAnswers).result = .ok [⟨"db1", [], [("os", "bsd")]⟩,
      ⟨"web1", ["Ntp", "Ssh"], []⟩, ⟨"web2", ["Ntp"], [("os", "linux")]⟩] ∧
    Paging.FullPages Membership.decoder (classesPath ⟨.v4, 5⟩) 5
      [fun _ => .error (.transport "refused")] [] ∧
    Paging.Fails Membership.decoder (classesPath ⟨.v4, 5⟩) 5
      [fun _ => .error (.transport "refused")] 0 (.transport "refused") ∧
    inventory ⟨.v4, 5⟩ [fun _ => .error (.transport "refused")] =
      ⟨[Paging.pageRequest (classesPath ⟨.v4, 5⟩) 5 0], .error (.transport "refused"), []⟩ := by
  have hfails : Paging.Fails Membership.decoder (classesPath ⟨.v4, 5⟩) 5
      [fun _ => .error (.transport "refused")] 0 (.transport "refused") := .inl rfl
  refine ⟨?_, Paging.fullPages_nil, hfails, ?_⟩
  · refine ((inventory_join ⟨.v4, 5⟩ serverAnswers).1 _).2
      ⟨serverClasses.map fun r => ⟨r.certname, r.title⟩, serverFacts, ?_, ?_, ?_⟩
    · rw [fetchClasses_servers]
    · rw [fetchClasses_servers, fetchFacts_servers]
    · exact HostRecord.isJoin_iff.2 rfl
  · exact (inventory_join ⟨.v4, 5⟩ _).2.2.2 [] _ Paging.fullPages_nil hfails

end Client

end NodeInventory
