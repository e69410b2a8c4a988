import NodeInventory.Proofs.Listing.Resources
import NodeInventory.Proofs.Paging.Run
import NodeInventory.Proofs.Tables.Classes
import NodeInventory.Proofs.Tables.Facts

/-!
# The listings of classes and of facts

Both are ordered by the host and by the name under it, which tells their rows apart.  So a store has
one listing of them only, and whatever the size of the pages, a fetch returns the table of this
listing.

* `Client.result_classes`, `Client.result_facts` : the table that a fetch returns;
* `Client.classes_facts_exact` : what stands in these tables.
-/

namespace NodeInventory

variable {collate : String → String → Ordering}

/-- The class that a resource of type `Class` gives to its host. -/
def Resource.membership (r : Resource) : Membership := ⟨r.certname, r.title⟩

/-- Two facts by a column; texts are compared by a collation. -/
def Fact.compareColumn (collate : String → String → Ordering) (column : String) (a b : Fact) :
    Ordering :=
  if column = "certname" then collate a.certname b.certname
  else if column = "name" then collate a.name b.name
  else .eq

instance Fact.instTransCmpCompareColumn [Std.TransCmp collate] (column : String) :
    Std.TransCmp (Fact.compareColumn collate column) := by
  unfold Fact.compareColumn
  split
  · exact OrderBy.transCmp_comap Fact.certname
  split
  · exact OrderBy.transCmp_comap Fact.name
  · exact OrderBy.transCmp_eq

namespace Client

/-! ### Classes -/

/-- The resources of type `Class`. -/
def classRows (store : Store Resource) : List Resource :=
  store.rows.filter fun r => r.kind = "Class"

/-- The store answers all requests for rows of hosts and titles, whatever they ask for, and no fewer
of them than there are pages of classes. -/
def ServesClasses (collate : String → String → Ordering) (c : Client) (store : Store Resource)
    (answers : List Answer) : Prop :=
  (∀ answer ∈ answers, store.Answers (Resource.compareColumn collate) c.version "resources"
    Membership.decoder Resource.membership answer) ∧
  (classRows store).length / max c.pageSize 1 < answers.length

theorem compareRows_class (a b : Resource) :
    OrderBy.compareRows (Resource.compareColumn collate)
      [.ascending "certname", .ascending "title"] a b =
      HostClasses.compareMemberships collate a.membership b.membership := by
  rw [OrderBy.compareRows_pair]
  rfl

theorem result_classes [Std.TransCmp collate] [Std.LawfulEqCmp collate] {c : Client}
    {store : Store Resource} {answers : List Answer} (h : c.ServesClasses collate store answers)
    (hmatching : store.matching (some classQuery) = classRows store)
    (hdistinct : ((classRows store).map Resource.membership).Nodup)
    {L : List Resource} (hL : OrderBy.IsListing (Resource.compareColumn collate)
      [.ascending "certname", .ascending "title"] (classRows store) L) :
    (c.classes answers).result = .ok (HostClasses.ofMemberships (L.map Resource.membership)) := by
  obtain ⟨hanswers, hmany⟩ := h
  rw [← hmatching] at hmany hL hdistinct
  refine Exchange.result_bind_pure _ (Store.result_fetchAll_of_total
    (p := ⟨c.version, some classQuery, [.ascending "certname", .ascending "title"]⟩) (by decide)
    hanswers hmany (fun a ha b hb hab => ?_) hL)
  rw [compareRows_class] at hab
  exact List.inj_on_of_nodup_map hdistinct ha hb (HostClasses.eq_of_compareMemberships hab)

theorem pairwise_compareMemberships [Std.LawfulEqCmp collate] {rows L : List Resource}
    (hdistinct : (rows.map Resource.membership).Nodup)
    (hL : OrderBy.IsListing (Resource.compareColumn collate)
      [.ascending "certname", .ascending "title"] rows L) :
    (L.map Resource.membership).Pairwise fun a b =>
      HostClasses.compareMemberships collate a b = .lt := by
  have hsorted : (L.map Resource.membership).Pairwise fun a b =>
      (HostClasses.compareMemberships collate a b).isLE := by
    rw [List.pairwise_map]
    exact hL.sorted.imp fun {a b} hab => by rwa [← compareRows_class]
  have hnodup : (L.map Resource.membership).Nodup :=
    ((hL.perm.map _).nodup_iff).2 hdistinct
  refine (hsorted.and hnodup).imp fun {a b} hab => ?_
  have hne : HostClasses.compareMemberships collate a b ≠ .eq := fun heq =>
    hab.2 (HostClasses.eq_of_compareMemberships heq)
  have hle := hab.1
  revert hne hle
  cases HostClasses.compareMemberships collate a b <;> simp

/-! ### Facts -/

/-- The query for the facts that a filter admits. -/
def factQuery (filter : Option Filter) : Option Query :=
  (effectiveFilter filter).map Filter.compile

/-- The store answers all requests for facts, whatever they ask for, and no fewer of them than there
are pages of the facts that a filter admits. -/
def ServesFacts (collate : String → String → Ordering) (c : Client) (filter : Option Filter)
    (store : Store Fact) (answers : List Answer) : Prop :=
  (∀ answer ∈ answers,
    store.Answers (Fact.compareColumn collate) c.version "facts" Fact.decoder id answer) ∧
  (store.matching (factQuery filter)).length / max c.pageSize 1 < answers.length

theorem result_facts [Std.TransCmp collate] [Std.LawfulEqCmp collate] {c : Client}
    {filter : Option Filter} {store : Store Fact} {answers : List Answer}
    (h : c.ServesFacts collate filter store answers)
    (hdistinct : ((store.matching (factQuery filter)).map fun r => (r.certname, r.name)).Nodup)
    {L : List Fact} (hL : OrderBy.IsListing (Fact.compareColumn collate)
      [.ascending "certname", .ascending "name"] (store.matching (factQuery filter)) L) :
    (c.facts filter answers).result = .ok (HostFacts.ofFacts L) := by
  have hfetch := Store.result_fetchAll_of_total
    (p := ⟨c.version, factQuery filter, [.ascending "certname", .ascending "name"]⟩) (by decide)
    h.1 h.2 (fun a ha b hb hab => ?_) hL
  · rw [List.map_id] at hfetch
    exact Exchange.result_bind_pure _ hfetch
  · rw [OrderBy.compareRows_pair] at hab
    obtain ⟨hhost, hname⟩ := Ordering.then_eq_eq.1 hab
    have hhost' : a.certname = b.certname := Std.LawfulEqCmp.eq_of_compare hhost
    have hname' : a.name = b.name := Std.LawfulEqCmp.eq_of_compare hname
    exact List.inj_on_of_nodup_map hdistinct ha hb (by rw [hhost', hname'])

/-! ### Both tables -/

/-- **The listings of classes and of facts are exact**, whatever listing the store takes each page
from, on every version and with every size of pages.  The store looks at nothing but the query, the
ordering and the window that a path asks for.

If no host has a class twice, the table of classes has just the hosts with classes, in ascending
order, and with each host its titles, each once, in ascending order.  If no host has two facts of
one name among those that a filter admits, the table of facts has just one entry for each of these,
with its unwrapped value.  Texts are sorted by any collation. -/
theorem classes_facts_exact (collate : String → String → Ordering) [Std.TransCmp collate]
    [Std.LawfulEqCmp collate] :
    (∀ store : Store Resource,
      (∀ r ∈ store.rows,
        store.selects (Json.array [.string "=", .string "type", .string "Class"]).text r =
          decide (r.kind = "Class")) →
      ((classRows store).map Resource.membership).Nodup →
      ∃ table, HostClasses.IsTableOf collate ((classRows store).map Resource.membership) table ∧
        ∀ c answers, ServesClasses collate c store answers →
          (c.classes answers).result = .ok table) ∧
    ∀ (store : Store Fact) (filter : Option Filter),
      ((store.matching (factQuery filter)).map fun r => (r.certname, r.name)).Nodup →
      ∃ table, HostFacts.IsTableOf (store.matching (factQuery filter)) table ∧
        ∀ c answers, ServesFacts collate c filter store answers →
          (c.facts filter answers).result = .ok table := by
  constructor
  · intro store hselects hdistinct
    have hmatching : store.matching (some classQuery) = classRows store :=
      List.filter_congr hselects
    -- any listing will do to make the table of, as there is only one
    obtain ⟨L, hL⟩ := OrderBy.exists_isListing (Resource.compareColumn collate)
      [.ascending "certname", .ascending "title"] (classRows store)
    refine ⟨_, ?_, fun c answers h => result_classes h hmatching hdistinct hL⟩
    exact (HostClasses.isTableOf_ofMemberships (pairwise_compareMemberships hdistinct hL)).of_perm
      (hL.perm.map _)
  · intro store filter hdistinct
    obtain ⟨L, hL⟩ := OrderBy.exists_isListing (Fact.compareColumn collate)
      [.ascending "certname", .ascending "name"] (store.matching (factQuery filter))
    refine ⟨_, ?_, fun c answers h => result_facts h hdistinct hL⟩
    refine (HostFacts.isTableOf_ofFacts ?_).of_perm hL.perm
    exact ((hL.perm.map _).nodup_iff).2 hdistinct

/-- Three classes of two hosts, none of them in order, and a file. -/
def webClasses : Store Resource where
  rows := motd "web1" :: [("web2", "Ntp"), ("web1", "Ssh"), ("web1", "Ntp")].map fun row =>
    ⟨row.1, "Class", row.2, false, .null, none⟩
  selects query r :=
    query ≠ (Json.array [.string "=", .string "type", .string "Class"]).text || r.kind = "Class"

/-- A fact of two hosts, one of which has its value in a string. -/
def webFacts : Store Fact where
  rows := [⟨"web2", "os", .string "linux", none⟩, ⟨"web1", "os", .string "[\"linux\"]", none⟩]
  selects _ _ := true

theorem exists_body_webClasses {page : List Resource} (hpage : page ⊆ webClasses.rows) :
    ∃ body, (Json.Decoder.list Membership.decoder).run body =
      some (page.map Resource.membership) := by
  refine ⟨_, Json.Decoder.run_list_text Membership.decoder Resource.toJson Resource.membership
    (fun r hr => Resource.numbersReadBack_toJson ?_)
    fun r _ => Membership.decoder_written_resource r 125⟩
  rcases List.mem_cons.1 (hpage hr) with rfl | hmem
  · trivial
  · obtain ⟨row, -, rfl⟩ := List.mem_map.1 hmem
    trivial

theorem exists_body_webFacts {page : List Fact} (hpage : page ⊆ webFacts.rows) :
    ∃ body, (Json.Decoder.list Fact.decoder).run body = some (page.map id) := by
  have hvalue : ∀ r ∈ page, ∃ s, r.value = .string s := by
    intro r hr
    have hmem := hpage hr
    simp only [webFacts, List.mem_cons, List.not_mem_nil, or_false] at hmem
    rcases hmem with rfl | rfl <;> exact ⟨_, rfl⟩
  refine ⟨_, Json.Decoder.run_list_text Fact.decoder Fact.toJson id
    (fun r hr => Fact.numbersReadBack_toJson ?_) fun r hr => Fact.decoder_written ?_⟩
  · obtain ⟨s, hs⟩ := hvalue r hr
    rw [hs]
    trivial
  · obtain ⟨s, hs⟩ := hvalue r hr
    rw [hs]
    exact Json.value_written_string _ s

/-- Both listings of these, one row to a page. -/
theorem classes_facts_web :
    (∃ answers, ServesClasses compare ⟨.v4, 1⟩ webClasses answers ∧
      ∃ table, HostClasses.IsTableOf compare ((classRows webClasses).map Resource.membership) table ∧
        (classes ⟨.v4, 1⟩ answers).result = .ok table) ∧
    ∃ answers, ServesFacts compare ⟨.v4, 1⟩ none webFacts answers ∧
      ∃ table, HostFacts.IsTableOf webFacts.rows table ∧
        (facts ⟨.v4, 1⟩ none answers).result = .ok table := by
  constructor
  · obtain ⟨table, htable, hfetch⟩ := (classes_facts_exact compare).1 webClasses
      (fun r _ => by simp [webClasses]) (by decide)
    -- three pages of one row, and an empty one
    obtain ⟨answers, hlength, hanswers⟩ := Store.exists_answers_of_writable
      (Resource.compareColumn compare) (fun _ => exists_body_webClasses) .v4
      (by decide : '?' ∉ "resources".toList) 4
    have hserves : ServesClasses compare ⟨.v4, 1⟩ webClasses answers :=
      ⟨hanswers, hlength ▸ by decide⟩
    exact ⟨answers, hserves, table, htable, hfetch _ _ hserves⟩
  · obtain ⟨table, htable, hfetch⟩ := (classes_facts_exact compare).2 webFacts none (by decide)
    obtain ⟨answers, hlength, hanswers⟩ := Store.exists_answers_of_writable
      (Fact.compareColumn compare) (fun _ => exists_body_webFacts) .v4
      (by decide : '?' ∉ "facts".toList) 3
    have hserves : ServesFacts compare ⟨.v4, 1⟩ none webFacts answers :=
      ⟨hanswers, hlength ▸ by decide⟩
    exact ⟨answers, hserves, table, htable, hfetch _ _ hserves⟩

end Client

end NodeInventory
