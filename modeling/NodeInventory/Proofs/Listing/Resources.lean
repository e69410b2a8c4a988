import NodeInventory.Proofs.Json.Records
import NodeInventory.Proofs.Listing.Store

/-!
# The listing of resources

A listing of resources is ordered by `Selection.order`, which never names the host.  Two resources
of one type and title on two hosts are therefore tied, and a store may list them either way.

* `Selection.Ties` : what the ordering of a selection does not tell apart;
* `Client.asks_of_mem_requests` : what the requests for a selection ask for;
* `Client.resources_perm_iff` : a fetch has every matching resource once, however the store lists
  tied ones, if and only if no tied ones stand around the end of a page;
* `Client.motdStore` : two hosts with one file, of which one comes twice and the other never, with
  one resource to a page.
-/

namespace NodeInventory

variable {collate : String → String → Ordering}

/-! ### What the ordering tells apart -/

/-- Two resources by a column; texts are compared by a collation. -/
def Resource.compareColumn (collate : String → String → Ordering) (column : String)
    (r t : Resource) : Ordering :=
  if column = "certname" then collate r.certname t.certname
  else if column = "type" then collate r.kind t.kind
  else if column = "title" then collate r.title t.title
  else if column = "exported" then compare r.exported t.exported
  else .eq

instance Resource.instTransCmpCompareColumn [Std.TransCmp collate] (column : String) :
    Std.TransCmp (Resource.compareColumn collate column) := by
  unfold Resource.compareColumn
  split
  · exact OrderBy.transCmp_comap Resource.certname
  split
  · exact OrderBy.transCmp_comap Resource.kind
  split
  · exact OrderBy.transCmp_comap Resource.title
  split
  · exact OrderBy.transCmp_comap Resource.exported
  · exact OrderBy.transCmp_eq

/-- The ordering of a selection does not tell two resources apart. -/
def Selection.Ties (s : Selection) (r t : Resource) : Prop :=
  (s.exported = none → r.exported = t.exported) ∧ (s.pinsKind = false → r.kind = t.kind) ∧
    r.title = t.title

theorem Selection.compareRows_order_eq_iff [Std.TransCmp collate] [Std.LawfulEqCmp collate]
    (s : Selection) (r t : Resource) :
    OrderBy.compareRows (Resource.compareColumn collate) s.order r t = .eq ↔ s.Ties r t := by
  have hexported : OrderBy.compareField (Resource.compareColumn collate) (.descending "exported")
      r t = .eq ↔ r.exported = t.exported := by
    rw [eq_comm (a := r.exported)]
    simp [OrderBy.compareField, OrderBy.descending, Resource.compareColumn]
  have htype : OrderBy.compareField (Resource.compareColumn collate) (.ascending "type") r t = .eq ↔
      r.kind = t.kind := by
    simp [OrderBy.compareField, OrderBy.ascending, Resource.compareColumn]
  have htitle : OrderBy.compareField (Resource.compareColumn collate) (.ascending "title")
      r t = .eq ↔ r.title = t.title := by
    simp [OrderBy.compareField, OrderBy.ascending, Resource.compareColumn]
  cases hx : s.exported <;> cases hp : s.pinsKind <;>
    simp [Selection.order, Selection.Ties, OrderBy.compareRows, Ordering.then_eq_eq, hx, hp,
      hexported, htype, htitle]

/-! ### What a fetch returns -/

namespace Client

/-- The parameters of the requests for a selection. -/
def resourceParameters (c : Client) (s : Selection) : Parameters :=
  ⟨c.version, s.query c.version, s.order⟩

/-- The resources that a selection has in a store. -/
def selected (c : Client) (s : Selection) (store : Store Resource) : List Resource :=
  store.matching (s.query c.version)

/-- There is a request for resources, and each asks for a page of the selection, in its ordering. -/
theorem asks_of_mem_requests (c : Client) (s : Selection) (answers : List Answer) :
    (c.resources s answers).requests ≠ [] ∧
      ∀ k request, (c.resources s answers).requests[k]? = some request →
        ∃ path, request = .get path ∧ (c.resourceParameters s).Asks "resources" (max c.pageSize 1)
          (k * max c.pageSize 1) path := by
  obtain ⟨pages, result, -, hrun, -⟩ := Paging.exists_fetchAll_eq Resource.decoder c.pageSize
    ((c.resourceParameters s).path "resources") answers
  constructor
  · rw [show (c.resources s answers).requests = _ from congrArg Outcome.requests hrun]
    simp
  · intro k request hrequest
    exact ⟨_, Parameters.requests_fetchAll Resource.decoder c.pageSize _ answers hrequest,
      Parameters.asks_pagePath _ (by decide) _ _⟩

/-- The store answers all requests for resources, whatever they ask for, and no fewer of them than
there are pages of the selection. -/
def ServesResources (collate : String → String → Ordering) (c : Client) (s : Selection)
    (store : Store Resource) (answers : List Answer) : Prop :=
  (∀ answer ∈ answers, store.Answers (Resource.compareColumn collate) c.version "resources"
    Resource.decoder id answer) ∧
  (c.selected s store).length / max c.pageSize 1 < answers.length

theorem exists_result_resources [Std.TransCmp collate] {c : Client} {s : Selection}
    {store : Store Resource} {answers : List Answer}
    (h : c.ServesResources collate s store answers) :
    ∃ listings : ℕ → List Resource,
      (∀ k, OrderBy.IsListing (Resource.compareColumn collate) s.order (c.selected s store)
        (listings k)) ∧
      (c.resources s answers).result =
        .ok (Paging.stitch (max c.pageSize 1) (c.selected s store).length listings) := by
  obtain ⟨listings, hlistings, hresult⟩ :=
    Store.exists_listings (p := c.resourceParameters s) (by decide) h.1 h.2
  rw [List.map_id] at hresult
  exact ⟨listings, hlistings, hresult⟩

/-- **When a listing of resources is exact.**  However the store lists tied resources, and even if
it does so in another way at each request, a fetch has every matching resource once if and only if
no listing has tied resources on either side of the end of a page. -/
theorem resources_perm_iff [Std.TransCmp collate] [Std.LawfulEqCmp collate] (c : Client)
    (s : Selection) (store : Store Resource)
    (hdistinct : (store.rows.map fun r => (r.certname, r.kind, r.title)).Nodup)
    (hwritable : ∀ page ⊆ store.rows,
      ∃ body, (Json.Decoder.list Resource.decoder).run body = some page) :
    (∀ answers, c.ServesResources collate s store answers →
        ∃ rows, (c.resources s answers).result = .ok rows ∧ rows.Perm (c.selected s store)) ↔
      ∀ L, OrderBy.IsListing (Resource.compareColumn collate) s.order (c.selected s store) L →
        ∀ k r t, 0 < k → L[k * max c.pageSize 1 - 1]? = some r →
          L[k * max c.pageSize 1]? = some t → ¬ s.Ties r t := by
  have hsize : 0 < max c.pageSize 1 := by omega
  have hnodup : (c.selected s store).Nodup := hdistinct.of_map.sublist (store.matching_sublist _)
  have hstitch : (∀ listings : ℕ → List Resource,
      (∀ k, OrderBy.IsListing (Resource.compareColumn collate) s.order (c.selected s store)
        (listings k)) →
      (Paging.stitch (max c.pageSize 1) (c.selected s store).length listings).Perm
        (c.selected s store)) ↔ _ := Paging.stitch_perm_iff hsize hnodup
  simp only [Paging.NoTieAtPageEnds, ne_eq, s.compareRows_order_eq_iff] at hstitch
  rw [← hstitch]
  -- what a fetch returns depends on the listings only, and any listings can be served
  constructor
  · intro h listings hlistings
    obtain ⟨answers, hanswers, hmany, hresult⟩ :=
      Store.exists_answers_of_listings (p := c.resourceParameters s) (d := Resource.decoder)
        (f := id) (fun page hpage => by
          rw [List.map_id]
          exact hwritable page hpage) (by decide : '?' ∉ "resources".toList) hlistings c.pageSize
    obtain ⟨rows, hrows, hperm⟩ := h answers ⟨hanswers, hmany⟩
    rw [List.map_id] at hresult
    cases hresult.symm.trans hrows
    exact hperm
  · intro h answers hserves
    obtain ⟨listings, hlistings, hresult⟩ := exists_result_resources hserves
    exact ⟨_, hresult, h listings hlistings⟩

/-! ### Two hosts with one file -/

/-- The file that greets who logs in to a host. -/
def motd (host : String) : Resource := ⟨host, "File", "/etc/motd", false, .null, none⟩

/-- Two hosts with that file. -/
def motdStore : Store Resource := ⟨[motd "web1", motd "web2"], fun _ _ => true⟩

/-- What comes in reply to the requests for pages of one resource, if the two are listed in the
other order from the second request on. -/
def motdAnswers : List Answer :=
  [["web1"], ["web1"], []].map fun hosts _ =>
    .ok (Json.array ((hosts.map motd).map Resource.toJson)).text

/-- The parameters of the requests for the two files. -/
def motdParameters : Parameters := resourceParameters ⟨.v4, 1⟩ ⟨none, none⟩

/-- The path that these requests begin with. -/
def motdPath : String := motdParameters.path "resources"

theorem run_text_of_null {rows : List Resource} (h : ∀ r ∈ rows, r.parameters = .null) :
    (Json.Decoder.list Resource.decoder).run (Json.array (rows.map Resource.toJson)).text =
      some rows := by
  have hrun := Json.Decoder.run_list_text Resource.decoder Resource.toJson id
    (fun r hr => Resource.numbersReadBack_toJson (by rw [h r hr]; trivial))
    (fun r hr => Resource.decoder_written (by rw [h r hr]; rfl))
  rwa [List.map_id] at hrun

theorem run_text_motd {page : List Resource} (hpage : page ⊆ motdStore.rows) :
    (Json.Decoder.list Resource.decoder).run (Json.array (page.map Resource.toJson)).text =
      some page := by
  refine run_text_of_null fun r hr => ?_
  have hmem := hpage hr
  simp only [motdStore, List.mem_cons, List.not_mem_nil, or_false] at hmem
  rcases hmem with rfl | rfl <;> rfl

/-- Whatever the store lists first, a page for both hosts has both files. -/
theorem resources_motd_one_page :
    motdStore.rows.length = 2 ∧
      ∀ answers, ServesResources compare ⟨.v4, 2⟩ ⟨none, none⟩ motdStore answers →
        ∃ rows, (resources ⟨.v4, 2⟩ ⟨none, none⟩ answers).result = .ok rows ∧
          rows.Perm (selected ⟨.v4, 2⟩ ⟨none, none⟩ motdStore) := by
  refine ⟨rfl, (resources_perm_iff ⟨.v4, 2⟩ ⟨none, none⟩ motdStore (by decide)
    fun page hpage => ⟨_, run_text_motd hpage⟩).2 ?_⟩
  intro L hL k r t hk _ ht
  obtain ⟨hlt, -⟩ := List.getElem?_eq_some_iff.1 ht
  have hlength : L.length = 2 := hL.length_eq
  simp only [show max 2 1 = 2 from rfl] at hlt
  omega

/-- The listing that the page for a request is taken from. -/
def motdListing (k : ℕ) : List Resource :=
  if k = 0 then [motd "web1", motd "web2"] else [motd "web2", motd "web1"]

/-- A window of that listing in writing. -/
def motdBody (k limit offset : ℕ) : String :=
  (Json.array ((((motdListing k).drop offset).take limit).map Resource.toJson)).text

theorem isListing_motdListing (k : ℕ) :
    OrderBy.IsListing (Resource.compareColumn compare) motdParameters.order
      (motdStore.matching motdParameters.query) (motdListing k) := by
  unfold motdListing
  split
  · exact ⟨List.Perm.refl _, by simp [motd]; rfl⟩
  · exact ⟨List.Perm.swap .., by simp [motd]; rfl⟩

theorem run_motdBody (k limit offset : ℕ) :
    (Json.Decoder.list Resource.decoder).run (motdBody k limit offset) =
      some ((((motdListing k).drop offset).take limit).map id) := by
  rw [List.map_id]
  exact run_text_motd (Store.window_subset (isListing_motdListing k) limit offset)

theorem pageReply_motdAnswers {k : ℕ} (hk : k < 3) :
    Paging.pageReply motdPath 1 motdAnswers k = .ok (motdBody k 1 (k * 1)) := by
  obtain rfl | rfl | rfl : k = 0 ∨ k = 1 ∨ k = 2 := by omega
  all_goals rfl

/-- Three replies are enough, as the last of them is empty. -/
theorem result_motd {answers : List Answer}
    (hreplies : ∀ k < 3, Paging.pageReply motdPath 1 answers k = .ok (motdBody k 1 (k * 1))) :
    (resources ⟨.v4, 1⟩ ⟨none, none⟩ answers).result = .ok [motd "web1", motd "web1"] := by
  have hfetch : (Paging.fetchAll Resource.decoder 1 motdPath answers).result = _ :=
    Store.result_fetchAll_of_arrives isListing_motdListing fun k hk =>
      ⟨_, hreplies k (Nat.lt_succ_of_le hk), run_motdBody k _ _⟩
  exact hfetch

/-- With one resource to a page, the file of the first host comes twice and that of the other host
never, although the two differ in their hosts and the store answers all that is asked for from a
listing. -/
theorem resources_motd_twice :
    (motdStore.rows.map fun r => (r.certname, r.kind, r.title)).Nodup ∧
      (∃ answers, ServesResources compare ⟨.v4, 1⟩ ⟨none, none⟩ motdStore answers ∧
        (∀ k, Paging.pageReply motdPath 1 answers k = Paging.pageReply motdPath 1 motdAnswers k) ∧
        (resources ⟨.v4, 1⟩ ⟨none, none⟩ answers).result = .ok [motd "web1", motd "web1"]) ∧
      (resources ⟨.v4, 1⟩ ⟨none, none⟩ motdAnswers).result = .ok [motd "web1", motd "web1"] ∧
      ¬ [motd "web1", motd "web1"].Perm (selected ⟨.v4, 1⟩ ⟨none, none⟩ motdStore) := by
  obtain ⟨answers, hlength, hanswers, hreplies⟩ :=
    Store.exists_answers (fun page hpage => ⟨_, by rw [List.map_id, run_text_motd hpage]⟩)
      (by decide : '?' ∉ "resources".toList) isListing_motdListing run_motdBody 1 3
  refine ⟨by decide,
    ⟨answers, ⟨hanswers, hlength ▸ by decide⟩, fun k => ?_, result_motd hreplies⟩,
    result_motd fun k hk => pageReply_motdAnswers hk, fun hperm => ?_⟩
  · rcases Nat.lt_or_ge k 3 with hk | hk
    · exact (hreplies k hk).trans (pageReply_motdAnswers hk).symm
    · have hnone : answers[k]? = none := List.getElem?_eq_none (hlength ▸ hk)
      have hnone' : motdAnswers[k]? = none := List.getElem?_eq_none hk
      rw [Paging.pageReply, Paging.pageReply, hnone, hnone']
  · have hmem : motd "web2" ∈ [motd "web1", motd "web1"] := hperm.mem_iff.2 (by
      change motd "web2" ∈ [motd "web1", motd "web2"]
      simp)
    simp [motd] at hmem

end Client

end NodeInventory
