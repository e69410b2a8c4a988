import NodeInventory.Client
import NodeInventory.Proofs.Listing.Order

/-!
# Stores that answer requests for pages

A store sees of a request what its path asks for (`Parameters.Asks`) : a query and an ordering in
writing, and a window.  Its reply is this window of *some* listing of the matching rows in that
ordering, and which listing it is may change from one request to the next.

* `Store` : rows, and the rows that the text of a query selects;
* `Store.Answers` : an answer replies to every path in this way, whatever the path asks for;
* `Store.exists_listings` : a fetch from such answers returns the pages of listings in the ordering
  that its own requests ask for, put together;
* `Store.result_fetchAll_of_total` : it returns the one listing if no two rows are tied;
* `Store.exists_answers` : the answers may take their pages from any listings and write them in any
  way.

Only replies to paths that ask for a page are spoken of: for a path that does not, an answer may be
anything.
-/

namespace NodeInventory

/-- A store of rows. -/
structure Store (ρ : Type) where
  rows : List ρ
  /-- Whether a query, of which the store sees the text, selects a row. -/
  selects : String → ρ → Bool

namespace Store

variable {ρ α : Type}

/-- The rows that a query selects; without one, all. -/
def matching (store : Store ρ) : Option Query → List ρ
  | none => store.rows
  | some query => store.rows.filter (store.selects query.text)

theorem matching_sublist (store : Store ρ) (query : Option Query) :
    (store.matching query).Sublist store.rows := by
  cases query with
  | none => exact List.Sublist.refl _
  | some query => exact List.filter_sublist

theorem matching_congr (store : Store ρ) {query query' : Option Query}
    (h : query.map Query.text = query'.map Query.text) :
    store.matching query = store.matching query' := by
  cases query <;> cases query' <;> simp_all [matching]

theorem window_subset {store : Store ρ} {cmp : String → ρ → ρ → Ordering} {order : List OrderBy}
    {query : Option Query} {L : List ρ}
    (hL : OrderBy.IsListing cmp order (store.matching query) L) (limit offset : ℕ) :
    (L.drop offset).take limit ⊆ store.rows := fun _ hr =>
  (store.matching_sublist query).subset
    (hL.perm.mem_iff.1 (List.mem_of_mem_drop (List.mem_of_mem_take hr)))

/-- An answer of the store to requests for rows of an endpoint.  If a path asks for a window, under
some query and some ordering, the reply is a body from which `d` reads `f` of each row in this
window of a listing. -/
def Answers (store : Store ρ) (cmp : String → ρ → ρ → Ordering) (version : ApiVersion)
    (endpoint : String) (d : Json.Decoder α) (f : ρ → α) (answer : Answer) : Prop :=
  ∀ query order limit offset path,
    Parameters.Asks ⟨version, query, order⟩ endpoint limit offset path →
      ∃ L body, OrderBy.IsListing cmp order (store.matching query) L ∧
        answer (.get path) = .ok body ∧
        (Json.Decoder.list d).run body = some (((L.drop offset).take limit).map f)

variable {store : Store ρ} {cmp : String → ρ → ρ → Ordering} [∀ field, Std.TransCmp (cmp field)]
  {p : Parameters} {endpoint : String} {d : Json.Decoder α} {f : ρ → α} {answers : List Answer}

/-! ### What a fetch returns -/

omit [∀ field, Std.TransCmp (cmp field)] in
theorem result_fetchAll_of_arrives {step : ℕ} {listings : ℕ → List ρ}
    (hlistings : ∀ k, OrderBy.IsListing cmp p.order (store.matching p.query) (listings k))
    (harrives : ∀ k ≤ (store.matching p.query).length / max step 1,
      Paging.Arrives d (p.path endpoint) (max step 1) answers k
        ((Paging.window (max step 1) k (listings k)).map f)) :
    (Paging.fetchAll d step (p.path endpoint) answers).result =
      .ok ((Paging.stitch (max step 1) (store.matching p.query).length listings).map f) := by
  have hlength : ∀ k, ((listings k).map f).length = (store.matching p.query).length := fun k => by
    rw [List.length_map, (hlistings k).length_eq]
  have hwindows := Paging.fetchAll_of_windows hlength fun k hk =>
    (Paging.map_window f _ k (listings k)) ▸ harrives k hk
  rw [hwindows]
  simp only [Paging.stitch, Paging.map_window, List.map_flatMap]

theorem exists_arrives (hendpoint : '?' ∉ endpoint.toList)
    (hanswers : ∀ answer ∈ answers, store.Answers cmp p.version endpoint d f answer) (size k : ℕ) :
    ∃ L, OrderBy.IsListing cmp p.order (store.matching p.query) L ∧
      (k < answers.length →
        Paging.Arrives d (p.path endpoint) size answers k ((Paging.window size k L).map f)) := by
  by_cases hk : k < answers.length
  · have hasks := p.asks_pagePath hendpoint size (k * size)
    obtain ⟨L, body, hL, hbody, hrows⟩ :=
      hanswers answers[k] (List.getElem_mem hk) p.query p.order size (k * size) _ hasks
    refine ⟨L, hL, fun _ => ⟨body, ?_, hrows⟩⟩
    rw [Paging.pageReply, List.getElem?_eq_getElem hk, ← Paging.get_pagePath]
    exact hbody
  · obtain ⟨L, hL⟩ := OrderBy.exists_isListing cmp p.order (store.matching p.query)
    exact ⟨L, hL, fun hlt => absurd hlt hk⟩

/-- A fetch returns windows of listings in its ordering, put together. -/
theorem exists_listings (hendpoint : '?' ∉ endpoint.toList) {step : ℕ}
    (hanswers : ∀ answer ∈ answers, store.Answers cmp p.version endpoint d f answer)
    (hmany : (store.matching p.query).length / max step 1 < answers.length) :
    ∃ listings : ℕ → List ρ,
      (∀ k, OrderBy.IsListing cmp p.order (store.matching p.query) (listings k)) ∧
      (Paging.fetchAll d step (p.path endpoint) answers).result =
        .ok ((Paging.stitch (max step 1) (store.matching p.query).length listings).map f) := by
  choose listings hlistings harrives using
    fun k => exists_arrives hendpoint hanswers (max step 1) k
  exact ⟨listings, hlistings, result_fetchAll_of_arrives hlistings fun k hk =>
    harrives k (hk.trans_lt hmany)⟩

/-- If the ordering tells all matching rows apart, a fetch returns them in their one listing. -/
theorem result_fetchAll_of_total (hendpoint : '?' ∉ endpoint.toList) {step : ℕ}
    (hanswers : ∀ answer ∈ answers, store.Answers cmp p.version endpoint d f answer)
    (hmany : (store.matching p.query).length / max step 1 < answers.length)
    (htotal : ∀ a ∈ store.matching p.query, ∀ b ∈ store.matching p.query,
      OrderBy.compareRows cmp p.order a b = .eq → a = b)
    {L : List ρ} (hL : OrderBy.IsListing cmp p.order (store.matching p.query) L) :
    (Paging.fetchAll d step (p.path endpoint) answers).result = .ok (L.map f) := by
  obtain ⟨listings, hlistings, hresult⟩ := exists_listings hendpoint hanswers hmany
  have hconst : listings = fun _ => L := funext fun k => (hlistings k).unique hL htotal
  rw [hresult, hconst, ← hL.length_eq, Paging.stitch_const (by omega)]

/-! ### Which answers a store may give -/

section Writable

-- the store can write all of its rows
variable (hwritable : ∀ page ⊆ store.rows,
  ∃ body, (Json.Decoder.list d).run body = some (page.map f))

include hwritable

variable (cmp) in
theorem exists_page (query : Option Query) (order : List OrderBy) (limit offset : ℕ) :
    ∃ L body, OrderBy.IsListing cmp order (store.matching query) L ∧
      (Json.Decoder.list d).run body = some (((L.drop offset).take limit).map f) := by
  obtain ⟨L, hL⟩ := OrderBy.exists_isListing cmp order (store.matching query)
  obtain ⟨body, hbody⟩ := hwritable _ (window_subset hL limit offset)
  exact ⟨L, body, hL, hbody⟩

/-- A store can answer what `p` asks for from any listing and in any writing of its windows. -/
theorem exists_answer (hendpoint : '?' ∉ endpoint.toList) {L : List ρ} {body : ℕ → ℕ → String}
    (hL : OrderBy.IsListing cmp p.order (store.matching p.query) L)
    (hbody : ∀ limit offset, (Json.Decoder.list d).run (body limit offset) =
      some (((L.drop offset).take limit).map f)) :
    ∃ answer, store.Answers cmp p.version endpoint d f answer ∧
      ∀ limit offset path, p.Asks endpoint limit offset path →
        answer (.get path) = .ok (body limit offset) := by
  have hreply : ∀ path, ∃ reply : Reply,
      (∀ query order limit offset,
        Parameters.Asks ⟨p.version, query, order⟩ endpoint limit offset path →
          ∃ L body, OrderBy.IsListing cmp order (store.matching query) L ∧ reply = .ok body ∧
            (Json.Decoder.list d).run body = some (((L.drop offset).take limit).map f)) ∧
      ∀ limit offset, p.Asks endpoint limit offset path → reply = .ok (body limit offset) := by
    intro path
    -- a path asks for one thing only: for a page of `p`, for something else, or for no page
    by_cases hp : ∃ limit offset, p.Asks endpoint limit offset path
    · obtain ⟨limit, offset, h⟩ := hp
      refine ⟨.ok (body limit offset), fun query' order' limit' offset' h' => ?_,
        fun limit' offset' h' => ?_⟩
      · obtain ⟨hquery, rfl, rfl, rfl⟩ := h.unique_query hendpoint h'
        exact ⟨L, _, store.matching_congr hquery ▸ hL, rfl, hbody limit offset⟩
      · obtain ⟨-, -, rfl, rfl⟩ := h.unique hendpoint h'
        rfl
    by_cases hasked : ∃ query order limit offset,
        Parameters.Asks ⟨p.version, query, order⟩ endpoint limit offset path
    · obtain ⟨query, order, limit, offset, h⟩ := hasked
      obtain ⟨M, text, hM, htext⟩ := exists_page cmp hwritable query order limit offset
      refine ⟨.ok text, fun query' order' limit' offset' h' => ?_,
        fun limit' offset' h' => absurd ⟨limit', offset', h'⟩ hp⟩
      obtain ⟨hquery, rfl, rfl, rfl⟩ := h.unique_query hendpoint h'
      exact ⟨M, text, store.matching_congr hquery ▸ hM, rfl, htext⟩
    · exact ⟨.error .endOfAnswers, fun _ _ _ _ h => absurd ⟨_, _, _, _, h⟩ hasked,
        fun _ _ h => absurd ⟨_, _, h⟩ hp⟩
  choose reply hreplies hbodies using hreply
  exact ⟨fun request => reply request.path,
    fun query order limit offset path => hreplies path query order limit offset,
    fun limit offset path => hbodies path limit offset⟩

/-- So it is for as many answers as one likes, each from a listing of its own. -/
theorem exists_answers (hendpoint : '?' ∉ endpoint.toList) {listings : ℕ → List ρ}
    {body : ℕ → ℕ → ℕ → String}
    (hlistings : ∀ k, OrderBy.IsListing cmp p.order (store.matching p.query) (listings k))
    (hbody : ∀ k limit offset, (Json.Decoder.list d).run (body k limit offset) =
      some ((((listings k).drop offset).take limit).map f)) (size n : ℕ) :
    ∃ answers, answers.length = n ∧
      (∀ answer ∈ answers, store.Answers cmp p.version endpoint d f answer) ∧
      ∀ k < n, Paging.pageReply (p.path endpoint) size answers k = .ok (body k size (k * size)) := by
  choose answer hanswer hasked using
    fun k => exists_answer hwritable hendpoint (hlistings k) (hbody k)
  refine ⟨(List.range n).map answer, by simp, fun a ha => ?_, fun k hk => ?_⟩
  · obtain ⟨k, -, rfl⟩ := List.mem_map.1 ha
    exact hanswer k
  · have hk' : ((List.range n).map answer)[k]? = some (answer k) := by simp [hk]
    rw [Paging.pageReply, hk', ← Paging.get_pagePath]
    exact hasked k _ _ _ (p.asks_pagePath hendpoint _ _)

theorem exists_answers_of_listings (hendpoint : '?' ∉ endpoint.toList) {listings : ℕ → List ρ}
    (hlistings : ∀ k, OrderBy.IsListing cmp p.order (store.matching p.query) (listings k))
    (step : ℕ) :
    ∃ answers, (∀ answer ∈ answers, store.Answers cmp p.version endpoint d f answer) ∧
      (store.matching p.query).length / max step 1 < answers.length ∧
      (Paging.fetchAll d step (p.path endpoint) answers).result =
        .ok ((Paging.stitch (max step 1) (store.matching p.query).length listings).map f) := by
  choose body hbody using
    fun k limit offset => hwritable _ (window_subset (hlistings k) limit offset)
  obtain ⟨answers, hlength, hanswers, hreplies⟩ := exists_answers hwritable hendpoint hlistings
    hbody (max step 1) ((store.matching p.query).length / max step 1 + 1)
  exact ⟨answers, hanswers, by omega, result_fetchAll_of_arrives hlistings fun k hk =>
    ⟨_, hreplies k (Nat.lt_succ_of_le hk), hbody k _ _⟩⟩

variable (cmp) in
/-- Any number of requests can be answered, whatever they ask for. -/
theorem exists_answers_of_writable (version : ApiVersion) (hendpoint : '?' ∉ endpoint.toList)
    (n : ℕ) :
    ∃ answers : List Answer, answers.length = n ∧
      ∀ answer ∈ answers, store.Answers cmp version endpoint d f answer := by
  obtain ⟨L, hL⟩ := OrderBy.exists_isListing cmp [] (store.matching none)
  choose body hbody using fun limit offset => hwritable _ (window_subset hL limit offset)
  obtain ⟨answer, hanswer, -⟩ :=
    exists_answer (p := ⟨version, none, []⟩) hwritable hendpoint hL hbody
  exact ⟨List.replicate n answer, List.length_replicate, fun a ha =>
    List.eq_of_mem_replicate ha ▸ hanswer⟩

end Writable

end Store

end NodeInventory
