import NodeInventory.Proofs.Json.Records
import NodeInventory.Proofs.Paging.Run
import NodeInventory.Proofs.Request.Path
import Mathlib.Order.Nat

/-!
# Pages of a list

What a fetch returns from a store that answers each request with a window of a list, of another one
at every request or always of the same (`Paging.fetchAll_of_servesList`).
-/

namespace NodeInventory

/-!
## Windows of a list

A store that holds a list answers the request for page `k` with the `k`-th `Paging.window` of
it.  If the list is another at every request, a fetch returns windows of different lists, put
together (`Paging.stitch`).

* `Paging.fetchAll_of_windows` : a fetch from a store that serves windows of lists of one length
  asks for just those pages that hold rows, and for the one behind them, and stitches them together;
* `Paging.stitch_const` : the windows of one list stitch back to the list.
-/

namespace Paging

variable {α : Type}

/-- Window `k` of a list, each window having `size` rows as far as there are so many. -/
def window (size k : ℕ) (L : List α) : List α := (L.drop (k * size)).take size

/-- The windows of lists of `n` rows, window `k` being taken from list `k`. -/
def stitch (size n : ℕ) (L : ℕ → List α) : List α :=
  (List.range (n / size + 1)).flatMap fun k => window size k (L k)

theorem length_window (size k : ℕ) (L : List α) :
    (window size k L).length = min size (L.length - k * size) := by
  rw [window, List.length_take, List.length_drop]

theorem map_window {β : Type} (f : α → β) (size k : ℕ) (L : List α) :
    (window size k L).map f = window size k (L.map f) := by
  simp only [window, List.map_take, List.map_drop]

theorem take_append_window (size k : ℕ) (L : List α) :
    L.take (k * size) ++ window size k L = L.take ((k + 1) * size) := by
  rw [window, Nat.succ_mul, List.take_add]

theorem flatMap_window_range (size : ℕ) (L : List α) (m : ℕ) :
    ((List.range m).flatMap fun k => window size k L) = L.take (m * size) := by
  induction m with
  | zero => simp
  | succ m ih =>
    rw [List.range_succ, List.flatMap_append, ih, List.flatMap_singleton, take_append_window]

theorem stitch_const {size : ℕ} (hsize : 0 < size) (L : List α) :
    stitch size L.length (fun _ => L) = L := by
  rw [stitch, flatMap_window_range, List.take_of_length_le]
  exact Nat.le_of_lt (by simpa [Nat.mul_comm] using Nat.lt_mul_div_succ L.length hsize)

variable {d : Json.Decoder α} {path : String} {answers : List Answer}

/-- A fetch from a store that serves windows of lists of one length: all windows that hold rows are
asked for and kept, and the first one that is not full ends it. -/
theorem fetchAll_of_windows {step n : ℕ} {L : ℕ → List α} (hL : ∀ k, (L k).length = n)
    (h : ∀ k ≤ n / max step 1,
      Arrives d path (max step 1) answers k (window (max step 1) k (L k))) :
    fetchAll d step path answers =
      ⟨(List.range (n / max step 1 + 1)).map (pageRequest path (max step 1)),
        .ok (stitch (max step 1) n L), answers.drop (n / max step 1 + 1)⟩ := by
  set size := max step 1
  have hsize : 0 < size := by omega
  set last := n / size
  have hlast : last * size ≤ n := Nat.div_mul_le_self n size
  have hbehind : n < (last + 1) * size := by
    simpa [Nat.mul_comm] using Nat.lt_mul_div_succ n hsize
  let pages := (List.range last).map fun k => window size k (L k)
  have hpages : pages.length = last := by simp [pages]
  have hfull : FullPages d path size answers pages := by
    intro k hk
    have hk' : k < last := by omega
    have hroom : (k + 1) * size ≤ n := (Nat.mul_le_mul_right size hk').trans hlast
    refine ⟨by simpa [pages] using h k hk'.le, ?_⟩
    simp only [pages, List.getElem_map, List.getElem_range, length_window, hL]
    rw [Nat.succ_mul] at hroom
    omega
  have hshort : (window size last (L last)).length < size := by
    rw [length_window, hL]
    rw [Nat.succ_mul] at hbehind
    omega
  rw [fetchAll_of_short hfull (by rw [hpages]; exact h last le_rfl) hshort, hpages, stitch,
    List.range_succ, List.flatMap_append, List.flatMap_singleton, List.flatMap_def]

end Paging

/-!
## Fetching a whole list

A store that holds one list and serves any part of it that is asked for (`Paging.ServesList`) is
asked for page after page, and the pages put together are the list, whatever their size.

* `Paging.fetchAll_of_servesList` : the requests and the result of a fetch from such a store;
* `Paging.listStore` : a store that prints its rows, and reads from the end of a path which ones;
* `Paging.servesList_listStore` : it serves its list at every path.
-/

section

open Text

namespace Paging

variable {α : Type} {d : Json.Decoder α} {path : String} {L : List α} {store : Answer}

/-- At a path, the store answers the request for `limit` rows from an offset on with these rows of
`L`, or with as many of them as there are, in a body that is read by `d` row by row. -/
def ServesList (d : Json.Decoder α) (path : String) (L : List α) (store : Answer) : Prop :=
  ∀ limit offset, ∃ body, store (.get (pagePath path limit offset)) = .ok body ∧
    (Json.Decoder.list d).run body = some ((L.drop offset).take limit)

theorem ServesList.arrives (h : ServesList d path L store) (size : ℕ) {k n : ℕ} (hk : k < n)
    (unused : List Answer) :
    Arrives d path size (List.replicate n store ++ unused) k (window size k L) := by
  obtain ⟨body, hbody, hrows⟩ := h size (k * size)
  refine ⟨body, ?_, hrows⟩
  have hanswer : (List.replicate n store ++ unused)[k]? = some store := by
    rw [List.getElem?_append_left (by simpa using hk), List.getElem?_replicate, if_pos hk]
  rw [pageReply, hanswer, ← get_pagePath]
  exact hbody

theorem ServesList.fetchAll_eq (h : ServesList d path L store) (step : ℕ) {n : ℕ}
    (hn : n = L.length / max step 1 + 1) (unused : List Answer) :
    fetchAll d step path (List.replicate n store ++ unused) =
      ⟨(List.range n).map (pageRequest path (max step 1)), .ok L, unused⟩ := by
  subst hn
  have hwindows := fetchAll_of_windows (fun _ : ℕ => (rfl : L.length = L.length))
    fun k hk => h.arrives (max step 1) (Nat.lt_succ_of_le hk) unused
  rw [hwindows, stitch_const (by omega)]
  simp

/-- **Pages stitch back to the whole.**  A fetch from a store that serves a list ends, with the list
as its result, after one request for each full page and one more, whatever answers there are behind
those. So the size of the pages does not matter as long as the store answers often enough. -/
theorem fetchAll_of_servesList (h : ServesList d path L store) :
    (∀ (step : ℕ) (unused : List Answer),
      fetchAll d step path (List.replicate (L.length / max step 1 + 1) store ++ unused) =
        ⟨(List.range (L.length / max step 1 + 1)).map (pageRequest path (max step 1)), .ok L,
          unused⟩) ∧
    ∀ step step' n n' : ℕ, L.length / max step 1 < n → L.length / max step' 1 < n' →
      (fetchAll d step path (List.replicate n store)).result =
        (fetchAll d step' path (List.replicate n' store)).result := by
  have hresult : ∀ step n : ℕ, L.length / max step 1 < n →
      (fetchAll d step path (List.replicate n store)).result = .ok L := by
    intro step n hn
    -- the answers behind those that are used do not matter
    obtain ⟨m, rfl⟩ := Nat.exists_eq_add_of_le hn
    rw [List.replicate_add, h.fetchAll_eq step rfl]
  exact ⟨fun step unused => h.fetchAll_eq step rfl unused,
    fun step step' n n' hn hn' => (hresult step n hn).trans (hresult step' n' hn').symm⟩

/-! ### A store that prints its rows -/

/-- The query string of a path: what stands behind its first `?`. -/
def queryString (path : String) : String :=
  String.ofList ((path.toList.dropWhile fun c => c ≠ '?').drop 1)

/-- The window that the last two fields of a path ask for. -/
def askedWindow? (path : String) : Option (ℕ × ℕ) :=
  match (QueryString.fields (queryString path)).reverse with
  | some ("offset", offset) :: some ("limit", limit) :: _ =>
    some (Nat.ofDigitChars 10 limit.toList 0, Nat.ofDigitChars 10 offset.toList 0)
  | _ => none

/-- A store that holds a list and answers with the rows that a path asks for, printed by `toJson`.
-/
def listStore (toJson : α → Json) (L : List α) : Answer := fun request =>
  match askedWindow? request.path with
  | some (limit, offset) => .ok (Json.array (((L.drop offset).take limit).map toJson)).text
  | none => .error (.transport "no window")

theorem queryString_append {endpoint : String} (h : '?' ∉ endpoint.toList) (params : String) :
    queryString (endpoint ++ "?" ++ params) = params := by
  have hpath : (endpoint ++ "?" ++ params).toList = endpoint.toList ++ '?' :: params.toList := by
    simp
  have hall : ∀ c ∈ endpoint.toList, decide (c ≠ '?') = true := fun c hc =>
    decide_eq_true (ne_of_mem_of_not_mem hc h)
  rw [queryString, hpath, List.dropWhile_append_of_pos hall]
  simp

/-- The window stands at the end of the path of a page, whatever stands before it. -/
theorem askedWindow?_pagePath (path : String) (limit offset : ℕ) :
    askedWindow? (pagePath path limit offset) = some (limit, offset) := by
  have hfields : ∃ own, QueryString.fields (queryString (pagePath path limit offset)) =
      own ++ [some ("limit", toString limit), some ("offset", toString offset)] := by
    by_cases h : '?' ∈ path.toList
    · obtain ⟨endpoint, params, hpath, hendpoint⟩ := List.eq_append_cons_of_mem h
      have hlist : pagePath path limit offset = String.ofList endpoint ++ "?" ++
          (String.ofList params ++ "&" ++ windowText limit offset) := by
        rw [pagePath_eq, if_pos h, ← String.toList_inj]
        simp [hpath]
      refine ⟨QueryString.fields (String.ofList params), ?_⟩
      rw [hlist, queryString_append (by simpa using hendpoint), QueryString.fields_append,
        fields_windowText]
    · refine ⟨[], ?_⟩
      rw [pagePath_eq, if_neg h, queryString_append h, fields_windowText]
      rfl
  obtain ⟨own, hown⟩ := hfields
  rw [askedWindow?, hown]
  simp only [List.reverse_append, List.reverse_cons, List.reverse_nil, List.nil_append,
    List.cons_append, QueryString.ofDigitChars_toString]

/-- A store that prints its rows serves its list at every path if the rows are read back. -/
theorem servesList_listStore {toJson : α → Json}
    (hnumbers : ∀ row ∈ L, Json.NumbersReadBack (toJson row))
    (hrows : ∀ row ∈ L, d (Json.nestingLimit - 1) (toJson row).written = some row)
    (path : String) : ServesList d path L (listStore toJson L) := by
  intro limit offset
  have hsub : (L.drop offset).take limit ⊆ L :=
    List.Subset.trans (List.take_subset _ _) (List.drop_subset _ _)
  refine ⟨(Json.array (((L.drop offset).take limit).map toJson)).text, ?_, ?_⟩
  · have hasked : askedWindow? (Request.get (pagePath path limit offset)).path =
        some (limit, offset) := askedWindow?_pagePath path limit offset
    rw [listStore, hasked]
  · rw [Json.Decoder.run_list_text d toJson id (fun row hrow => hnumbers row (hsub hrow))
      fun row hrow => hrows row (hsub hrow), List.map_id]

/-- Three names, one to a page and two to a page, with a parameter that looks like a window. -/
theorem fetchAll_three_names :
    let names := listStore Json.string ["os", "kernel", "uptime"]
    ServesList Json.Decoder.text "fact-names?limit=7" ["os", "kernel", "uptime"] names ∧
    fetchAll Json.Decoder.text 0 "fact-names?limit=7" (List.replicate 4 names) =
      ⟨(List.range 4).map (pageRequest "fact-names?limit=7" 1), .ok ["os", "kernel", "uptime"],
        []⟩ ∧
    (fetchAll Json.Decoder.text 0 "fact-names?limit=7" (List.replicate 4 names)).result =
      (fetchAll Json.Decoder.text 2 "fact-names?limit=7" (List.replicate 2 names)).result := by
  intro names
  have hserves : ServesList Json.Decoder.text "fact-names?limit=7" ["os", "kernel", "uptime"]
      names := by
    have hnumbers : ∀ name : String, Json.NumbersReadBack (.string name) := fun _ => trivial
    exact servesList_listStore (fun name _ => hnumbers name)
      (fun name _ => Json.textOf?_writtenString name) _
  obtain ⟨hfetch, hsame⟩ := fetchAll_of_servesList hserves
  exact ⟨hserves, by simpa using hfetch 0 [], hsame 0 2 4 2 (by decide) (by decide)⟩

end Paging

end

end NodeInventory
