import NodeInventory.Exchange
import Mathlib.Data.List.Induction

/-!
# Exchanges and the run of a fetch

What becomes of one exchange after another, and what a fetch asks for, returns and leaves unused,
whatever the answers are (`Paging.fetchAll_run`).
-/

namespace NodeInventory

/-!
## One exchange after another

The requests of two exchanges in a row are those of the first and then those of the second, which is
run on the answers that the first has left.  If the first fails, the second is not begun.

* `Exchange.bind_of_ok`, `Exchange.bind_of_error` : what becomes of the two;
* `Exchange.result_bind_pure` : an exchange that ends in a computation.
-/

namespace Exchange

variable {α β : Type} {x : Exchange α} {answers : List Answer}

theorem bind_of_error (f : α → Exchange β) {e : ClientError}
    (h : (x answers).result = .error e) :
    (x >>= f) answers = ⟨(x answers).requests, .error e, (x answers).unused⟩ := by
  change Exchange.bind x f answers = _
  unfold Exchange.bind
  cases hx : x answers with
  | mk requests result unused =>
    obtain rfl : result = .error e := by
      rw [hx] at h
      exact h
    rfl

theorem bind_of_ok (f : α → Exchange β) {a : α} (h : (x answers).result = .ok a) :
    (x >>= f) answers =
      ⟨(x answers).requests ++ (f a (x answers).unused).requests,
        (f a (x answers).unused).result, (f a (x answers).unused).unused⟩ := by
  change Exchange.bind x f answers = _
  unfold Exchange.bind
  cases hx : x answers with
  | mk requests result unused =>
    obtain rfl : result = .ok a := by
      rw [hx] at h
      exact h
    rfl

theorem bind_pure_of_ok (f : α → β) {a : α} (h : (x answers).result = .ok a) :
    (x >>= fun a => Pure.pure (f a)) answers =
      ⟨(x answers).requests, .ok (f a), (x answers).unused⟩ := by
  rw [bind_of_ok _ h]
  change (⟨(x answers).requests ++ [], .ok (f a), (x answers).unused⟩ : Outcome β) = _
  rw [List.append_nil]

theorem result_bind_pure (f : α → β) {a : α} (h : (x answers).result = .ok a) :
    ((x >>= fun a => Pure.pure (f a)) answers).result = .ok (f a) := by
  rw [bind_pure_of_ok f h]

end Exchange

/-!
## The run of a fetch

A fetch asks for the pages `0`, `1`, `2`, … of a path (`Paging.pageRequest`) and goes on as long as
they are full.  What page `k` brings is a matter of the `k`-th answer alone: rows arrive
(`Paging.Arrives`) or the page fails (`Paging.Fails`), and after the last answer every page fails.

* `Paging.fetchFrom_of_fails`, `Paging.fetchFrom_of_arrives` : what one page does to a run;
* `Paging.fetchFrom_of_fullPages` : what full pages in a row do, by induction on them;
* `Paging.exists_fullPages` : every run meets a page that is not full, and ends there
  (`Paging.exists_fetchAll_eq`);
* `Paging.fetchAll_run` : the requests, the result and the unused answers of a fetch, whatever the
  answers are.
-/

namespace Paging

variable {α : Type}

/-! ### Pages -/

/-- The request for page `k` of a path, with `size` rows to a page. -/
def pageRequest (path : String) (size k : ℕ) : Request :=
  .get (path ++ (if '?' ∈ path.toList then "&" else "?") ++ "limit=" ++ toString size ++
    "&offset=" ++ toString (k * size))

/-- The reply to the request for page `k`: that of the `k`-th answer, if there are so many. -/
def pageReply (path : String) (size : ℕ) (answers : List Answer) (k : ℕ) : Reply :=
  match answers[k]? with
  | some answer => answer (pageRequest path size k)
  | none => .error .endOfAnswers

variable (d : Json.Decoder α) (path : String) (size : ℕ) (answers : List Answer)

/-- Page `k` comes as an array of rows. -/
def Arrives (k : ℕ) (rows : List α) : Prop :=
  ∃ body, pageReply path size answers k = .ok body ∧ (Json.Decoder.list d).run body = some rows

/-- Page `k` does not come, or it is no array of rows; the error is the one that came in its place,
or names the page. -/
def Fails (k : ℕ) (e : ClientError) : Prop :=
  pageReply path size answers k = .error e ∨
    ∃ body, pageReply path size answers k = .ok body ∧ (Json.Decoder.list d).run body = none ∧
      e = .malformedResponse
        ⟨"Failed to decode response from " ++ (pageRequest path size k).path,
          some (.body (pageRequest path size k).path body)⟩

/-- The first pages, one after another, each with as many rows as were asked for or more. -/
def FullPages (pages : List (List α)) : Prop :=
  ∀ k (h : k < pages.length), Arrives d path size answers k pages[k] ∧ size ≤ pages[k].length

variable {d path size answers}

theorem get_pagePath (path : String) (size k : ℕ) :
    Request.get (pagePath path size (k * size)) = pageRequest path size k := by
  by_cases h : '?' ∈ path.toList <;>
    simp [pagePath, pageRequest, h, String.append_assoc, toString]

theorem readPage_eq_ok_iff {k : ℕ} {rows : List α} :
    readPage d (pageRequest path size k).path (pageReply path size answers k) = .ok rows ↔
      Arrives d path size answers k rows := by
  unfold Arrives
  cases pageReply path size answers k with
  | error e => simp [readPage]
  | ok body => cases h : (Json.Decoder.list d).run body <;> simp [readPage, decodeBody, h]

theorem readPage_eq_error_iff {k : ℕ} {e : ClientError} :
    readPage d (pageRequest path size k).path (pageReply path size answers k) = .error e ↔
      Fails d path size answers k e := by
  unfold Fails
  cases pageReply path size answers k with
  | error e' => simp [readPage]
  | ok body =>
    cases h : (Json.Decoder.list d).run body <;> simp [readPage, decodeBody, h, eq_comm]

theorem arrives_or_fails (d : Json.Decoder α) (path : String) (size : ℕ) (answers : List Answer)
    (k : ℕ) : (∃ rows, Arrives d path size answers k rows) ∨ ∃ e, Fails d path size answers k e := by
  cases h : readPage d (pageRequest path size k).path (pageReply path size answers k) with
  | ok rows => exact .inl ⟨rows, readPage_eq_ok_iff.1 h⟩
  | error e => exact .inr ⟨e, readPage_eq_error_iff.1 h⟩

theorem Arrives.unique {k : ℕ} {rows rows' : List α} (h : Arrives d path size answers k rows)
    (h' : Arrives d path size answers k rows') : rows = rows' := by
  simpa using (readPage_eq_ok_iff.2 h).symm.trans (readPage_eq_ok_iff.2 h')

theorem Arrives.not_fails {k : ℕ} {rows : List α} {e : ClientError}
    (h : Arrives d path size answers k rows) : ¬ Fails d path size answers k e := by
  intro h'
  simpa using (readPage_eq_ok_iff.2 h).symm.trans (readPage_eq_error_iff.2 h')

theorem Arrives.lt_length {k : ℕ} {rows : List α} (h : Arrives d path size answers k rows) :
    k < answers.length := by
  obtain ⟨body, hbody, -⟩ := h
  by_contra hk
  simp [pageReply, List.getElem?_eq_none (Nat.le_of_not_lt hk)] at hbody

/-! ### One page -/

theorem readPage_of_drop {k : ℕ} {answer : Answer} {unused : List Answer}
    (h : answers.drop k = answer :: unused) :
    readPage d (pagePath path size (k * size)) (answer (pageRequest path size k)) =
      readPage d (pageRequest path size k).path (pageReply path size answers k) := by
  have hk : answers[k]? = some answer := by
    have : (answers.drop k)[0]? = answers[k]? := by simp
    rw [← this, h]
    rfl
  have hpath : (pageRequest path size k).path = pagePath path size (k * size) := by
    rw [← get_pagePath]
    rfl
  simp only [pageReply, hk, hpath]

theorem drop_succ_of_drop {k : ℕ} {answer : Answer} {unused : List Answer}
    (h : answers.drop k = answer :: unused) : answers.drop (k + 1) = unused := by
  rw [← List.tail_drop, h, List.tail_cons]

/-- A page that fails ends the fetch. -/
theorem fetchFrom_of_fails {k : ℕ} {e : ClientError} (h : Fails d path size answers k e)
    (rows : List α) : fetchFrom d path size (k * size) rows (answers.drop k) =
      ⟨[pageRequest path size k], .error e, answers.drop (k + 1)⟩ := by
  have hread := readPage_eq_error_iff.2 h
  cases hdrop : answers.drop k with
  | nil =>
    have hk : answers.length ≤ k := List.drop_eq_nil_iff.1 hdrop
    simp only [pageReply, List.getElem?_eq_none hk, readPage, Except.error.injEq] at hread
    rw [fetchFrom, get_pagePath, hread, List.drop_eq_nil_of_le (by omega)]
  | cons answer unused =>
    rw [← readPage_of_drop hdrop] at hread
    simp only [fetchFrom, hread, drop_succ_of_drop hdrop, get_pagePath]

/-- A page that arrives is kept; it ends the fetch if it is short, and else the next page follows.
-/
theorem fetchFrom_of_arrives {k : ℕ} {more : List α} (h : Arrives d path size answers k more)
    (rows : List α) : fetchFrom d path size (k * size) rows (answers.drop k) =
      if more.length < size then
        ⟨[pageRequest path size k], .ok (rows ++ more), answers.drop (k + 1)⟩
      else (fetchFrom d path size ((k + 1) * size) (rows ++ more) (answers.drop (k + 1))).after
        (pageRequest path size k) := by
  have hread := readPage_eq_ok_iff.2 h
  cases hdrop : answers.drop k with
  | nil => exact absurd h.lt_length (Nat.not_lt.2 (List.drop_eq_nil_iff.1 hdrop))
  | cons answer unused =>
    rw [← readPage_of_drop hdrop] at hread
    simp only [fetchFrom, hread, drop_succ_of_drop hdrop, get_pagePath, Nat.succ_mul]

/-! ### Full pages in a row -/

theorem fullPages_nil : FullPages d path size answers [] := by
  intro k h
  simp at h

theorem fullPages_concat_iff {pages : List (List α)} {page : List α} :
    FullPages d path size answers (pages ++ [page]) ↔
      FullPages d path size answers pages ∧
        Arrives d path size answers pages.length page ∧ size ≤ page.length := by
  constructor
  · intro h
    refine ⟨fun k hk => ?_, ?_⟩
    · have := h k (by simp; omega)
      rwa [List.getElem_append_left hk] at this
    · simpa using h pages.length (by simp)
  · rintro ⟨h, hpage⟩ k hk
    rcases Nat.lt_or_ge k pages.length with hlt | hge
    · rw [List.getElem_append_left hlt]
      exact h k hlt
    · have hk' : k = pages.length := by simp at hk; omega
      subst hk'
      simpa using hpage

/-- Full pages are asked for one after another, and their rows are kept. -/
theorem fetchFrom_of_fullPages {pages : List (List α)}
    (h : FullPages d path size answers pages) :
    let rest := fetchFrom d path size (pages.length * size) pages.flatten
      (answers.drop pages.length)
    fetchFrom d path size 0 [] answers =
      ⟨(List.range pages.length).map (pageRequest path size) ++ rest.requests, rest.result,
        rest.unused⟩ := by
  induction pages using List.reverseRecOn with
  | nil => simp
  | append_singleton pages page ih =>
    obtain ⟨hpages, hpage, hfull⟩ := fullPages_concat_iff.1 h
    rw [ih hpages]
    simp only [fetchFrom_of_arrives hpage, Nat.not_lt.2 hfull, if_false, Outcome.after, List.length_append,
      List.length_singleton, List.flatten_concat, List.range_succ, List.map_append, List.map_cons,
      List.map_nil, List.append_assoc, List.singleton_append]

/-- Every run meets a page that is not full: at the latest the one behind the last answer. -/
theorem exists_fullPages (d : Json.Decoder α) (path : String) (size : ℕ) (answers : List Answer) :
    ∃ pages, FullPages d path size answers pages ∧
      ((∃ last, Arrives d path size answers pages.length last ∧ last.length < size) ∨
        ∃ e, Fails d path size answers pages.length e) := by
  by_contra hnone
  -- without such a page there are as many full pages as one likes
  have grow : ∀ n, ∃ pages, FullPages d path size answers pages ∧ pages.length = n := by
    intro n
    induction n with
    | zero => exact ⟨[], fullPages_nil, rfl⟩
    | succ n ih =>
      obtain ⟨pages, hpages, rfl⟩ := ih
      rcases arrives_or_fails d path size answers pages.length with ⟨page, hpage⟩ | ⟨e, he⟩
      · have hfull : size ≤ page.length := by
          by_contra hshort
          exact hnone ⟨pages, hpages, .inl ⟨page, hpage, by omega⟩⟩
        exact ⟨pages ++ [page], fullPages_concat_iff.2 ⟨hpages, hpage, hfull⟩, by simp⟩
      · exact absurd ⟨pages, hpages, .inr ⟨e, he⟩⟩ hnone
  obtain ⟨pages, hpages, hlen⟩ := grow (answers.length + 1)
  have := (hpages answers.length (by omega)).1.lt_length
  omega

/-! ### The whole run -/

/-- A fetch whose pages are full up to one that is short succeeds, and asks for no page behind it.
-/
theorem fetchAll_of_short {step : ℕ} {pages : List (List α)} {last : List α}
    (h : FullPages d path (max step 1) answers pages)
    (hlast : Arrives d path (max step 1) answers pages.length last)
    (hshort : last.length < max step 1) :
    fetchAll d step path answers =
      ⟨(List.range (pages.length + 1)).map (pageRequest path (max step 1)),
        .ok (pages.flatten ++ last), answers.drop (pages.length + 1)⟩ := by
  rw [fetchAll, fetchFrom_of_fullPages h, fetchFrom_of_arrives hlast, if_pos hshort, List.range_succ,
    List.map_append]
  rfl

/-- A fetch whose pages are full up to one that fails has the error of that page, and asks for no
page behind it. -/
theorem fetchAll_of_fails {step : ℕ} {pages : List (List α)} {e : ClientError}
    (h : FullPages d path (max step 1) answers pages)
    (hfails : Fails d path (max step 1) answers pages.length e) :
    fetchAll d step path answers =
      ⟨(List.range (pages.length + 1)).map (pageRequest path (max step 1)), .error e,
        answers.drop (pages.length + 1)⟩ := by
  rw [fetchAll, fetchFrom_of_fullPages h, fetchFrom_of_fails hfails, List.range_succ,
    List.map_append]
  rfl

/-- How every fetch ends: full pages, and then one that is short or fails. -/
theorem exists_fetchAll_eq (d : Json.Decoder α) (step : ℕ) (path : String)
    (answers : List Answer) :
    ∃ pages result, FullPages d path (max step 1) answers pages ∧
      fetchAll d step path answers =
        ⟨(List.range (pages.length + 1)).map (pageRequest path (max step 1)), result,
          answers.drop (pages.length + 1)⟩ ∧
      ((∃ last, Arrives d path (max step 1) answers pages.length last ∧
          last.length < max step 1 ∧ result = .ok (pages.flatten ++ last)) ∨
        ∃ e, Fails d path (max step 1) answers pages.length e ∧ result = .error e) := by
  obtain ⟨pages, hpages, ⟨last, hlast, hshort⟩ | ⟨e, he⟩⟩ :=
    exists_fullPages d path (max step 1) answers
  · exact ⟨pages, _, hpages, fetchAll_of_short hpages hlast hshort, .inl ⟨last, hlast, hshort, rfl⟩⟩
  · exact ⟨pages, _, hpages, fetchAll_of_fails hpages he, .inr ⟨e, he, rfl⟩⟩

/-- **The run law of a fetch**, whatever the store answers.  The requests are those for page `0`,
`1`, `2`, … of the path, and the next page is asked for if and only if all pages so far came with as
many rows as were asked for or more.  The fetch succeeds if and only if a page comes with fewer rows
and all before it were full, and its rows are then those of the pages in their order; otherwise its
error is that of the first page that fails.  No answer behind that page is used. -/
theorem fetchAll_run (d : Json.Decoder α) (step : ℕ) (path : String) (answers : List Answer) :
    let size := max step 1
    let run := fetchAll d step path answers
    run.requests ≠ [] ∧
      run.requests = (List.range run.requests.length).map (pageRequest path size) ∧
      (∀ k, k + 1 < run.requests.length ↔
        ∀ j ≤ k, ∃ rows, Arrives d path size answers j rows ∧ size ≤ rows.length) ∧
      (∀ rows, run.result = .ok rows ↔ ∃ pages last, FullPages d path size answers pages ∧
        Arrives d path size answers pages.length last ∧ last.length < size ∧
        rows = pages.flatten ++ last) ∧
      (∀ e, run.result = .error e ↔ ∃ pages, FullPages d path size answers pages ∧
        Fails d path size answers pages.length e) ∧
      run.unused = answers.drop run.requests.length := by
  intro size run
  obtain ⟨pages, result, hpages, hrun, hend⟩ := exists_fetchAll_eq d step path answers
  have hlength : run.requests.length = pages.length + 1 := by simp [run, hrun]
  have hresult : run.result = result := by rw [show run = _ from hrun]
  refine ⟨by simp [run, hrun], by simp [run, hrun, size], fun k => ?_, fun rows => ?_,
    fun e => ?_, by simp [run, hrun]⟩
  · rw [hlength]
    constructor
    · intro hk j hj
      exact ⟨_, hpages j (by omega)⟩
    · intro hall
      by_contra hk
      -- the page behind the full ones would be full as well
      obtain ⟨rows, hrows, hfull⟩ := hall pages.length (by omega)
      rcases hend with ⟨last, hlast, hshort, -⟩ | ⟨e, he, -⟩
      · rw [hrows.unique hlast] at hfull
        omega
      · exact hrows.not_fails he
  · constructor
    · intro hok
      rw [hresult] at hok
      rcases hend with ⟨last, hlast, hshort, rfl⟩ | ⟨e, -, rfl⟩
      · exact ⟨pages, last, hpages, hlast, hshort, (Except.ok.inj hok).symm⟩
      · cases hok
    · rintro ⟨pages', last, hpages', hlast, hshort, rfl⟩
      exact congrArg Outcome.result (fetchAll_of_short hpages' hlast hshort)
  · constructor
    · intro herror
      rw [hresult] at herror
      rcases hend with ⟨last, -, -, rfl⟩ | ⟨e', he, rfl⟩
      · cases herror
      · exact ⟨pages, hpages, Except.error.inj herror ▸ he⟩
    · rintro ⟨pages', hpages', he⟩
      exact congrArg Outcome.result (fetchAll_of_fails hpages' he)

end Paging

end NodeInventory
