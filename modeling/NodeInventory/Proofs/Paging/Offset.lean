import NodeInventory.Proofs.Json.Records
import NodeInventory.Proofs.Paging.Run
import Mathlib.Order.Nat

/-!
# The offset of a fetch in a machine word

After a full page a fetch adds the size of a page to its offset.  A program that keeps the offset in
a word of 64 bits would stop at a sum that is no word, or ask for a wrong page.  But the offset
never outgrows the rows: each page that it has passed brought as many rows as were asked for, or
more.  So words do as natural numbers do, as long as the number of the rows is a word.

* `Paging.Counter` : a way of keeping the offset, and the loop of a fetch that keeps it in this way
  (`Counter.loop`), with its state before each request;
* `Paging.Counter.makes_exact` : with natural numbers, the loop is that of `Paging.fetchFrom`;
* `Paging.State.OnTrack` : what ties the offset to the rows; one turn keeps it
  (`OnTrack.of_turn`), and so does a run (`OnTrack.of_getElem?`);
* `Paging.Counter.turn_words_of_goesOn` : one turn with words is one with natural numbers, and so is
  a run, up to a request (`Counter.getElem?_states_words`) or to its end (`Counter.makes_words`);
* `Paging.offset_exact` : the offset of every request, for all sizes of pages and all answers.
-/

namespace NodeInventory

namespace Paging

variable {ω α : Type}

/-! ### The loop -/

/-- Where a fetch is before a request: the offset that it asks from, and the rows that it has. -/
@[ext]
structure State (ω α : Type) where
  offset : ω
  rows : List α

/-- What the answer to a request leads to. -/
inductive Turn (ω α : Type) where
  | ends (result : Except ClientError (List α))
  /-- There is no offset to go on with. -/
  | stops
  | goesOn (s : State ω α)

/-- What became of a loop. -/
structure Trace (ω α : Type) where
  /-- The states before the requests. -/
  states : List (State ω α)
  /-- The result, unless the loop stopped for want of an offset. -/
  result : Option (Except ClientError (List α))
  /-- The answers that were not used. -/
  unused : List Answer

/-- The trace with a state in front of the others. -/
def Trace.after (s : State ω α) (t : Trace ω α) : Trace ω α := { t with states := s :: t.states }

/-- A way of keeping the offset: the number that it stands for, and the offset of the next page,
unless the program stops instead. -/
structure Counter (ω : Type) where
  number : ω → ℕ
  next : ω → Option ω

namespace Counter

/-- Natural numbers, for pages of a size. -/
def exact (size : ℕ) : Counter ℕ := ⟨id, fun offset => some (offset + size)⟩

/-- Words of 64 bits, for pages of a size.  Where the sum is no word, programs differ: they stop, or
go on with some word, as `overflow` says. -/
def words (size : UInt64) (overflow : UInt64 → Option UInt64) : Counter UInt64 where
  number := UInt64.toNat
  next offset :=
    if offset.toNat + size.toNat < UInt64.size then some (offset + size) else overflow offset

variable (c : Counter ω) (d : Json.Decoder α) (path : String) (size : ℕ)

/-- The request that is made in a state. -/
def request (s : State ω α) : Request := .get (pagePath path size (c.number s.offset))

/-- The rows that an answer to the request of a state brings. -/
def read (s : State ω α) (answer : Answer) : Except ClientError (List α) :=
  readPage d (pagePath path size (c.number s.offset)) (answer (c.request path size s))

/-- One turn of the loop, from a state and the answer to its request. -/
def turn (s : State ω α) (answer : Answer) : Turn ω α :=
  match c.read d path size s answer with
  | .error e => .ends (.error e)
  | .ok more =>
    if more.length < size then .ends (.ok (s.rows ++ more))
    else match c.next s.offset with
      | some offset => .goesOn ⟨offset, s.rows ++ more⟩
      | none => .stops

/-- The loop of a fetch from a state on. -/
def loop (s : State ω α) : List Answer → Trace ω α
  | [] => ⟨[s], some (.error .endOfAnswers), []⟩
  | answer :: unused =>
    match c.turn d path size s answer with
    | .ends result => ⟨[s], some result, unused⟩
    | .stops => ⟨[s], none, unused⟩
    | .goesOn s' => (loop s' unused).after s

/-- A trace is that of a fetch with this outcome. -/
def Makes (t : Trace ω α) (o : Outcome (List α)) : Prop :=
  t.states.map (c.request path size) = o.requests ∧ t.result = some o.result ∧ t.unused = o.unused

variable {c d path size} {s s' : State ω α} {answer : Answer} {answers : List Answer}

/-! ### What a turn does -/

theorem turn_eq_ends_iff {result : Except ClientError (List α)} :
    c.turn d path size s answer = .ends result ↔
      (∃ e, c.read d path size s answer = .error e ∧ result = .error e) ∨
        ∃ more, c.read d path size s answer = .ok more ∧ more.length < size ∧
          result = .ok (s.rows ++ more) := by
  rw [turn]
  cases c.read d path size s answer with
  | error e => simp [eq_comm]
  | ok more =>
    by_cases hshort : more.length < size
    · simp [hshort, eq_comm]
    · cases hnext : c.next s.offset <;> simp [hshort]

theorem turn_eq_goesOn_iff :
    c.turn d path size s answer = .goesOn s' ↔
      ∃ more, c.read d path size s answer = .ok more ∧ size ≤ more.length ∧
        c.next s.offset = some s'.offset ∧ s'.rows = s.rows ++ more := by
  rw [turn]
  cases c.read d path size s answer with
  | error e => simp
  | ok more =>
    by_cases hshort : more.length < size
    · simp [hshort, Nat.not_le.2 hshort]
    · cases hnext : c.next s.offset <;>
        simp [hshort, Nat.le_of_not_lt hshort, State.ext_iff, eq_comm]

theorem turn_ne_stops {offset : ω} (h : c.next s.offset = some offset) :
    c.turn d path size s answer ≠ .stops := by
  rw [turn, h]
  cases c.read d path size s answer with
  | error e => simp
  | ok more => by_cases hshort : more.length < size <;> simp [hshort]

/-! ### The states of a loop -/

theorem getElem?_states_zero : (c.loop d path size s answers).states[0]? = some s := by
  cases answers with
  | nil => rfl
  | cons answer unused =>
    rw [loop]
    split <;> rfl

theorem getElem?_states_succ_iff {k : ℕ} :
    (c.loop d path size s answers).states[k + 1]? = some s' ↔
      ∃ answer unused s₁, answers = answer :: unused ∧ c.turn d path size s answer = .goesOn s₁ ∧
        (c.loop d path size s₁ unused).states[k]? = some s' := by
  cases answers with
  | nil => simp [loop]
  | cons answer unused =>
    cases hturn : c.turn d path size s answer <;> simp [loop, hturn, Trace.after]

theorem Makes.after {t : Trace ω α} {o : Outcome (List α)} (h : c.Makes path size t o)
    (s : State ω α) : c.Makes path size (t.after s) (o.after (c.request path size s)) :=
  ⟨congrArg (c.request path size s :: ·) h.1, h.2⟩

/-! ### Natural numbers -/

/-- With natural numbers, the loop is that of the fetch. -/
theorem makes_exact (d : Json.Decoder α) (path : String) (size : ℕ) (s : State ℕ α)
    (answers : List Answer) :
    (exact size).Makes path size ((exact size).loop d path size s answers)
      (fetchFrom d path size s.offset s.rows answers) := by
  induction answers generalizing s with
  | nil => exact ⟨rfl, rfl, rfl⟩
  | cons answer unused ih =>
    have hread : (exact size).read d path size s answer =
      readPage d (pagePath path size s.offset) (answer (.get (pagePath path size s.offset))) := rfl
    rw [loop, fetchFrom, turn, hread]
    cases readPage d (pagePath path size s.offset)
        (answer (.get (pagePath path size s.offset))) with
    | error e => exact ⟨rfl, rfl, rfl⟩
    | ok more =>
      by_cases hshort : more.length < size
      · simp only [if_pos hshort]
        exact ⟨rfl, rfl, rfl⟩
      · simp only [if_neg hshort]
        exact (ih ⟨s.offset + size, s.rows ++ more⟩).after s

theorem offset_le_of_getElem? {s s' : State ℕ α} {k : ℕ}
    (h : ((exact size).loop d path size s answers).states[k]? = some s') :
    s.offset ≤ s'.offset := by
  induction k generalizing s answers with
  | zero =>
    rw [getElem?_states_zero] at h
    exact Option.some.inj h ▸ Nat.le_refl _
  | succ k ih =>
    obtain ⟨answer, unused, s₁, -, hturn, h⟩ := getElem?_states_succ_iff.1 h
    obtain ⟨more, -, -, hnext, -⟩ := turn_eq_goesOn_iff.1 hturn
    have hoffset : s.offset + size = s₁.offset := Option.some.inj hnext
    exact (Nat.le_add_right _ _).trans (hoffset.trans_le (ih h))

end Counter

/-! ### The offset and the rows -/

theorem FullPages.length_mul_le {d : Json.Decoder α} {path : String} {size : ℕ}
    {answers : List Answer} {pages : List (List α)} (h : FullPages d path size answers pages) :
    pages.length * size ≤ pages.flatten.length := by
  induction pages using List.reverseRecOn with
  | nil => simp
  | append_singleton pages page ih =>
    obtain ⟨hpages, -, hfull⟩ := fullPages_concat_iff.1 h
    rw [List.length_append, List.length_singleton, Nat.succ_mul, List.flatten_concat,
      List.length_append]
    exact Nat.add_le_add (ih hpages) hfull

namespace State

/-- The state before request `k`: all pages so far were full, the rows are theirs, and the offset is
that of page `k`. -/
structure OnTrack (d : Json.Decoder α) (path : String) (size : ℕ) (answers : List Answer) (k : ℕ)
    (s : State ℕ α) : Prop where
  offset_eq : s.offset = k * size
  exists_pages : ∃ pages, FullPages d path size answers pages ∧ pages.length = k ∧
    s.rows = pages.flatten

namespace OnTrack

variable {d : Json.Decoder α} {path : String} {size j k : ℕ} {answers : List Answer}
  {s s' : State ℕ α}

theorem start (d : Json.Decoder α) (path : String) (size : ℕ) (answers : List Answer) :
    OnTrack d path size answers 0 ⟨0, []⟩ :=
  ⟨(Nat.zero_mul size).symm, [], fullPages_nil, rfl, rfl⟩

theorem offset_le (h : s.OnTrack d path size answers k) : s.offset ≤ s.rows.length := by
  obtain ⟨pages, hpages, rfl, hrows⟩ := h.exists_pages
  rw [h.offset_eq, hrows]
  exact hpages.length_mul_le

/-- One turn stays on track. -/
theorem of_turn {answer : Answer} {unused : List Answer} (h : s.OnTrack d path size answers k)
    (hdrop : answers.drop k = answer :: unused)
    (hturn : (Counter.exact size).turn d path size s answer = .goesOn s') :
    s'.OnTrack d path size answers (k + 1) := by
  obtain ⟨hoffset, pages, hpages, rfl, hrows⟩ := h
  obtain ⟨more, hread, hfull, hnext, hrows'⟩ := Counter.turn_eq_goesOn_iff.1 hturn
  have hoffset' : s.offset + size = s'.offset := Option.some.inj hnext
  have harrives : Arrives d path size answers pages.length more := by
    rw [← readPage_eq_ok_iff, ← readPage_of_drop hdrop, ← get_pagePath, ← hoffset]
    exact hread
  refine ⟨?_, pages ++ [more], fullPages_concat_iff.2 ⟨hpages, harrives, hfull⟩, by simp, ?_⟩
  · rw [← hoffset', hoffset, Nat.succ_mul]
  · rw [hrows', hrows, List.flatten_concat]

/-- All turns of a run stay on track. -/
theorem of_getElem? (h : s.OnTrack d path size answers j)
    (hk : ((Counter.exact size).loop d path size s (answers.drop j)).states[k]? = some s') :
    s'.OnTrack d path size answers (j + k) := by
  induction k generalizing s j with
  | zero =>
    rw [Counter.getElem?_states_zero] at hk
    exact Option.some.inj hk ▸ h
  | succ k ih =>
    obtain ⟨answer, unused, s₁, hdrop, hturn, hk⟩ := Counter.getElem?_states_succ_iff.1 hk
    rw [← drop_succ_of_drop hdrop] at hk
    have hs' := ih (h.of_turn hdrop hturn) hk
    rwa [Nat.add_right_comm] at hs'

end OnTrack

/-- A state that keeps its offset in a word, with the number that the word stands for. -/
def toNat (w : State UInt64 α) : State ℕ α := ⟨w.offset.toNat, w.rows⟩

end State

/-! ### Words -/

/-- A trace that keeps the offsets in words, with the numbers that they stand for. -/
def Trace.toNat (t : Trace UInt64 α) : Trace ℕ α := ⟨t.states.map State.toNat, t.result, t.unused⟩

namespace Counter

variable {d : Json.Decoder α} {path : String} {size : UInt64} {answers : List Answer}
  {w : State UInt64 α} {s : State ℕ α} {answer : Answer} (overflow : UInt64 → Option UInt64)

theorem turn_words_of_ends {result : Except ClientError (List α)}
    (h : (exact size.toNat).turn d path size.toNat w.toNat answer = .ends result) :
    (words size overflow).turn d path size.toNat w answer = .ends result := by
  rw [turn_eq_ends_iff] at h ⊢
  exact h

/-- A turn with words goes on as one with natural numbers does, if the next offset is a word. -/
theorem turn_words_of_goesOn
    (h : (exact size.toNat).turn d path size.toNat w.toNat answer = .goesOn s)
    (hfits : s.offset < UInt64.size) :
    ∃ w', (words size overflow).turn d path size.toNat w answer = .goesOn w' ∧ w'.toNat = s := by
  obtain ⟨more, hread, hfull, hnext, hrows⟩ := turn_eq_goesOn_iff.1 h
  have hoffset : w.offset.toNat + size.toNat = s.offset := Option.some.inj hnext
  rw [← hoffset] at hfits
  have hsum : (w.offset + size).toNat = w.offset.toNat + size.toNat := by
    rw [UInt64.toNat_add, Nat.mod_eq_of_lt hfits]
  exact ⟨⟨w.offset + size, s.rows⟩,
    turn_eq_goesOn_iff.2 ⟨more, hread, hfull, if_pos hfits, hrows⟩,
    State.ext (hsum.trans hoffset) rfl⟩

/-- Up to a request whose offset is a word, the loop with words is that with natural numbers. -/
theorem getElem?_states_words {k : ℕ}
    (hk : ((exact size.toNat).loop d path size.toNat w.toNat answers).states[k]? = some s)
    (hfits : s.offset < UInt64.size) :
    ∃ w', ((words size overflow).loop d path size.toNat w answers).states[k]? = some w' ∧
      w'.toNat = s := by
  induction k generalizing w answers with
  | zero =>
    rw [getElem?_states_zero] at hk
    exact ⟨w, getElem?_states_zero, Option.some.inj hk⟩
  | succ k ih =>
    obtain ⟨answer, unused, s₁, rfl, hturn, hk⟩ := getElem?_states_succ_iff.1 hk
    -- the offsets before it are no larger, so they are words as well
    have hfits₁ := (offset_le_of_getElem? hk).trans_lt hfits
    obtain ⟨w₁, hwords, rfl⟩ := turn_words_of_goesOn overflow hturn hfits₁
    obtain ⟨w', hw', hs⟩ := ih hk
    exact ⟨w', getElem?_states_succ_iff.2 ⟨answer, unused, w₁, rfl, hwords, hw'⟩, hs⟩

/-- If all offsets are words, the loop with words is that with natural numbers. -/
theorem toNat_loop_words
    (hfits : ∀ s ∈ ((exact size.toNat).loop d path size.toNat w.toNat answers).states,
      s.offset < UInt64.size) :
    ((words size overflow).loop d path size.toNat w answers).toNat =
      (exact size.toNat).loop d path size.toNat w.toNat answers := by
  induction answers generalizing w with
  | nil => rfl
  | cons answer unused ih =>
    cases hturn : (exact size.toNat).turn d path size.toNat w.toNat answer with
    | ends result =>
      rw [loop, loop, hturn, turn_words_of_ends overflow hturn]
      rfl
    | stops => exact absurd hturn (turn_ne_stops rfl)
    | goesOn s₁ =>
      simp only [loop, hturn, Trace.after, List.forall_mem_cons] at hfits
      have hfits₁ := hfits.2 s₁ (List.mem_of_getElem? getElem?_states_zero)
      obtain ⟨w₁, hwords, rfl⟩ := turn_words_of_goesOn overflow hturn hfits₁
      rw [loop, loop, hturn, hwords]
      exact congrArg (Trace.after w.toNat) (ih hfits.2)

/-- If all offsets are words, the loop with words is that of the fetch. -/
theorem makes_words
    (hfits : ∀ s ∈ ((exact size.toNat).loop d path size.toNat w.toNat answers).states,
      s.offset < UInt64.size) :
    (words size overflow).Makes path size.toNat
      ((words size overflow).loop d path size.toNat w answers)
      (fetchFrom d path size.toNat w.offset.toNat w.rows answers) := by
  have hexact := makes_exact d path size.toNat w.toNat answers
  rw [← toNat_loop_words overflow hfits] at hexact
  obtain ⟨hrequests, hresult, hunused⟩ := hexact
  rw [Trace.toNat, List.map_map] at hrequests
  exact ⟨hrequests, hresult, hunused⟩

end Counter

/-! ### The whole run -/

/-- **The offset never overflows.**  Before request `k` of a fetch, the offset is that of page `k`,
and the fetch has the rows of the full pages so far, which are no fewer, however long these pages
are.  So the offset is counted up to a word as long as the number of the rows is a word.  A program
that keeps the offset in a word then asks for just the same pages, whatever it does where a sum is
no word. -/
theorem offset_exact (d : Json.Decoder α) (path : String) (step : UInt64)
    (answers : List Answer) :
    let size := max step 1
    let run := (Counter.exact size.toNat).loop d path size.toNat ⟨0, []⟩ answers
    let fetch := fetchAll d step.toNat path answers
    (Counter.exact size.toNat).Makes path size.toNat run fetch ∧
      (∀ (k : ℕ) s, run.states[k]? = some s →
        s.OnTrack d path size.toNat answers k ∧ s.offset ≤ s.rows.length) ∧
      (∀ (k : ℕ) s s', run.states[k]? = some s → run.states[k + 1]? = some s' →
        s'.rows.length < UInt64.size → s.offset + size.toNat < UInt64.size) ∧
      ∀ overflow,
        let program := (Counter.words size overflow).loop d path size.toNat ⟨0, []⟩ answers
        (∀ (k : ℕ) s, run.states[k]? = some s → s.rows.length < UInt64.size →
          ∃ w, program.states[k]? = some w ∧ w.offset.toNat = k * size.toNat ∧ w.rows = s.rows ∧
            (Counter.words size overflow).request path size.toNat w =
              pageRequest path size.toNat k) ∧
        ((∀ s ∈ run.states, s.rows.length < UInt64.size) →
          (Counter.words size overflow).Makes path size.toNat program fetch) := by
  intro size run fetch
  have hsize : size.toNat = max step.toNat 1 := UInt64.toNat_max step 1
  have hfetch : fetch = fetchFrom d path size.toNat 0 [] answers := by
    rw [hsize]
    rfl
  have htrack : ∀ (k : ℕ) s, run.states[k]? = some s → s.OnTrack d path size.toNat answers k := by
    intro k s hk
    rw [← Nat.zero_add k]
    exact (State.OnTrack.start d path size.toNat answers).of_getElem? hk
  refine ⟨hfetch ▸ Counter.makes_exact d path size.toNat ⟨0, []⟩ answers,
    fun k s hk => ⟨htrack k s hk, (htrack k s hk).offset_le⟩, fun k s s' hk hk' hrows => ?_,
    fun overflow => ⟨fun k s hk hrows => ?_, fun hrows => ?_⟩⟩
  · have hnext : s.offset + size.toNat = s'.offset := by
      rw [(htrack k s hk).offset_eq, (htrack _ s' hk').offset_eq, Nat.succ_mul]
    rw [hnext]
    exact (htrack _ s' hk').offset_le.trans_lt hrows
  · have hoffset := (htrack k s hk).offset_eq
    obtain ⟨w, hw, rfl⟩ := Counter.getElem?_states_words (w := ⟨0, []⟩) overflow hk
      ((htrack k s hk).offset_le.trans_lt hrows)
    refine ⟨w, hw, hoffset, rfl, ?_⟩
    rw [← get_pagePath, ← hoffset]
    rfl
  · rw [hfetch]
    refine Counter.makes_words (w := ⟨0, []⟩) overflow fun s hs => ?_
    obtain ⟨k, hk⟩ := List.getElem?_of_mem hs
    exact (htrack k s hk).offset_le.trans_lt (hrows s hs)

/-- Pages of one row, the first of which comes with two. -/
theorem offset_exact_long_page :
    let page (names : List String) : Answer := fun _ => .ok (Json.array (names.map .string)).text
    ∃ w : State UInt64 String,
      ((Counter.words 1 fun _ => none).loop Json.Decoder.text "fact-names" 1 ⟨0, []⟩
        [page ["os", "kernel"], page []]).states[1]? = some w ∧
      w.offset.toNat = 1 ∧ w.rows = ["os", "kernel"] ∧
      (Counter.words 1 fun _ => none).request "fact-names" 1 w =
        .get "fact-names?limit=1&offset=1" := by
  intro page
  have hread : ∀ (s : State ℕ String) names,
      (Counter.exact 1).read Json.Decoder.text "fact-names" 1 s (page names) = .ok names := by
    intro s names
    have hrows := Json.Decoder.run_list_text Json.Decoder.text Json.string id
      (fun name (_ : name ∈ names) => (trivial : Json.NumbersReadBack (.string name)))
      fun name _ => Json.textOf?_writtenString name
    rw [List.map_id] at hrows
    change decodeBody (.list Json.Decoder.text) _ _ = _
    rw [decodeBody, hrows]
  have hturn : (Counter.exact 1).turn Json.Decoder.text "fact-names" 1 ⟨0, []⟩
      (page ["os", "kernel"]) = .goesOn ⟨1, ["os", "kernel"]⟩ :=
    Counter.turn_eq_goesOn_iff.2 ⟨["os", "kernel"], hread _ _, by decide, rfl, rfl⟩
  obtain ⟨-, -, -, hprogram⟩ := offset_exact Json.Decoder.text "fact-names" 0
    [page ["os", "kernel"], page []]
  exact (hprogram fun _ => none).1 1 ⟨1, ["os", "kernel"]⟩
    (Counter.getElem?_states_succ_iff.2 ⟨_, _, _, rfl, hturn, Counter.getElem?_states_zero⟩)
    (by decide)

end Paging

end NodeInventory
