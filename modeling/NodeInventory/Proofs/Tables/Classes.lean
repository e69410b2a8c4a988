import NodeInventory.Rows
import Mathlib.Data.List.Induction
import Mathlib.Data.List.Nodup
import Mathlib.Data.List.Perm.Basic

/-!
# The table of classes

`HostClasses.ofMemberships` adds the rows of a listing one by one.  A table of the rows so far lists
the hosts in the order in which they first came, and with each host the titles of its rows.

* `HostClasses.hosts_add`, `HostClasses.titles_add` : what one row does to a table;
* `HostClasses.titles_ofMemberships`, `HostClasses.mem_hosts_ofMemberships` : the whole table;
* `HostClasses.titles_takeOut` : a host that is taken out of a table leaves the titles of all
  others;
* `HostClasses.isTableOf_ofMemberships` : a listing in strictly ascending order has a table with
  both its hosts and their titles in that order.
-/

namespace NodeInventory

namespace HostClasses

/-- The hosts of a table. -/
def hosts (table : HostClasses) : List String := table.map (·.1)

theorem hosts_cons (entry : String × List String) (table : HostClasses) :
    hosts (entry :: table) = entry.1 :: hosts table := rfl

theorem hosts_add (host title : String) (table : HostClasses) :
    hosts (add host title table) =
      if host ∈ hosts table then hosts table else hosts table ++ [host] := by
  induction table with
  | nil => rfl
  | cons entry table ih =>
    obtain ⟨h, titles⟩ := entry
    by_cases hh : h = host
    · simp [add, hosts_cons, hh]
    · have hmem : host ∈ hosts ((h, titles) :: table) ↔ host ∈ hosts table := by
        simp [hosts_cons, Ne.symm hh]
      rw [add, if_neg hh, hosts_cons, ih]
      by_cases hin : host ∈ hosts table
      · rw [if_pos hin, if_pos (hmem.2 hin), hosts_cons]
      · rw [if_neg hin, if_neg fun h => hin (hmem.1 h), hosts_cons, List.cons_append]

theorem mem_hosts_add {host title h : String} {table : HostClasses} :
    h ∈ hosts (add host title table) ↔ h ∈ hosts table ∨ h = host := by
  rw [hosts_add]
  split
  · next hmem =>
    constructor
    · exact .inl
    · rintro (hh | rfl)
      · exact hh
      · exact hmem
  · rw [List.mem_append, List.mem_singleton]

/-- A row adds its title to those of its host, and to no others. -/
theorem titles_add (host title h : String) (table : HostClasses) :
    titles h (add host title table) =
      if h = host then titles h table ++ [title] else titles h table := by
  induction table with
  | nil =>
    by_cases hh : h = host
    · simp [add, titles, hh]
    · simp [add, titles, hh, Ne.symm hh]
  | cons entry table ih =>
    obtain ⟨g, ts⟩ := entry
    by_cases hg : g = host
    · subst hg
      by_cases hh : h = g
      · simp [add, titles, hh]
      · simp [add, titles, hh, Ne.symm hh]
    · rw [add, if_neg hg]
      by_cases hgh : g = h
      · have hh : h ≠ host := fun e => hg (hgh.trans e)
        simp [titles, hgh, hh]
      · simpa [titles, hgh] using ih

theorem titles_of_mem {table : HostClasses} (hnodup : (hosts table).Nodup) {h : String}
    {ts : List String} (hmem : (h, ts) ∈ table) : titles h table = ts := by
  induction table with
  | nil => cases hmem
  | cons entry table ih =>
    obtain ⟨g, us⟩ := entry
    rw [hosts, List.map_cons, List.nodup_cons] at hnodup
    rcases List.mem_cons.1 hmem with heq | hmem
    · cases heq
      simp [titles]
    · have hg : g ≠ h := by
        rintro rfl
        exact hnodup.1 (List.mem_map.2 ⟨_, hmem, rfl⟩)
      have := ih hnodup.2 hmem
      simpa [titles, hg] using this

theorem titles_of_not_mem {table : HostClasses} {h : String} (hmem : h ∉ hosts table) :
    titles h table = [] := by
  have hnone : table.find? (fun entry => decide (entry.1 = h)) = none := by
    rw [List.find?_eq_none]
    intro entry hentry heq
    exact hmem (List.mem_map.2 ⟨entry, hentry, of_decide_eq_true heq⟩)
  rw [titles, hnone]

theorem titles_congr {table table' : HostClasses} (hnodup : (hosts table).Nodup)
    (hnodup' : (hosts table').Nodup) {h : String}
    (hmem : ∀ ts, (h, ts) ∈ table ↔ (h, ts) ∈ table') : titles h table = titles h table' := by
  by_cases hin : h ∈ hosts table
  · obtain ⟨⟨_, ts⟩, hts, rfl⟩ := List.mem_map.1 hin
    rw [titles_of_mem hnodup hts, titles_of_mem hnodup' ((hmem ts).1 hts)]
  · have hin' : h ∉ hosts table' := by
      intro hin'
      obtain ⟨⟨_, ts⟩, hts, rfl⟩ := List.mem_map.1 hin'
      exact hin (List.mem_map.2 ⟨_, (hmem ts).2 hts, rfl⟩)
    rw [titles_of_not_mem hin, titles_of_not_mem hin']

/-! ### Taking a host out -/

/-- With the last item in the place of another one, a list has all items but that one. -/
theorem dropLast_set_perm_eraseIdx {α : Type} {l : List α} {last : α} (hlast : l.getLast? = some last)
    {i : ℕ} (hi : i < l.length) : (l.set i last).dropLast.Perm (l.eraseIdx i) := by
  have hlast' : (l.set i last).getLast? = some last := by
    rw [List.getLast?_eq_getElem?] at hlast ⊢
    rw [List.length_set, List.getElem?_set]
    split
    · simp
    · exact hlast
  -- behind both, the last item makes the list with `last` in that place
  have hset := List.set_perm_cons_eraseIdx hi last
  rw [← List.dropLast_append_getLast? last hlast'] at hset
  exact ((List.perm_append_singleton ..).symm.trans hset).cons_inv

theorem getD_takeOut (host : String) (table : HostClasses) :
    (takeOut host table).1.getD [] = titles host table := by
  rw [titles, List.find?_eq_bind_findIdx?_getElem?]
  unfold takeOut
  cases hi : table.findIdx? fun h => decide (h.1 = host) with
  | none => rfl
  | some i =>
    obtain ⟨hlt, -⟩ := List.findIdx?_eq_some_iff_getElem.1 hi
    cases hlast : table.getLast? with
    | none =>
      rw [List.getLast?_eq_none_iff.1 hlast] at hlt
      cases hlt
    | some last => simp [hlt]

/-- What is left are the entries of the other hosts. -/
theorem takeOut_perm (host : String) (table : HostClasses) :
    (takeOut host table).2.Perm (table.eraseP fun h => h.1 = host) := by
  rw [List.eraseP_eq_eraseIdx]
  unfold takeOut
  cases hi : table.findIdx? fun h => decide (h.1 = host) with
  | none => exact List.Perm.refl _
  | some i =>
    obtain ⟨hlt, -⟩ := List.findIdx?_eq_some_iff_getElem.1 hi
    cases hlast : table.getLast? with
    | none =>
      rw [List.getLast?_eq_none_iff.1 hlast] at hlt
      cases hlt
    | some last => exact dropLast_set_perm_eraseIdx hlast hlt

theorem nodup_hosts_takeOut {table : HostClasses} (hnodup : (hosts table).Nodup) (host : String) :
    (hosts (takeOut host table).2).Nodup :=
  (((takeOut_perm host table).map _).nodup_iff).2 (hnodup.sublist (List.eraseP_sublist.map _))

/-- Every other host keeps its titles, wherever its entry goes. -/
theorem titles_takeOut {table : HostClasses} (hnodup : (hosts table).Nodup) {host h : String}
    (hne : h ≠ host) : titles h (takeOut host table).2 = titles h table := by
  refine titles_congr (nodup_hosts_takeOut hnodup host) hnodup fun ts => ?_
  rw [(takeOut_perm host table).mem_iff]
  exact List.mem_eraseP_of_neg (by simpa using hne)

-- the last host comes into the place of the one that has been taken out
example : takeOut "web1" [("web1", ["Ntp"]), ("web2", []), ("web3", ["Ssh"])] =
    (some ["Ntp"], [("web3", ["Ssh"]), ("web2", [])]) := by
  decide

/-! ### All rows of a listing -/

theorem ofMemberships_concat (rows : List Membership) (row : Membership) :
    ofMemberships (rows ++ [row]) = add row.certname row.title (ofMemberships rows) := by
  rw [ofMemberships, List.foldl_append]
  rfl

theorem mem_hosts_ofMemberships {rows : List Membership} {host : String} :
    host ∈ hosts (ofMemberships rows) ↔ ∃ row ∈ rows, row.certname = host := by
  induction rows using List.reverseRecOn with
  | nil => simp [ofMemberships, hosts]
  | append_singleton rows row ih =>
    rw [ofMemberships_concat, mem_hosts_add, ih]
    simp [or_and_right, exists_or, eq_comm]

theorem nodup_hosts_ofMemberships (rows : List Membership) :
    (hosts (ofMemberships rows)).Nodup := by
  induction rows using List.reverseRecOn with
  | nil => exact List.nodup_nil
  | append_singleton rows row ih =>
    rw [ofMemberships_concat, hosts_add]
    split
    · exact ih
    · next hnew =>
      rw [← List.concat_eq_append]
      exact ih.concat hnew

/-- The titles of a host are those of its rows, as they came. -/
theorem titles_ofMemberships (rows : List Membership) (host : String) :
    titles host (ofMemberships rows) =
      (rows.filter fun row => row.certname = host).map (·.title) := by
  induction rows using List.reverseRecOn with
  | nil => rfl
  | append_singleton rows row ih =>
    rw [ofMemberships_concat, titles_add, ih, List.filter_append, List.map_append]
    by_cases hh : host = row.certname
    · simp [hh]
    · simp [hh, Ne.symm hh]

/-! ### Listings in ascending order -/

/-- The table has just the rows: hosts in strictly ascending order and with each host the titles of
its rows, each once, in strictly ascending order. -/
structure IsTableOf (collate : String → String → Ordering) (rows : List Membership)
    (table : HostClasses) : Prop where
  hosts_ascending : (hosts table).Pairwise fun g h => collate g h = .lt
  mem_hosts : ∀ host, host ∈ hosts table ↔ ∃ row ∈ rows, row.certname = host
  titles_ascending : ∀ entry ∈ table, entry.2.Pairwise fun s t => collate s t = .lt
  mem_titles : ∀ entry ∈ table, ∀ title, title ∈ entry.2 ↔ ⟨entry.1, title⟩ ∈ rows

variable {collate : String → String → Ordering}

theorem IsTableOf.of_perm {rows rows' : List Membership} {table : HostClasses}
    (h : IsTableOf collate rows table) (hperm : rows.Perm rows') : IsTableOf collate rows' table where
  hosts_ascending := h.hosts_ascending
  mem_hosts host := by
    simp only [h.mem_hosts, hperm.mem_iff]
  titles_ascending := h.titles_ascending
  mem_titles entry hentry title := by
    rw [h.mem_titles entry hentry, hperm.mem_iff]

/-- Two memberships by host, and by title where the host is the same. -/
def compareMemberships (collate : String → String → Ordering) (a b : Membership) : Ordering :=
  (collate a.certname b.certname).then (collate a.title b.title)

theorem eq_of_compareMemberships [Std.LawfulEqCmp collate] {a b : Membership}
    (h : compareMemberships collate a b = .eq) : a = b := by
  obtain ⟨hhost, htitle⟩ := Ordering.then_eq_eq.1 h
  cases a
  cases b
  cases Std.LawfulEqCmp.eq_of_compare hhost
  cases Std.LawfulEqCmp.eq_of_compare htitle
  rfl

theorem hosts_ofMemberships_ascending [Std.LawfulEqCmp collate] {rows : List Membership}
    (hrows : rows.Pairwise fun a b => compareMemberships collate a b = .lt) :
    (hosts (ofMemberships rows)).Pairwise fun g h => collate g h = .lt := by
  induction rows using List.reverseRecOn with
  | nil => exact List.Pairwise.nil
  | append_singleton rows row ih =>
    obtain ⟨hrows, -, hlast⟩ := List.pairwise_append.1 hrows
    rw [ofMemberships_concat, hosts_add]
    split
    · exact ih hrows
    · next hnew =>
      refine List.pairwise_append.2 ⟨ih hrows, List.pairwise_singleton .., ?_⟩
      intro g hg h hh
      obtain rfl := List.mem_singleton.1 hh
      obtain ⟨r, hr, rfl⟩ := mem_hosts_ofMemberships.1 hg
      -- the host of an earlier row is not behind a new one, and is another one
      have hlt := hlast r hr row List.mem_cons_self
      have hne : collate r.certname row.certname ≠ .eq := fun heq =>
        hnew (Std.LawfulEqCmp.eq_of_compare heq ▸ hg)
      revert hlt hne
      rw [compareMemberships]
      cases collate r.certname row.certname <;> simp

theorem titles_ofMemberships_ascending [Std.LawfulEqCmp collate] {rows : List Membership}
    (hrows : rows.Pairwise fun a b => compareMemberships collate a b = .lt) (host : String) :
    (titles host (ofMemberships rows)).Pairwise fun s t => collate s t = .lt := by
  rw [titles_ofMemberships, List.pairwise_map]
  refine (hrows.filter _).imp_of_mem fun {a b} ha hb hab => ?_
  have ha' : a.certname = host := by simpa using List.of_mem_filter ha
  have hb' : b.certname = host := by simpa using List.of_mem_filter hb
  have hself : collate host host = .eq := Std.ReflCmp.compare_self
  rwa [compareMemberships, ha', hb', hself] at hab

/-- A listing in strictly ascending order has a table in that order. -/
theorem isTableOf_ofMemberships [Std.LawfulEqCmp collate] {rows : List Membership}
    (hrows : rows.Pairwise fun a b => compareMemberships collate a b = .lt) :
    IsTableOf collate rows (ofMemberships rows) := by
  have htitles : ∀ entry ∈ ofMemberships rows,
      titles entry.1 (ofMemberships rows) = entry.2 :=
    fun entry hentry => titles_of_mem (nodup_hosts_ofMemberships rows) hentry
  refine ⟨hosts_ofMemberships_ascending hrows, fun host => mem_hosts_ofMemberships,
    fun entry hentry => ?_, fun entry hentry title => ?_⟩
  · rw [← htitles entry hentry]
    exact titles_ofMemberships_ascending hrows entry.1
  · rw [← htitles entry hentry, titles_ofMemberships]
    simp only [List.mem_map, List.mem_filter, decide_eq_true_eq]
    constructor
    · rintro ⟨row, ⟨hrow, hhost⟩, rfl⟩
      exact hhost ▸ hrow
    · exact fun hrow => ⟨_, ⟨hrow, rfl⟩, rfl⟩

end HostClasses

end NodeInventory
