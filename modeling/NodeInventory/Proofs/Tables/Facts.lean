import NodeInventory.Proofs.Json.Merge
import NodeInventory.Rows
import Mathlib.Data.List.Perm.Basic

/-!
# The table of facts

`HostFacts.ofFacts` sets the facts of a listing one by one, in a table whose hosts are in ascending
order.

* `HostFacts.hosts_set_ascending`, `HostFacts.mem_hosts_set` : the hosts of a table;
* `HostFacts.entries_set_perm` : a fact of a new name is one more entry of the table;
* `HostFacts.factsOf_ofFacts` : the facts of a host are made of its own rows, whatever stands
  between them;
* `HostFacts.isTableOf_ofFacts` : facts that differ in host or name have a table with just one entry
  for each, whatever their order.
-/

namespace NodeInventory

namespace HostFacts

/-- The hosts of a table. -/
def hosts (table : HostFacts) : List String := table.map (·.1)

/-- The facts of one host, with the host. -/
def entriesOf (host : String) (facts : List (String × Json)) : List (String × String × Json) :=
  facts.map fun fact => (host, fact.1, fact.2)

/-- The facts of a table, each with its host. -/
def entries (table : HostFacts) : List (String × String × Json) :=
  table.flatMap fun host => entriesOf host.1 host.2

theorem hosts_cons (host : String × List (String × Json)) (table : HostFacts) :
    hosts (host :: table) = host.1 :: hosts table := rfl

theorem entries_cons (host : String × List (String × Json)) (table : HostFacts) :
    entries (host :: table) = entriesOf host.1 host.2 ++ entries table := rfl

/-! ### Setting one fact -/

theorem mem_hosts_set {host name h : String} {value : Json} {table : HostFacts} :
    h ∈ hosts (set host name value table) ↔ h ∈ hosts table ∨ h = host := by
  induction table with
  | nil => simp [set, hosts]
  | cons entry table ih =>
    obtain ⟨g, facts⟩ := entry
    rw [set]
    split
    · next hg =>
      subst hg
      simp only [hosts_cons, List.mem_cons]
      tauto
    · split
      · simp only [hosts_cons, List.mem_cons]
        tauto
      · simp only [hosts_cons, List.mem_cons, ih]
        tauto

/-- The hosts stay in strictly ascending order. -/
theorem hosts_set_ascending {host name : String} {value : Json} {table : HostFacts}
    (h : (hosts table).Pairwise (· < ·)) :
    (hosts (set host name value table)).Pairwise (· < ·) := by
  induction table with
  | nil => exact List.pairwise_singleton ..
  | cons entry table ih =>
    obtain ⟨g, facts⟩ := entry
    obtain ⟨hg, htable⟩ := List.pairwise_cons.1 h
    rw [set]
    split
    · exact h
    · next hne =>
      split
      · next hlt =>
        refine List.pairwise_cons.2 ⟨fun x hx => ?_, h⟩
        rcases List.mem_cons.1 hx with rfl | hx
        · exact hlt
        · exact String.lt_trans hlt (hg x hx)
      · next hlt =>
        refine List.pairwise_cons.2 ⟨fun x hx => ?_, ih htable⟩
        rcases mem_hosts_set.1 hx with hx | rfl
        · exact hg x hx
        · exact Std.lt_of_le_of_ne (String.not_lt.1 hlt) hne

/-- A fact of a name that its host does not have yet is one more entry. -/
theorem entries_set_perm {host name : String} {value : Json} {table : HostFacts}
    (hnew : (host, name) ∉ (entries table).map fun e => (e.1, e.2.1)) :
    (entries (set host name value table)).Perm ((host, name, value) :: entries table) := by
  induction table with
  | nil => exact List.Perm.refl _
  | cons entry table ih =>
    obtain ⟨g, facts⟩ := entry
    rw [entries_cons, List.map_append, List.mem_append, not_or] at hnew
    rw [set]
    split
    · next hg =>
      -- the host is there and gets one more fact
      subst hg
      have hname : name ∉ facts.map (·.1) := by
        intro hmem
        obtain ⟨fact, hfact, rfl⟩ := List.mem_map.1 hmem
        exact hnew.1 (List.mem_map.2 ⟨_, List.mem_map.2 ⟨fact, hfact, rfl⟩, rfl⟩)
      rw [Json.setField_of_not_mem hname]
      exact ((List.perm_append_singleton _ _).map _).append_right _
    · split
      · exact List.Perm.refl _
      · -- the host comes further behind
        rw [entries_cons, entries_cons]
        exact ((ih hnew.2).append_left _).trans List.perm_middle

/-! ### The facts of one host -/

/-- The facts that a table has for a host; none for a host that is not in it. -/
def factsOf (host : String) : HostFacts → List (String × Json)
  | [] => []
  | (h, facts) :: table => if h = host then facts else factsOf host table

theorem factsOf_of_not_mem {host : String} {table : HostFacts} (h : host ∉ hosts table) :
    factsOf host table = [] := by
  induction table with
  | nil => rfl
  | cons entry table ih =>
    obtain ⟨g, facts⟩ := entry
    rw [hosts_cons, List.mem_cons, not_or] at h
    rw [factsOf, if_neg (Ne.symm h.1), ih h.2]

theorem factsOf_of_mem {table : HostFacts} (hnodup : (hosts table).Nodup) {host : String}
    {facts : List (String × Json)} (hmem : (host, facts) ∈ table) : factsOf host table = facts := by
  induction table with
  | nil => cases hmem
  | cons entry table ih =>
    obtain ⟨g, fs⟩ := entry
    rw [hosts_cons, List.nodup_cons] at hnodup
    rcases List.mem_cons.1 hmem with heq | hmem
    · cases heq
      exact if_pos rfl
    · have hg : g ≠ host := by
        rintro rfl
        exact hnodup.1 (List.mem_map.2 ⟨_, hmem, rfl⟩)
      rw [factsOf, if_neg hg, ih hnodup.2 hmem]

theorem factsOf_set {table : HostFacts} (htable : (hosts table).Pairwise (· < ·))
    (host name h : String) (value : Json) :
    factsOf h (set host name value table) =
      if h = host then Json.setField name value (factsOf h table) else factsOf h table := by
  induction table with
  | nil =>
    by_cases hh : h = host
    · simp [set, factsOf, hh, Json.setField]
    · simp [set, factsOf, hh, Ne.symm hh]
  | cons entry table ih =>
    obtain ⟨g, facts⟩ := entry
    obtain ⟨hg, htable'⟩ := List.pairwise_cons.1 htable
    rw [set]
    split
    · next hgh =>
      subst hgh
      by_cases hh : h = g
      · simp [factsOf, hh]
      · simp [factsOf, hh, Ne.symm hh]
    · next hne =>
      split
      · next hlt =>
        by_cases hh : h = host
        · -- a host in front of the first one has no facts yet
          subst hh
          have hnew : h ∉ hosts ((g, facts) :: table) := by
            intro hmem
            rcases List.mem_cons.1 hmem with rfl | hmem
            · exact hne rfl
            · exact String.lt_irrefl _ (String.lt_trans hlt (hg h hmem))
          rw [factsOf_of_not_mem hnew, factsOf, if_pos rfl, if_pos rfl, Json.setField]
        · rw [factsOf, if_neg (Ne.symm hh), if_neg hh]
      · rw [factsOf, factsOf, ih htable']
        by_cases hh : g = h
        · have hne' : h ≠ host := fun e => hne (hh.trans e)
          simp [hh, hne']
        · simp [hh]

/-! ### All facts of a listing -/

theorem ofFacts_concat (rows : List Fact) (row : Fact) :
    ofFacts (rows ++ [row]) = set row.certname row.name (Fact.unwrap row.value) (ofFacts rows) := by
  rw [ofFacts, List.foldl_append]
  rfl

theorem hosts_ofFacts_ascending (rows : List Fact) : (hosts (ofFacts rows)).Pairwise (· < ·) := by
  induction rows using List.reverseRecOn with
  | nil => exact List.Pairwise.nil
  | append_singleton rows row ih =>
    rw [ofFacts_concat]
    exact hosts_set_ascending ih

theorem nodup_hosts_ofFacts (rows : List Fact) : (hosts (ofFacts rows)).Nodup :=
  (hosts_ofFacts_ascending rows).nodup

theorem mem_hosts_ofFacts {rows : List Fact} {host : String} :
    host ∈ hosts (ofFacts rows) ↔ ∃ row ∈ rows, row.certname = host := by
  induction rows using List.reverseRecOn with
  | nil => simp [ofFacts, hosts]
  | append_singleton rows row ih =>
    rw [ofFacts_concat, mem_hosts_set, ih]
    simp [or_and_right, exists_or, eq_comm]

/-- The facts of a host are those of its own rows, one set after another. -/
theorem factsOf_ofFacts (rows : List Fact) (host : String) :
    factsOf host (ofFacts rows) = Json.mergeFields
      ((rows.filter fun row => row.certname = host).map fun row =>
        (row.name, Fact.unwrap row.value)) := by
  induction rows using List.reverseRecOn with
  | nil => rfl
  | append_singleton rows row ih =>
    rw [ofFacts_concat, factsOf_set (hosts_ofFacts_ascending rows), ih, List.filter_append,
      List.map_append]
    by_cases hh : host = row.certname
    · simp [hh, Json.mergeFields_concat]
    · simp [hh, Ne.symm hh]

/-- The entry of a fact in a table. -/
def entry (row : Fact) : String × String × Json :=
  (row.certname, row.name, Fact.unwrap row.value)

/-- The table has the hosts of the rows in strictly ascending order, and just one entry for each
row. -/
structure IsTableOf (rows : List Fact) (table : HostFacts) : Prop where
  hosts_ascending : (hosts table).Pairwise (· < ·)
  mem_hosts : ∀ host, host ∈ hosts table ↔ ∃ row ∈ rows, row.certname = host
  entries_perm : (entries table).Perm (rows.map entry)

theorem IsTableOf.of_perm {rows rows' : List Fact} {table : HostFacts} (h : IsTableOf rows table)
    (hperm : rows.Perm rows') : IsTableOf rows' table where
  hosts_ascending := h.hosts_ascending
  mem_hosts host := by
    simp only [h.mem_hosts, hperm.mem_iff]
  entries_perm := h.entries_perm.trans (hperm.map _)

/-- Facts that differ in host or name have a table with just one entry for each. -/
theorem isTableOf_ofFacts {rows : List Fact}
    (hrows : (rows.map fun row => (row.certname, row.name)).Nodup) :
    IsTableOf rows (ofFacts rows) := by
  induction rows using List.reverseRecOn with
  | nil => exact ⟨List.Pairwise.nil, by simp [ofFacts, hosts], List.Perm.refl _⟩
  | append_singleton rows row ih =>
    rw [List.map_append, List.nodup_append] at hrows
    obtain ⟨hrows, -, hlast⟩ := hrows
    have hperm := (ih hrows).entries_perm
    have hnew : (row.certname, row.name) ∉ (entries (ofFacts rows)).map fun e => (e.1, e.2.1) := by
      intro hmem
      rw [(hperm.map _).mem_iff, List.map_map] at hmem
      exact hlast _ hmem _ List.mem_cons_self rfl
    refine ⟨hosts_ofFacts_ascending _, fun host => mem_hosts_ofFacts, ?_⟩
    rw [ofFacts_concat, List.map_append]
    exact ((entries_set_perm hnew).trans (hperm.cons _)).trans (List.perm_append_singleton ..).symm

end HostFacts

end NodeInventory
