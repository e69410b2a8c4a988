import NodeInventory.Proofs.Tables.Inventory
import Mathlib.Algebra.BigOperators.Group.List.Basic
import Mathlib.Algebra.GroupWithZero.Nat
import Mathlib.Data.List.Infix

/-!
# Grouping memberships by their hosts

A table of classes holds the rows that it was made of, host by host (`HostClasses.memberships`).  If
the rows of every host stand together (`HostClasses.Contiguous`), as they do in the order of the
hosts, the table holds them in their order.

* `HostClasses.memberships_add_perm` : a row is one more membership of the table;
* `HostClasses.memberships_ofMemberships_perm` : so no row is lost, and none comes twice;
* `HostClasses.memberships_add_of_last` : a row of the last host of a table comes last;
* `HostClasses.memberships_ofMemberships` : so rows that stand together keep their order;
* `HostClasses.ofMemberships_exact` : the table of a listing, and of one that comes page by page.
-/

namespace NodeInventory

namespace HostClasses

/-- The memberships in a table, host by host. -/
def memberships (table : HostClasses) : List Membership :=
  table.flatMap fun entry => entry.2.map fun title => ⟨entry.1, title⟩

/-- The rows of every host stand together: of three rows in their order, the one in the middle has
the host that the outer ones share. -/
def Contiguous (rows : List Membership) : Prop :=
  ∀ first middle last, [first, middle, last].Sublist rows → first.certname = last.certname →
    middle.certname = first.certname

theorem memberships_cons (host : String) (ts : List String) (table : HostClasses) :
    memberships ((host, ts) :: table) =
      (ts.map fun title => ⟨host, title⟩) ++ memberships table := rfl

theorem memberships_append (table table' : HostClasses) :
    memberships (table ++ table') = memberships table ++ memberships table' :=
  List.flatMap_append ..

theorem mem_hosts_of_mem_memberships {table : HostClasses} {row : Membership}
    (h : row ∈ memberships table) : row.certname ∈ hosts table := by
  obtain ⟨entry, hentry, hrow⟩ := List.mem_flatMap.1 h
  obtain ⟨title, -, rfl⟩ := List.mem_map.1 hrow
  exact List.mem_map.2 ⟨entry, hentry, rfl⟩

/-! ### Nothing is lost -/

/-- A row is one more membership of the table. -/
theorem memberships_add_perm (host title : String) (table : HostClasses) :
    (memberships (add host title table)).Perm (memberships table ++ [⟨host, title⟩]) := by
  induction table with
  | nil => exact .refl _
  | cons entry table ih =>
    obtain ⟨h, ts⟩ := entry
    rw [add]
    split
    · next hh =>
      subst hh
      rw [memberships_cons, memberships_cons, List.map_append, List.append_assoc, List.append_assoc]
      exact List.perm_append_comm.append_left _
    · rw [memberships_cons, memberships_cons, List.append_assoc]
      exact ih.append_left _

theorem memberships_ofMemberships_perm (rows : List Membership) :
    (memberships (ofMemberships rows)).Perm rows := by
  induction rows using List.reverseRecOn with
  | nil => exact .refl _
  | append_singleton rows row ih =>
    rw [ofMemberships_concat]
    exact (memberships_add_perm ..).trans (ih.append_right _)

theorem length_memberships (table : HostClasses) :
    (memberships table).length = (table.map fun entry => entry.2.length).sum := by
  simp [memberships, List.length_flatMap]

theorem ne_nil_of_mem_ofMemberships {rows : List Membership} {entry : String × List String}
    (h : entry ∈ ofMemberships rows) : entry.2 ≠ [] := by
  rw [← titles_of_mem (nodup_hosts_ofMemberships rows) h, titles_ofMemberships]
  obtain ⟨row, hrow, hhost⟩ := mem_hosts_ofMemberships.1 (List.mem_map.2 ⟨entry, h, rfl⟩)
  have hmem : row ∈ rows.filter fun row => row.certname = entry.1 := by simp [hrow, hhost]
  simpa using List.ne_nil_of_mem hmem

/-! ### Hosts in the order of their first rows -/

theorem hosts_ofMemberships (rows : List Membership) :
    hosts (ofMemberships rows) = (rows.map (·.certname)).eraseDups := by
  induction rows using List.reverseRecOn with
  | nil => rfl
  | append_singleton rows row ih =>
    rw [ofMemberships_concat, hosts_add, ih, List.map_append, List.map_singleton,
      Json.eraseDups_concat]
    simp only [List.mem_eraseDups]

theorem ofMemberships_eq_map (rows : List Membership) :
    ofMemberships rows = (rows.map (·.certname)).eraseDups.map fun host =>
      (host, (rows.filter fun row => row.certname = host).map (·.title)) := by
  rw [← hosts_ofMemberships, hosts, List.map_map]
  refine (List.map_id _).symm.trans (List.map_congr_left fun entry hentry => ?_)
  have htitles := titles_of_mem (nodup_hosts_ofMemberships rows) hentry
  rw [titles_ofMemberships] at htitles
  exact Prod.ext rfl htitles.symm

/-! ### Rows that stand together -/

theorem Contiguous.sublist {rows rows' : List Membership} (h : Contiguous rows)
    (hsub : rows'.Sublist rows) : Contiguous rows' :=
  fun first middle last hrows => h first middle last (hrows.trans hsub)

theorem contiguous_of_sorted {collate : String → String → Ordering} [Std.OrientedCmp collate]
    [Std.LawfulEqCmp collate] {rows : List Membership}
    (h : rows.Pairwise fun a b => (collate a.certname b.certname).isLE) : Contiguous rows := by
  intro first middle last hsub hhost
  have hsorted := h.sublist hsub
  simp only [List.pairwise_cons, List.mem_cons, List.not_mem_nil, or_false, forall_eq_or_imp,
    forall_eq] at hsorted
  obtain ⟨⟨hle, -⟩, hle', -⟩ := hsorted
  rw [← hhost] at hle'
  exact Std.LawfulEqCmp.eq_of_compare (Std.OrientedCmp.isLE_antisymm hle' hle)

theorem contiguous_memberships {table : HostClasses} (h : (hosts table).Nodup) :
    Contiguous (memberships table) := by
  induction table with
  | nil =>
    intro first middle last hsub
    cases hsub
  | cons entry table ih =>
    obtain ⟨host, ts⟩ := entry
    rw [hosts_cons, List.nodup_cons] at h
    have hfront : ∀ row ∈ ts.map fun title => (⟨host, title⟩ : Membership),
        row.certname = host := by simp
    have hback : ∀ row ∈ memberships table, row.certname ≠ host := fun row hrow heq =>
      h.1 (heq ▸ mem_hosts_of_mem_memberships hrow)
    intro first middle last hsub hhost
    rw [memberships_cons] at hsub
    obtain ⟨l, l', hl, hsub, hsub'⟩ := List.sublist_append_iff.1 hsub
    -- as the outer two share their host, they stand both in front or both behind
    match l, hl with
    | [], hl =>
      rw [List.nil_append] at hl
      exact ih h.2 first middle last (hl ▸ hsub') hhost
    | [a], hl =>
      obtain ⟨rfl, rfl⟩ : first = a ∧ [middle, last] = l' := by simpa using hl
      have hfirst := hfront first (hsub.subset (by simp))
      exact absurd (hhost.symm.trans hfirst) (hback last (hsub'.subset (by simp)))
    | [a, b], hl =>
      obtain ⟨rfl, rfl, rfl⟩ : first = a ∧ middle = b ∧ [last] = l' := by simpa using hl
      exact (hfront middle (hsub.subset (by simp))).trans
        (hfront first (hsub.subset (by simp))).symm
    | a :: b :: c :: l, hl =>
      obtain ⟨rfl, rfl, -⟩ : first = a ∧ middle = b ∧ [last] = c :: (l ++ l') := by simpa using hl
      exact (hfront middle (hsub.subset (by simp))).trans
        (hfront first (hsub.subset (by simp))).symm

theorem add_append_of_not_mem {host : String} (title : String) {table : HostClasses}
    (h : host ∉ hosts table) (table' : HostClasses) :
    add host title (table ++ table') = table ++ add host title table' := by
  induction table with
  | nil => rfl
  | cons entry table ih =>
    obtain ⟨g, ts⟩ := entry
    rw [hosts_cons, List.mem_cons, not_or] at h
    rw [List.cons_append, add, if_neg (Ne.symm h.1), ih h.2, List.cons_append]

theorem memberships_add_of_not_mem {host : String} (title : String) {table : HostClasses}
    (h : host ∉ hosts table) :
    memberships (add host title table) = memberships table ++ [⟨host, title⟩] := by
  have hadd := add_append_of_not_mem title h []
  rw [List.append_nil] at hadd
  rw [hadd, memberships_append]
  rfl

theorem memberships_add_of_last {host : String} (title : String) {table : HostClasses}
    (h : host ∉ hosts table) (ts : List String) :
    memberships (add host title (table ++ [(host, ts)])) =
      memberships (table ++ [(host, ts)]) ++ [⟨host, title⟩] := by
  rw [add_append_of_not_mem title h, memberships_append, memberships_append]
  simp [add, memberships]

/-- A host whose rows stand together and that comes once more has the last row. -/
theorem Contiguous.certname_eq {rows : List Membership} {last row : Membership}
    (h : Contiguous (rows ++ [last] ++ [row]))
    (hmem : ∃ r ∈ rows ++ [last], r.certname = row.certname) : last.certname = row.certname := by
  obtain ⟨r, hr, hhost⟩ := hmem
  rcases List.mem_append.1 hr with hr | hr
  · have hsub : [r, last, row].Sublist (rows ++ [last] ++ [row]) := by
      rw [List.append_assoc]
      exact (List.singleton_sublist.2 hr).append (List.Sublist.refl _)
    exact (h r last row hsub hhost).trans hhost
  · rwa [List.mem_singleton.1 hr] at hhost

/-- Rows that stand together are in the table in their order. -/
theorem memberships_ofMemberships {rows : List Membership} (h : Contiguous rows) :
    memberships (ofMemberships rows) = rows := by
  induction rows using List.reverseRecOn with
  | nil => rfl
  | append_singleton rows row ih =>
    have hrows := ih (h.sublist (List.sublist_append_left ..))
    rw [ofMemberships_concat]
    by_cases hmem : row.certname ∈ hosts (ofMemberships rows)
    · -- the last entry of the table holds the last row, whose host is that of the new one
      obtain ⟨table, ⟨host, ts⟩, htable⟩ :=
        List.eq_nil_or_concat' (ofMemberships rows) |>.resolve_left fun hnil => by
          rw [hnil] at hmem
          cases hmem
      have hentry : (host, ts) ∈ ofMemberships rows := by simp [htable]
      have hts : ts ≠ [] := ne_nil_of_mem_ofMemberships hentry
      obtain ⟨us, title, rfl⟩ := (List.eq_nil_or_concat' ts).resolve_left hts
      have hlast : rows = (memberships table ++ us.map fun title => ⟨host, title⟩) ++
          [⟨host, title⟩] := by
        rw [← hrows, htable, memberships_append]
        simp [memberships]
      have hhost : host = row.certname := by
        rw [hlast] at h
        exact h.certname_eq (hlast ▸ mem_hosts_ofMemberships.1 hmem)
      have hnodup := nodup_hosts_ofMemberships rows
      have hnew : row.certname ∉ hosts table := by
        rw [htable, hosts, List.map_append, List.nodup_append] at hnodup
        intro hin
        exact hnodup.2.2 _ hin host (by simp) hhost.symm
      subst hhost
      rw [htable, memberships_add_of_last _ hnew, ← htable, hrows]
    · rw [memberships_add_of_not_mem _ hmem, hrows]

/-! ### Listings of classes -/

open Paging in
/-- **Grouping loses no row, repeats none and reorders none.**  The table of a listing has each host
once, in the order in which they first came, with the titles of its rows as they came; there are as
many titles as rows, and no host is without.  The table read host by host is the listing if and only
if the rows of every host stand together, which they do in the order of the hosts.  A table that is
fetched page by page is that of all rows, wherever one page ends and the next begins. -/
theorem ofMemberships_exact (rows : List Membership) :
    ofMemberships rows = (rows.map (·.certname)).eraseDups.map (fun host =>
      (host, (rows.filter fun row => row.certname = host).map (·.title))) ∧
    ((ofMemberships rows).map fun entry => entry.2.length).sum = rows.length ∧
    (∀ entry ∈ ofMemberships rows, entry.2 ≠ []) ∧
    (memberships (ofMemberships rows) = rows ↔ Contiguous rows) ∧
    (∀ (collate : String → String → Ordering) [Std.TransCmp collate] [Std.LawfulEqCmp collate],
      rows.Pairwise (fun a b => (collate a.certname b.certname).isLE) → Contiguous rows) ∧
    ∀ (c : Client) (answers : List Answer) (pages : List (List Membership))
      (last : List Membership),
      FullPages Membership.decoder c.classesPath (max c.pageSize 1) answers pages →
      Arrives Membership.decoder c.classesPath (max c.pageSize 1) answers pages.length last →
      last.length < max c.pageSize 1 → pages.flatten ++ last = rows →
      (c.classes answers).result = .ok (ofMemberships rows) := by
  refine ⟨ofMemberships_eq_map rows, ?_, fun _ => ne_nil_of_mem_ofMemberships, ⟨fun h => ?_,
    memberships_ofMemberships⟩, fun collate _ _ => contiguous_of_sorted, ?_⟩
  · rw [← length_memberships, (memberships_ofMemberships_perm rows).length_eq]
  · exact h ▸ contiguous_memberships (nodup_hosts_ofMemberships rows)
  · rintro c answers pages last hpages hlast hshort rfl
    refine Exchange.result_bind_pure ofMemberships ?_
    exact congrArg Outcome.result (fetchAll_of_short hpages hlast hshort)

/-- A store that lists classes on these pages. -/
def classPages (pages : List (List Membership)) : List Answer :=
  pages.map fun page _ => .ok (Json.array (page.map fun row =>
    Resource.toJson ⟨row.certname, "Class", row.title, false, .null, none⟩)).text

theorem arrives_classPages {pages : List (List Membership)} {k : ℕ} {page : List Membership}
    (h : pages[k]? = some page) (path : String) (size : ℕ) :
    Paging.Arrives Membership.decoder path size (classPages pages) k page := by
  have hrun := Json.Decoder.run_list_text Membership.decoder
    (fun row : Membership => Resource.toJson ⟨row.certname, "Class", row.title, false, .null, none⟩)
    id (fun row (_ : row ∈ page) => Resource.numbersReadBack_toJson trivial)
    fun _ _ => Membership.decoder_written_resource _ 125
  rw [List.map_id] at hrun
  exact ⟨_, by simp [Paging.pageReply, classPages, h], hrun⟩

theorem fullPages_classPages {size : ℕ} {pages : List (List Membership)}
    (h : ∀ page ∈ pages, size ≤ page.length) (path : String) (more : List (List Membership)) :
    Paging.FullPages Membership.decoder path size (classPages (pages ++ more)) pages := by
  intro k hk
  refine ⟨arrives_classPages ?_ path size, h _ (List.getElem_mem hk)⟩
  rw [List.getElem?_append_left hk, List.getElem?_eq_getElem hk]

/-- Three classes of two hosts. -/
def databaseClasses : List Membership :=
  [⟨"db1", "Main"⟩, ⟨"db1", "Postgresql"⟩, ⟨"web1", "Main"⟩]

/-- With two rows to a page and with one, where a page ends between two rows of a host, the table is
the same. -/
theorem ofMemberships_exact_database :
    databaseClasses.Pairwise (fun a b => (compare a.certname b.certname).isLE) ∧
    memberships (ofMemberships databaseClasses) = databaseClasses ∧
    (Client.classes ⟨.v4, 2⟩ (classPages [databaseClasses.take 2, databaseClasses.drop 2])).result =
      .ok [("db1", ["Main", "Postgresql"]), ("web1", ["Main"])] ∧
    (Client.classes ⟨.v3, 1⟩ (classPages (databaseClasses.map ([·]) ++ [[]]))).result =
      .ok [("db1", ["Main", "Postgresql"]), ("web1", ["Main"])] := by
  obtain ⟨-, -, -, hcontiguous, hsorted, hpages⟩ := ofMemberships_exact databaseClasses
  have horder : databaseClasses.Pairwise fun a b => (compare a.certname b.certname).isLE := by
    decide +kernel
  refine ⟨horder, hcontiguous.2 (hsorted compare horder), ?_, ?_⟩
  · exact hpages ⟨.v4, 2⟩ _ [databaseClasses.take 2] _
      (fullPages_classPages (by decide) _ [databaseClasses.drop 2])
      (arrives_classPages rfl _ _) (by decide) rfl
  · exact hpages ⟨.v3, 1⟩ _ (databaseClasses.map ([·])) []
      (fullPages_classPages (by decide) _ [[]]) (arrives_classPages rfl _ _) (by decide) rfl

end HostClasses

end NodeInventory
