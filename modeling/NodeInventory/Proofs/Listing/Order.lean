import NodeInventory.Proofs.Paging.Window
import NodeInventory.Query
import Mathlib.Data.List.Nodup
import Mathlib.Data.List.Perm.Basic

/-!
# Rows in an ordering, page by page

The listings of rows in an ordering, and when windows of different listings have every row once
(`Paging.stitch_perm_iff`).
-/

namespace NodeInventory

/-!
## Rows in an ordering

A store compares rows field by field, by a comparison `cmp` for each field that it can sort by.
`OrderBy.compareRows` compares them by a whole ordering: by its first field, where they are equal in
that by the second, and so on.  Rows that are equal in all fields of the ordering are *tied*.

* `OrderBy.IsListing` : a list has just the rows in question, none before a row that precedes it.
  Tied rows may stand in it either way.
* `OrderBy.exists_isListing`, `OrderBy.IsListing.unique` : rows have a listing in every ordering,
  and no other one if no two of them are tied.
-/

namespace OrderBy

variable {ρ : Type} (cmp : String → ρ → ρ → Ordering)

/-- Two rows by one field, in its direction. -/
def compareField (o : OrderBy) (a b : ρ) : Ordering :=
  match o.direction with
  | .ascending => cmp o.field a b
  | .descending => cmp o.field b a

/-- Two rows by an ordering. -/
def compareRows : List OrderBy → ρ → ρ → Ordering
  | [], _, _ => .eq
  | o :: order, a, b => (o.compareField cmp a b).then (compareRows order a b)

theorem compareRows_pair (field field' : String) (a b : ρ) :
    compareRows cmp [.ascending field, .ascending field'] a b =
      (cmp field a b).then (cmp field' a b) := by
  rw [compareRows, compareRows, compareRows, Ordering.then_eq]
  rfl

/-- The list has the rows in an ordering. -/
structure IsListing (order : List OrderBy) (rows L : List ρ) : Prop where
  perm : L.Perm rows
  sorted : L.Pairwise fun a b => (compareRows cmp order a b).isLE

variable {cmp} {order : List OrderBy} {rows L M : List ρ}

section Trans

variable [∀ field, Std.TransCmp (cmp field)]

instance (o : OrderBy) : Std.TransCmp (o.compareField cmp) := by
  cases o with
  | mk field direction =>
    cases direction with
    | ascending => exact inferInstanceAs (Std.TransCmp (cmp field))
    | descending => exact inferInstanceAs (Std.TransCmp fun a b => cmp field b a)

theorem transCmp_comap {α : Type} {cmp : α → α → Ordering} [Std.TransCmp cmp] (f : ρ → α) :
    Std.TransCmp fun a b => cmp (f a) (f b) where
  eq_swap {a b} := (Std.OrientedCmp.eq_swap : cmp (f a) (f b) = (cmp (f b) (f a)).swap)
  isLE_trans {a _ c} hab hbc := (Std.TransCmp.isLE_trans hab hbc : (cmp (f a) (f c)).isLE)

theorem transCmp_eq : Std.TransCmp fun _ _ : ρ => Ordering.eq where
  eq_swap := rfl
  isLE_trans _ _ := rfl

/-- Comparing rows by an ordering is transitive, as comparing them by each field is. -/
instance instTransCmpCompareRows : (order : List OrderBy) → Std.TransCmp (compareRows cmp order)
  | [] => transCmp_eq
  | o :: order =>
    have := instTransCmpCompareRows order
    inferInstanceAs (Std.TransCmp (compareLex (o.compareField cmp) (compareRows cmp order)))

theorem compareRows_swap (order : List OrderBy) (a b : ρ) :
    compareRows cmp order b a = (compareRows cmp order a b).swap :=
  Std.OrientedCmp.eq_swap

variable (cmp) in
/-- Rows can be listed in every ordering. -/
theorem exists_isListing (order : List OrderBy) (rows : List ρ) :
    ∃ L, IsListing cmp order rows L := by
  refine ⟨rows.mergeSort fun a b => (compareRows cmp order a b).isLE,
    List.mergeSort_perm .., List.pairwise_mergeSort ?_ ?_ rows⟩
  · exact fun a b c => Std.TransCmp.isLE_trans
  · intro a b
    rw [compareRows_swap order a b]
    cases compareRows cmp order a b <;> rfl

theorem IsListing.unique (hL : IsListing cmp order rows L) (hM : IsListing cmp order rows M)
    (htotal : ∀ a ∈ rows, ∀ b ∈ rows, compareRows cmp order a b = .eq → a = b) : L = M := by
  refine List.Perm.eq_of_pairwise (fun a b ha hb hab hba => ?_) hL.sorted hM.sorted
    (hL.perm.trans hM.perm.symm)
  refine htotal a (hL.perm.mem_iff.1 ha) b (hM.perm.mem_iff.1 hb) ?_
  rw [compareRows_swap order a b] at hba
  cases h : compareRows cmp order a b <;> simp_all

end Trans

theorem IsListing.length_eq (h : IsListing cmp order rows L) : L.length = rows.length :=
  h.perm.length_eq

end OrderBy

/-!
## Tied rows at the end of a page

A store may list tied rows in another order at every request.  Pages that are windows of different
listings have every row once if no tied rows stand on either side of the end of a page, and only
then:

* `Paging.perm_take_of_lt` : where two listings are cut between rows that are not tied, they have
  the same rows in front of the cut;
* `Paging.stitch_perm` : so windows of different listings are put together to all rows;
* `Paging.exists_stitch_not_nodup` : two tied rows around the end of a page, listed the other way
  round from then on, make one of them come twice;
* `Paging.stitch_perm_iff` : both together.
-/

namespace Paging

variable {α : Type} {cmp : α → α → Ordering}

/-- No two rows that are tied stand on either side of the end of a page of `size` rows. -/
def NoTieAtPageEnds (cmp : α → α → Ordering) (size : ℕ) (L : List α) : Prop :=
  ∀ k a b, 0 < k → L[k * size - 1]? = some a → L[k * size]? = some b → cmp a b ≠ .eq

/-! ### Where listings have the same rows -/

theorem filter_eq_take_of_sorted {L : List α} {p : α → Bool}
    (hL : L.Pairwise fun a b => p b = true → p a = true) :
    L.filter p = L.take (L.filter p).length := by
  induction L with
  | nil => rfl
  | cons a L ih =>
    obtain ⟨ha, hL⟩ := List.pairwise_cons.1 hL
    by_cases hp : p a = true
    · rw [List.filter_cons_of_pos hp, List.length_cons, List.take_succ_cons, ← ih hL]
    · have hnone : L.filter p = [] := by
        rw [List.filter_eq_nil_iff]
        exact fun b hb hpb => hp (ha b hb hpb)
      rw [List.filter_cons_of_neg hp, hnone]
      rfl

/-- Two sorted lists of the same rows have the same rows in front of a cut that separates the rows
of one of them. -/
theorem perm_take_of_lt [Std.TransCmp cmp] {L A B : List α}
    (hL : L.Pairwise fun a b => (cmp a b).isLE) (hperm : L.Perm (A ++ B))
    (hB : B.Pairwise fun a b => (cmp a b).isLE)
    (hlt : ∀ a ∈ A, ∀ b, B.head? = some b → cmp a b = .lt) : (L.take A.length).Perm A := by
  cases B with
  | nil =>
    rw [List.append_nil] at hperm
    rwa [← hperm.length_eq, List.take_length]
  | cons b B =>
    -- the rows in front of the cut are those below the first one behind it
    let p : α → Bool := fun a => cmp a b = .lt
    have hA : (A ++ b :: B).filter p = A := by
      rw [List.filter_append, List.filter_eq_self.2, List.filter_eq_nil_iff.2, List.append_nil]
      · intro c hc
        simp only [p, decide_eq_true_eq]
        intro hcb
        have hbc : (cmp b c).isLE := by
          rcases List.mem_cons.1 hc with rfl | hc
          · exact Std.ReflCmp.isLE_rfl
          · exact (List.pairwise_cons.1 hB).1 c hc
        have hswap : cmp b c = (cmp c b).swap := Std.OrientedCmp.eq_swap
        rw [hswap, hcb] at hbc
        cases hbc
      · exact fun a ha => by simpa [p] using hlt a ha b rfl
    have hdown : L.Pairwise fun a c => p c = true → p a = true := by
      refine hL.imp fun {a c} hac hc => ?_
      simp only [p, decide_eq_true_eq] at hc ⊢
      exact Std.TransCmp.lt_of_isLE_of_lt hac hc
    have hfilter : (L.filter p).Perm A := hA ▸ hperm.filter p
    have htake := filter_eq_take_of_sorted hdown
    rw [hfilter.length_eq] at htake
    exact htake ▸ hfilter

variable {order : List OrderBy} {ρ : Type} {cmp : String → ρ → ρ → Ordering} {rows L M : List ρ}

section Trans

variable [∀ field, Std.TransCmp (cmp field)]

/-- If no tied rows stand around the ends of its pages, a listing has the same rows in front of each
of them as any other listing. -/
theorem perm_take_of_noTieAtPageEnds {size : ℕ} (hL : OrderBy.IsListing cmp order rows L)
    (hM : OrderBy.IsListing cmp order rows M)
    (hno : NoTieAtPageEnds (OrderBy.compareRows cmp order) size M) (k : ℕ) :
    (L.take (k * size)).Perm (M.take (k * size)) := by
  have hperm : L.Perm (M.take (k * size) ++ M.drop (k * size)) := by
    rw [List.take_append_drop]
    exact hL.perm.trans hM.perm.symm
  by_cases hlong : M.length ≤ k * size
  · rw [List.take_of_length_le hlong, List.take_of_length_le]
    · exact hL.perm.trans hM.perm.symm
    · rwa [hL.length_eq, ← hM.length_eq]
  · have hlength : (M.take (k * size)).length = k * size := by
      rw [List.length_take]
      omega
    have hcut := perm_take_of_lt hL.sorted hperm (hM.sorted.sublist (List.drop_sublist ..)) ?_
    · rwa [hlength] at hcut
    intro a ha b hb
    obtain ⟨i, hi, rfl⟩ := List.mem_iff_getElem.1 ha
    have hik : i < k * size := by omega
    have hk : 0 < k := Nat.pos_of_ne_zero fun h => by simp [h] at hik
    rw [List.head?_drop] at hb
    have hlast : M[k * size - 1]? = some M[k * size - 1] := List.getElem?_eq_getElem (by omega)
    -- the row before the cut is below the one behind it, and no row in front of it is above it
    have hends : OrderBy.compareRows cmp order M[k * size - 1] b = .lt := by
      have hne := hno k _ _ hk hlast hb
      obtain ⟨hlt, rfl⟩ := List.getElem?_eq_some_iff.1 hb
      have hle := List.pairwise_iff_getElem.1 hM.sorted (k * size - 1) (k * size) (by omega) hlt
        (by omega)
      revert hne hle
      cases OrderBy.compareRows cmp order M[k * size - 1] M[k * size] <;> simp
    refine Std.TransCmp.lt_of_isLE_of_lt ?_ hends
    rw [List.getElem_take]
    rcases Nat.lt_or_ge i (k * size - 1) with h | h
    · exact List.pairwise_iff_getElem.1 hM.sorted i (k * size - 1) (by omega) (by omega) h
    · obtain rfl : i = k * size - 1 := by omega
      exact Std.ReflCmp.isLE_rfl

/-- Windows of whatever listings are put together to all rows if no tied rows stand around the ends
of the pages. -/
theorem stitch_perm {size : ℕ} {listings : ℕ → List ρ} (hsize : 0 < size)
    (hlistings : ∀ k, OrderBy.IsListing cmp order rows (listings k))
    (hno : ∀ L, OrderBy.IsListing cmp order rows L →
      NoTieAtPageEnds (OrderBy.compareRows cmp order) size L) :
    (stitch size rows.length listings).Perm rows := by
  obtain ⟨M, hM⟩ := OrderBy.exists_isListing cmp order rows
  have hwindow : ∀ k, (window size k (listings k)).Perm (window size k M) := by
    intro k
    have hfront := perm_take_of_noTieAtPageEnds (hlistings k) hM (hno M hM) k
    have hall := perm_take_of_noTieAtPageEnds (hlistings k) hM (hno M hM) (k + 1)
    -- the rows in front of the page end are those in front of the page and those of the page
    rw [← take_append_window, ← take_append_window] at hall
    exact (List.perm_append_left_iff _).1 (((hfront.append_right _).symm.trans hall))
  have hstitch : (stitch size rows.length listings).Perm (stitch size M.length fun _ => M) := by
    rw [stitch, stitch, hM.length_eq]
    exact List.Perm.flatMap_left _ fun k _ => hwindow k
  rw [stitch_const hsize] at hstitch
  exact hstitch.trans hM.perm

end Trans

/-! ### Where rows come twice -/

/-- Windows of one list up to a page, and of another one from that page on. -/
theorem stitch_switch {size n k : ℕ} {L L' : List α} (hsize : 0 < size) (hL' : L'.length = n)
    (hk : k ≤ n / size) :
    stitch size n (fun j => if j < k then L else L') = L.take (k * size) ++ L'.drop (k * size) := by
  obtain ⟨m, hm⟩ : ∃ m, n / size + 1 = k + m := ⟨n / size + 1 - k, by omega⟩
  -- the pages of `L'` from `k` on are what the pages in front of them leave of it
  have hbehind : ((List.range m).map (k + ·)).flatMap (fun j => window size j L') =
      L'.drop (k * size) := by
    have hwhole := stitch_const hsize L'
    rw [hL', stitch, hm, List.range_add, List.flatMap_append, flatMap_window_range] at hwhole
    refine List.append_cancel_left (hwhole.trans ?_)
    rw [List.take_append_drop]
  rw [stitch, hm, List.range_add, List.flatMap_append, ← hbehind, ← flatMap_window_range]
  congr 1
  · refine List.flatMap_congr fun j hj => ?_
    rw [if_pos (List.mem_range.1 hj)]
  · refine List.flatMap_congr fun j hj => ?_
    obtain ⟨i, -, rfl⟩ := List.mem_map.1 hj
    rw [if_neg (by omega)]

theorem pairwise_swap {r : α → α → Prop} {A B : List α} {a b : α}
    (h : (A ++ a :: b :: B).Pairwise r) (hba : r b a) : (A ++ b :: a :: B).Pairwise r := by
  simp only [List.pairwise_append, List.pairwise_cons, List.mem_cons, forall_eq_or_imp] at h ⊢
  obtain ⟨hA, ⟨⟨-, haB⟩, hbB, hB⟩, hAB⟩ := h
  exact ⟨hA, ⟨⟨hba, hbB⟩, haB, hB⟩, fun c hc => ⟨(hAB c hc).2.1, (hAB c hc).1, (hAB c hc).2.2⟩⟩

/-- If tied rows stand around the end of a page, there are listings whose windows have a row
twice. -/
theorem exists_stitch_not_nodup [∀ field, Std.TransCmp (cmp field)] {size : ℕ} (hsize : 0 < size)
    (hL : OrderBy.IsListing cmp order rows L)
    (htie : ¬ NoTieAtPageEnds (OrderBy.compareRows cmp order) size L) :
    ∃ listings : ℕ → List ρ, (∀ k, OrderBy.IsListing cmp order rows (listings k)) ∧
      ¬ (stitch size rows.length listings).Nodup := by
  by_contra hnone
  refine htie fun k a b hk ha hb hab => hnone ?_
  obtain ⟨m, hm⟩ : ∃ m, k * size = m + 1 :=
    Nat.exists_eq_succ_of_ne_zero (Nat.mul_pos hk hsize).ne'
  rw [hm, Nat.add_sub_cancel] at ha
  rw [hm] at hb
  obtain ⟨hma, ha'⟩ := List.getElem?_eq_some_iff.1 ha
  obtain ⟨hmb, hb'⟩ := List.getElem?_eq_some_iff.1 hb
  have hsplit : L = L.take m ++ a :: b :: L.drop (m + 2) := by
    rw [← ha', ← hb', List.getElem_cons_drop, List.getElem_cons_drop, List.take_append_drop]
  -- from page `k` on the two are listed the other way round
  let L' := L.take m ++ b :: a :: L.drop (m + 2)
  have hL' : OrderBy.IsListing cmp order rows L' := by
    refine ⟨?_, pairwise_swap (hsplit ▸ hL.sorted) ?_⟩
    · exact ((List.Perm.swap a b _).append_left _).trans (hsplit ▸ hL.perm)
    · rw [OrderBy.compareRows_swap order a b, hab]
      rfl
  refine ⟨fun j => if j < k then L else L', fun j => ?_, ?_⟩
  · dsimp only
    split
    · exact hL
    · exact hL'
  · have hk' : k ≤ rows.length / size := by
      rw [Nat.le_div_iff_mul_le hsize, ← hL.length_eq]
      omega
    rw [stitch_switch hsize hL'.length_eq hk', hm]
    intro hnodup
    -- `a` is the last row of page `k - 1` as `L` has it, and the first of page `k` in `L'`
    have hfront : a ∈ L.take (m + 1) :=
      List.mem_of_getElem? (i := m) (by rw [List.getElem?_take_of_lt (by omega), ha])
    have hbehind : a ∈ L'.drop (m + 1) := by
      refine List.mem_of_getElem? (i := 0) ?_
      have hlength : (L.take m).length = m := by
        rw [List.length_take]
        omega
      rw [List.getElem?_drop, Nat.add_zero, List.getElem?_append_right (by omega), hlength]
      simp
    exact (List.nodup_append.1 hnodup).2.2 a hfront a hbehind rfl

/-- **Windows of whatever listings are put together to all rows** if and only if no listing has tied
rows around the end of a page. -/
theorem stitch_perm_iff [∀ field, Std.TransCmp (cmp field)] {size : ℕ} (hsize : 0 < size)
    (hrows : rows.Nodup) :
    (∀ listings : ℕ → List ρ, (∀ k, OrderBy.IsListing cmp order rows (listings k)) →
        (stitch size rows.length listings).Perm rows) ↔
      ∀ L, OrderBy.IsListing cmp order rows L →
        NoTieAtPageEnds (OrderBy.compareRows cmp order) size L := by
  constructor
  · intro h L hL
    by_contra htie
    obtain ⟨listings, hlistings, hnot⟩ := exists_stitch_not_nodup hsize hL htie
    exact hnot ((h listings hlistings).nodup_iff.2 hrows)
  · exact fun hno listings hlistings => stitch_perm hsize hlistings hno

end Paging

end NodeInventory
