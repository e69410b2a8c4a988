import NodeInventory.Proofs.Listing.Resources
import NodeInventory.Proofs.Query.Meaning

/-!
# What a selection of resources means

A selection wants the resources that its filter admits, exported or not as it says
(`Selection.Wants`).  It is sent to a store as a condition, on version 4 behind the columns of the
rows (`queryOn`), with an ordering that leaves out what the condition fixes.

* `Selection.truth?_condition` : the condition holds of just the resources that are wanted;
* `Selection.ofKind_wants_iff`, `Selection.order_ofKind` : the selection of a type, such as `File`
  or `@@File`;
* `Client.resource_queries_exact` : the queries for resources, on every version;
* `Selection.compareRows_order` : among the resources that are wanted, the ordering compares as the
  full one does;
* `Client.shortened_order_exact` : so it does among the rows that a store selects.
-/

namespace NodeInventory

/-- The equalities on the type and on the exported flag compare with those of the resource. -/
structure Interpretation.ReadsResources (I : Interpretation Resource) : Prop where
  kind : I.ReadsColumn "type" fun r => .string r.kind
  exported : I.ReadsColumn "exported" fun r => .bool r.exported

/-- A filter that is absent or empty admits every row, another one those that it holds of. -/
def Interpretation.Admits {ρ : Type} (I : Interpretation ρ) (filter : Option Filter) (row : ρ) :
    Prop :=
  ∀ f, filter = some f → f.isEmpty = false → f.holds I row = true

/-- The condition of a query: what stands behind the columns, if there are any. -/
def conditionOf : Json → Json
  | .array [.string "extract", _, condition] => condition
  | query => query

/-- A store selects a row for a query if its condition holds of the row. -/
def Interpretation.Selects {ρ : Type} (I : Interpretation ρ) (query : Query) (row : ρ) : Prop :=
  I.truth? row (conditionOf query.toJson) = some true

/-- The query for a condition on resources: version 4 has the columns of the rows in front of it. -/
def queryOn (version : ApiVersion) (condition : Json) : Json :=
  if version = .v4 then
    .array [.string "extract", .array [.string "certname", .string "type", .string "title",
      .string "exported", .string "parameters", .string "environment"], condition]
  else condition

/-! ### The filter of a selection -/

theorem effectiveFilter_eq_some_iff {filter : Option Filter} {f : Filter} :
    effectiveFilter filter = some f ↔ filter = some f ∧ f.isEmpty = false := by
  simp [effectiveFilter, Option.filter_eq_some_iff]

theorem effectiveFilter_eq_none_iff {filter : Option Filter} :
    effectiveFilter filter = none ↔ ∀ f, filter = some f → f.isEmpty = true := by
  simp [effectiveFilter, Option.filter_eq_none_iff]

theorem Interpretation.admits_iff {ρ : Type} {I : Interpretation ρ} {filter : Option Filter}
    {row : ρ} :
    I.Admits filter row ↔ ∀ f, effectiveFilter filter = some f → f.holds I row = true := by
  simp only [Interpretation.Admits, effectiveFilter_eq_some_iff, and_imp]

theorem conditionOf_queryOn {ρ : Type} {I : Interpretation ρ} {row : ρ} {v : Json} {b : Bool}
    (hv : I.truth? row v = some b) (version : ApiVersion) : conditionOf (queryOn version v) = v := by
  -- a condition begins with a sign or a connective, so it is never taken for columns
  have hcondition : conditionOf v = v := by
    unfold conditionOf
    split
    · cases hv
    · rfl
  cases version
  · exact hcondition
  · exact hcondition
  · exact hcondition
  · rfl

namespace Filter

theorem isEmpty_eq_false_of_pins {column : String} {f : Filter} (hf : f.pins column = true) :
    f.isEmpty = false := by
  cases f with
  | comparison sign c expression => rfl
  | chain op fs =>
    cases fs with
    | nil => simp [pins, anyPins] at hf
    | cons f fs => rfl

theorem isEmpty_andWith (f g : Filter) : (f.andWith g).isEmpty = false := by
  unfold andWith
  split
  · next children =>
    cases children <;> rfl
  · rfl

theorem pins_andWith {column : String} {g : Filter} (f : Filter) (hg : g.pins column = true) :
    (f.andWith g).pins column = true := by
  unfold andWith
  split <;> simp [pins, anyPins_eq_any, hg]

end Filter

namespace Selection

variable {I : Interpretation Resource} {r : Resource}

/-! ### The condition -/

/-- A selection wants the resources that its filter admits, with the exported flag that it gives. -/
def Wants (I : Interpretation Resource) (s : Selection) (r : Resource) : Prop :=
  I.Admits s.filter r ∧ ∀ flag, s.exported = some flag → r.exported = flag

theorem condition_eq_none_iff {s : Selection} :
    s.condition = none ↔ (∀ f, s.filter = some f → f.isEmpty = true) ∧ s.exported = none := by
  rw [← effectiveFilter_eq_none_iff]
  unfold condition
  cases s.exported <;> cases effectiveFilter s.filter <;> simp

theorem toJson_and (q p : Query) :
    (Query.and q p).toJson = .array [.string "and", q.toJson, p.toJson] := rfl

theorem truth?_exported (hI : I.ReadsResources) (flag : Bool) :
    I.truth? r (Query.comparison "=" "exported" (.bool flag)).toJson =
      some (decide (r.exported = flag)) := by
  have hread : I.compares .equal "exported" (.bool flag) r = decide (r.exported = flag) := by
    simp [hI.exported (.bool flag) r]
  rw [← hread]
  exact Interpretation.truth?_comparison .equal "exported" (.bool flag)

/-- The condition of a selection holds of just the resources that it wants. -/
theorem truth?_condition (hI : I.ReadsResources) {s : Selection} {q : Query}
    (hq : s.condition = some q) :
    ∃ b, I.truth? r q.toJson = some b ∧ (b = true ↔ s.Wants I r) := by
  rw [Wants, Interpretation.admits_iff]
  unfold condition at hq
  cases hflag : s.exported with
  | none =>
    cases hfilter : effectiveFilter s.filter with
    | none => simp [hflag, hfilter] at hq
    | some f =>
      simp only [hflag, hfilter, Option.map_none, Option.map_some, Option.some.injEq] at hq
      subst hq
      exact ⟨_, Filter.truth?_toJson_compile f, by simp⟩
  | some flag =>
    cases hfilter : effectiveFilter s.filter with
    | none =>
      simp only [hflag, hfilter, Option.map_none, Option.map_some, Option.some.injEq] at hq
      subst hq
      exact ⟨_, truth?_exported hI flag, by simp⟩
    | some f =>
      simp only [hflag, hfilter, Option.map_some, Option.some.injEq] at hq
      subst hq
      rw [toJson_and, Interpretation.truth?_and (truth?_exported hI flag)
        (Filter.truth?_toJson_compile f)]
      exact ⟨_, rfl, by simp [and_comm]⟩

theorem toJson_query (s : Selection) (version : ApiVersion) :
    (s.query version).map Query.toJson = (s.condition.map Query.toJson).map (queryOn version) := by
  rw [query, Option.map_map, Option.map_map]
  congr 1
  funext q
  cases version <;> rfl

/-! ### The selection of a type -/

theorem splitKind_cases (key : String) :
    (∃ bare, key = "@@" ++ bare ∧ splitKind key = (bare, true)) ∨
      (∀ bare, key ≠ "@@" ++ bare) ∧ splitKind key = (key, false) := by
  unfold splitKind
  split
  · next bare hkey =>
    refine .inl ⟨String.ofList bare, ?_, rfl⟩
    rw [← String.toList_inj, hkey]
    simp
  · next hkey =>
    refine .inr ⟨fun bare hbare => ?_, rfl⟩
    refine hkey bare.toList ?_
    rw [hbare, String.toList_append]
    rfl

/-- The filter of the selection of a type: the filter that is given, and the type. -/
def kindFilter (key : String) (filter : Option Filter) : Filter :=
  match effectiveFilter filter with
  | some f => f.andWith (.equals "type" (splitKind key).1)
  | none => .equals "type" (splitKind key).1

theorem ofKind_eq (key : String) (filter : Option Filter) :
    ofKind key filter = ⟨some (kindFilter key filter), some (splitKind key).2⟩ := rfl

theorem isEmpty_kindFilter (key : String) (filter : Option Filter) :
    (kindFilter key filter).isEmpty = false := by
  unfold kindFilter
  split
  · exact Filter.isEmpty_andWith ..
  · rfl

theorem pins_kindFilter (key : String) (filter : Option Filter) :
    (kindFilter key filter).pins "type" = true := by
  have hequals : (Filter.equals "type" (splitKind key).1).pins "type" = true := by
    simp [Filter.equals, Filter.pins]
  unfold kindFilter
  split
  · exact Filter.pins_andWith _ hequals
  · exact hequals

theorem holds_kindFilter_iff (hI : I.ReadsResources) {key : String} {filter : Option Filter} :
    (kindFilter key filter).holds I r = true ↔ I.Admits filter r ∧ r.kind = (splitKind key).1 := by
  have hequals : (Filter.equals "type" (splitKind key).1).holds I r =
      decide (r.kind = (splitKind key).1) := by
    rw [Filter.equals, Filter.holds, hI.kind]
    simp
  rw [Interpretation.admits_iff]
  unfold kindFilter
  cases effectiveFilter filter with
  | none => simp [hequals]
  | some f => simp [Filter.holds_andWith, hequals]

/-- The selection of a type wants the resources of the type, exported if the mark stands before it
and else not, that the filter admits. -/
theorem ofKind_wants_iff (hI : I.ReadsResources) {key : String} {filter : Option Filter} :
    (ofKind key filter).Wants I r ↔
      I.Admits filter r ∧ (key = "@@" ++ r.kind ∧ r.exported = true ∨
        (∀ bare, key ≠ "@@" ++ bare) ∧ key = r.kind ∧ r.exported = false) := by
  have hfilter : I.Admits (some (kindFilter key filter)) r ↔
      I.Admits filter r ∧ r.kind = (splitKind key).1 := by
    rw [← holds_kindFilter_iff hI]
    simp [Interpretation.Admits, isEmpty_kindFilter]
  rw [ofKind_eq, Wants, hfilter, and_assoc]
  simp only [Option.some.injEq, forall_eq']
  refine and_congr_right fun _ => ?_
  obtain ⟨bare, rfl, hsplit⟩ | ⟨hkey, hsplit⟩ := splitKind_cases key
  · have hinj : "@@" ++ bare = "@@" ++ r.kind ↔ r.kind = bare := by
      rw [String.append_right_inj, eq_comm]
    have hmark : ¬ ∀ b, "@@" ++ bare ≠ "@@" ++ b := fun h => h bare rfl
    rw [hsplit, hinj]
    simp only [hmark, false_and, or_false]
  · rw [hsplit]
    constructor
    · rintro ⟨hkind, hexported⟩
      exact .inr ⟨hkey, hkind.symm, hexported⟩
    · rintro (⟨hmark, -⟩ | ⟨-, hkind, hexported⟩)
      · exact absurd hmark (hkey r.kind)
      · exact ⟨hkind.symm, hexported⟩

/-- The type is fixed, so the titles are all that the resources of a type are ordered by. -/
theorem order_ofKind (key : String) (filter : Option Filter) :
    (ofKind key filter).order = [.ascending "title"] := by
  have hpins : (ofKind key filter).pinsKind = true := pins_kindFilter key filter
  rw [order, hpins, ofKind_eq]
  rfl

theorem exists_condition_ofKind (key : String) (filter : Option Filter) :
    ∃ q, (ofKind key filter).condition = some q := by
  cases h : (ofKind key filter).condition with
  | some q => exact ⟨q, rfl⟩
  | none => cases (condition_eq_none_iff.1 h).2

/-! ### What a store selects -/

/-- For the query of a selection a store selects the resources that are wanted. -/
theorem forall_selects_iff_wants (hI : I.ReadsResources) {s : Selection} {version : ApiVersion} :
    (∀ q, s.query version = some q → I.Selects q r) ↔ s.Wants I r := by
  have hjson := s.toJson_query version
  cases hcondition : s.condition with
  | none =>
    -- nothing restricts the rows, and none is left out
    obtain ⟨hempty, hexported⟩ := condition_eq_none_iff.1 hcondition
    have hquery : s.query version = none := by rw [query, hcondition, Option.map_none]
    refine ⟨fun _ => ⟨fun f hf hne => ?_, fun flag hflag => ?_⟩, fun _ q hq => ?_⟩
    · rw [hempty f hf] at hne
      cases hne
    · rw [hexported] at hflag
      cases hflag
    · rw [hquery] at hq
      cases hq
  | some p =>
    obtain ⟨b, hb, hwants⟩ := truth?_condition (r := r) hI hcondition
    rw [hcondition] at hjson
    obtain ⟨q, hq, hqp⟩ := Option.map_eq_some_iff.1 hjson
    rw [← hwants, hq]
    simp [Interpretation.Selects, hqp, conditionOf_queryOn hb, hb]

end Selection

/-- **Queries for resources select the right rows, on every version.**  A selection has one
condition on all versions, and none if and only if its filter is absent or empty and it gives no
exported flag. In whatever way a store compares rows and negates, the condition holds of just the
rows that the filter admits and that have the exported flag.  The requests for the resources of a
type, of which there is at least one, ask for the pages of such a query, in the order of their
titles, and it holds of just the rows of the type that the filter admits, exported if the type is
marked with `@@` and else not. -/
theorem Client.resource_queries_exact :
    (∀ s : Selection, ∃ condition : Option Json,
      (condition = none ↔ (∀ f, s.filter = some f → f.isEmpty = true) ∧ s.exported = none) ∧
      (∀ version, (s.query version).map Query.toJson = condition.map (queryOn version)) ∧
      ∀ v, condition = some v → ∀ I : Interpretation Resource, I.ReadsResources →
        ∀ r, ∃ b, I.truth? r v = some b ∧
          (b = true ↔ I.Admits s.filter r ∧ ∀ flag, s.exported = some flag → r.exported = flag)) ∧
    ∀ (key : String) (filter : Option Filter), ∃ condition : Json,
      (∀ c : Client, ∃ q : Query, q.toJson = queryOn c.version condition ∧
        ∀ answers : List Answer, (c.resourcesOfKind key filter answers).requests ≠ [] ∧
          ∀ k request, (c.resourcesOfKind key filter answers).requests[k]? = some request →
            ∃ path, request = .get path ∧
              Parameters.Asks ⟨c.version, some q, [.ascending "title"]⟩ "resources"
                (max c.pageSize 1) (k * max c.pageSize 1) path) ∧
      ∀ I : Interpretation Resource, I.ReadsResources →
        ∀ r, ∃ b, I.truth? r condition = some b ∧
          (b = true ↔ I.Admits filter r ∧ (key = "@@" ++ r.kind ∧ r.exported = true ∨
            (∀ bare, key ≠ "@@" ++ bare) ∧ key = r.kind ∧ r.exported = false)) := by
  constructor
  · intro s
    refine ⟨s.condition.map Query.toJson, ?_, s.toJson_query, ?_⟩
    · rw [Option.map_eq_none_iff, Selection.condition_eq_none_iff]
    · intro v hv I hI r
      obtain ⟨q, hq, rfl⟩ := Option.map_eq_some_iff.1 hv
      exact Selection.truth?_condition hI hq
  · intro key filter
    obtain ⟨p, hp⟩ := Selection.exists_condition_ofKind key filter
    refine ⟨p.toJson, fun c => ?_, fun I hI r => ?_⟩
    · have hjson := (Selection.ofKind key filter).toJson_query c.version
      rw [hp] at hjson
      obtain ⟨q, hq, hqp⟩ := Option.map_eq_some_iff.1 hjson
      refine ⟨q, hqp, fun answers => ?_⟩
      have hasks := c.asks_of_mem_requests (.ofKind key filter) answers
      rw [resourceParameters, hq, Selection.order_ofKind] at hasks
      exact hasks
    · obtain ⟨b, hb, hwants⟩ := Selection.truth?_condition hI hp
      exact ⟨b, hb, hwants.trans (Selection.ofKind_wants_iff hI)⟩

/-- Only equality on the type, the title and the exported flag holds of a resource, and `not` of
what none of the operands holds of. -/
def Resource.equalities : Interpretation Resource where
  compares sign column expression r :=
    sign = .equal && (column = "type" && Json.string r.kind = expression ||
      column = "title" && Json.string r.title = expression ||
      column = "exported" && Json.bool r.exported = expression)
  negates values := values.all not

theorem Resource.readsResources_equalities : Resource.equalities.ReadsResources where
  kind expression r := by simp [equalities]
  exported expression r := by simp [equalities]

/-- What is not the greeting. -/
def Filter.notMotd : Filter := .negate (.equals "title" "/etc/motd")

/-- Another file, which may be exported. -/
def issue (exported : Bool) : Resource := ⟨"web1", "File", "/etc/issue", exported, .null, none⟩

/-- The exported files but for the greeting, selected in both ways. -/
theorem Client.resource_queries_files :
    Resource.equalities.ReadsResources ∧
    (∃ v, (Selection.query ⟨some .notMotd, some true⟩ .v4).map Query.toJson = some (queryOn .v4 v) ∧
      Resource.equalities.truth? (issue true) v = some true ∧
      Resource.equalities.truth? (motd "web1") v = some false) ∧
    ∃ v, (∃ q : Query, q.toJson = queryOn .v4 v ∧ ∃ path,
        (resourcesOfKind ⟨.v4, 2⟩ "@@File" (some .notMotd) []).requests = [.get path] ∧
        Parameters.Asks ⟨.v4, some q, [.ascending "title"]⟩ "resources" 2 0 path) ∧
      Resource.equalities.truth? (issue true) v = some true ∧
      Resource.equalities.truth? (motd "web1") v = some false := by
  have hI := Resource.readsResources_equalities
  have hissue : Resource.equalities.Admits (some .notMotd) (issue true) := by
    rintro f ⟨⟩ -
    rfl
  refine ⟨hI, ?_, ?_⟩
  · obtain ⟨condition, hnone, hquery, htruth⟩ := resource_queries_exact.1 ⟨some .notMotd, some true⟩
    cases condition with
    | none => cases (hnone.1 rfl).2
    | some v =>
      refine ⟨v, hquery .v4, ?_, ?_⟩
      · obtain ⟨b, hb, hwants⟩ := htruth v rfl _ hI (issue true)
        rw [hb, hwants.2 ⟨hissue, by rintro flag ⟨⟩; rfl⟩]
      · obtain ⟨b, hb, hwants⟩ := htruth v rfl _ hI (motd "web1")
        rw [hb, Option.some.injEq, Bool.eq_false_iff]
        intro h
        cases (hwants.1 h).2 true rfl
  · obtain ⟨v, hquery, htruth⟩ := resource_queries_exact.2 "@@File" (some .notMotd)
    obtain ⟨q, hq, hrequests⟩ := hquery ⟨.v4, 2⟩
    obtain ⟨path, hget, hasks⟩ := (hrequests []).2 0 _ rfl
    refine ⟨v, ⟨q, hq, path, by rw [← hget]; rfl, hasks⟩, ?_, ?_⟩
    · obtain ⟨b, hb, hwants⟩ := htruth _ hI (issue true)
      rw [hb, hwants.2 ⟨hissue, .inl ⟨rfl, rfl⟩⟩]
    · obtain ⟨b, hb, hwants⟩ := htruth _ hI (motd "web1")
      rw [hb, Option.some.injEq, Bool.eq_false_iff]
      intro h
      rcases (hwants.1 h).2 with ⟨-, hexported⟩ | ⟨hmark, -⟩
      · cases hexported
      · exact hmark "File" rfl

namespace Selection

variable {I : Interpretation Resource} {r : Resource}

/-! ### Leaving out what is fixed -/

/-- Exported resources first, then by type, then by title. -/
def fullOrder : List OrderBy := [.descending "exported", .ascending "type", .ascending "title"]

variable {collate : String → String → Ordering} {t : Resource}

theorem Wants.kind_eq (hI : I.ReadsResources) {s : Selection} (hr : s.Wants I r) (ht : s.Wants I t)
    (hs : s.pinsKind = true) : r.kind = t.kind := by
  unfold pinsKind at hs
  cases hfilter : s.filter with
  | none => simp [hfilter] at hs
  | some f =>
    have hpins : f.pins "type" = true := by simpa [hfilter] using hs
    have hempty := Filter.isEmpty_eq_false_of_pins hpins
    obtain ⟨v, hv⟩ := Filter.exists_eq_of_pins hI.kind f hpins
    have hkind : Json.string r.kind = .string t.kind :=
      (hv r (hr.1 f hfilter hempty)).trans (hv t (ht.1 f hfilter hempty)).symm
    exact Json.string.inj hkind

/-- Among the resources that a selection wants, its ordering compares as the full one does. -/
theorem compareRows_order [Std.ReflCmp collate] (hI : I.ReadsResources) {s : Selection}
    (hr : s.Wants I r) (ht : s.Wants I t) :
    OrderBy.compareRows (Resource.compareColumn collate) s.order r t =
      OrderBy.compareRows (Resource.compareColumn collate) fullOrder r t := by
  have hexported : ∀ flag, s.exported = some flag →
      OrderBy.compareField (Resource.compareColumn collate) (.descending "exported") r t = .eq := by
    intro flag hflag
    have heq : t.exported = r.exported := (ht.2 flag hflag).trans (hr.2 flag hflag).symm
    simp [OrderBy.compareField, OrderBy.descending, Resource.compareColumn, heq]
  have hkind : s.pinsKind = true →
      OrderBy.compareField (Resource.compareColumn collate) (.ascending "type") r t = .eq := by
    intro hs
    have heq := hr.kind_eq hI ht hs
    simp [OrderBy.compareField, OrderBy.ascending, Resource.compareColumn, heq,
      Std.ReflCmp.compare_self]
  unfold order fullOrder
  cases hflag : s.exported with
  | none =>
    cases hpins : s.pinsKind with
    | false => rfl
    | true => simp [OrderBy.compareRows, hkind hpins]
  | some flag =>
    cases hpins : s.pinsKind with
    | false => simp [OrderBy.compareRows, hexported flag hflag]
    | true => simp [OrderBy.compareRows, hexported flag hflag, hkind hpins]

end Selection

/-- **A shortened ordering sorts the same.**  Among the rows that a store selects for the query of a
selection, on any version, the ordering of the selection compares as the one by exported flag, type
and title does.  This is so because the rows that a filter admits, in whatever way the store
compares other columns and negates, have one and the same value in a column that it pins. -/
theorem Client.shortened_order_exact (collate : String → String → Ordering)
    [Std.ReflCmp collate] :
    (∀ (I : Interpretation Resource), I.ReadsResources → ∀ (s : Selection) version r t,
      (∀ q, s.query version = some q → I.Selects q r) →
      (∀ q, s.query version = some q → I.Selects q t) →
      OrderBy.compareRows (Resource.compareColumn collate) s.order r t =
        OrderBy.compareRows (Resource.compareColumn collate)
          [.descending "exported", .ascending "type", .ascending "title"] r t) ∧
    ∀ {ρ : Type} (I : Interpretation ρ) (column : String) (value : ρ → Json),
      I.ReadsColumn column value → ∀ f : Filter, f.pins column = true →
        ∃ v, ∀ row, f.holds I row = true → value row = v := by
  refine ⟨fun I hI s version r t hr ht => ?_, fun I column value hI f hf =>
    Filter.exists_eq_of_pins hI f hf⟩
  exact Selection.compareRows_order hI ((Selection.forall_selects_iff_wants hI).1 hr)
    ((Selection.forall_selects_iff_wants hI).1 ht)

/-- The files that are not exported. -/
def Selection.files : Selection := ⟨some (.chain .and [.equals "type" "File"]), some false⟩

/-- Two files of one type are ordered by their titles alone. -/
theorem Client.shortened_order_files :
    Std.ReflCmp (compare : String → String → Ordering) ∧ Resource.equalities.ReadsResources ∧
    (∀ q, Selection.files.query .v4 = some q → Resource.equalities.Selects q (issue false)) ∧
    (∀ q, Selection.files.query .v4 = some q → Resource.equalities.Selects q (motd "web1")) ∧
    OrderBy.compareRows (Resource.compareColumn compare) [.ascending "title"]
        (issue false) (motd "web1") =
      OrderBy.compareRows (Resource.compareColumn compare)
        [.descending "exported", .ascending "type", .ascending "title"] (issue false) (motd "web1") ∧
    ∃ v, ∀ row, Filter.holds Resource.equalities row (.chain .and [.equals "type" "File"]) = true →
      Json.string row.kind = v := by
  have hI := Resource.readsResources_equalities
  have hselects : ∀ r : Resource, r.kind = "File" → r.exported = false →
      ∀ q, Selection.files.query .v4 = some q → Resource.equalities.Selects q r := by
    intro r hkind hexported
    refine (Selection.forall_selects_iff_wants hI).2 ⟨?_, ?_⟩
    · rintro f ⟨⟩ -
      refine Filter.holds_and_iff.2 fun f hf => ?_
      obtain rfl := List.mem_singleton.1 hf
      simp [Filter.equals, Filter.holds, Resource.equalities, hkind]
    · rintro flag ⟨⟩
      exact hexported
  have hissue := hselects (issue false) rfl rfl
  have hmotd := hselects (motd "web1") rfl rfl
  have hexact := shortened_order_exact compare
  exact ⟨inferInstance, hI, hissue, hmotd,
    hexact.1 _ hI .files .v4 (issue false) (motd "web1") hissue hmotd,
    hexact.2 _ "type" _ hI.kind _ rfl⟩

end NodeInventory
