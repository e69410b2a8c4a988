import NodeInventory.Proofs.Json.Merge
import NodeInventory.Proofs.Listing.Selection

/-!
# The listing of types

A row of the listing of types counts the resources of a type that are, or are not, exported.  Its
key is looked up with the same mark, `@@`, that it is made with.  Types that begin with the mark
themselves are left out of what follows: such a type that is not exported has the key of another one
that is.

* `TypeCount.splitKind_key_iff` : when a key is read as the type and the flag of its row;
* `TypeCount.labels_of_nodup` : rows that differ in type or flag keep one label each;
* `Selection.toJson_condition_ofKind`, `Selection.truth?_kindCondition` : the condition that a key
  is looked up with, and what it holds of;
* `TypeCount.labels_exact` : a key selects the resources that have been counted under it.
-/

namespace NodeInventory

namespace TypeCount

/-! ### Keys and labels -/

theorem label_eq (c : TypeCount) : c.label = c.key ++ " (" ++ toString c.count ++ ")" := by
  simp [label, toString]

/-- A key is read as the type and the flag of its row, unless the mark stands before a type that is
not exported. -/
theorem splitKind_key_iff {c : TypeCount} :
    splitKind c.key = (c.kind, c.exported) ↔ c.exported = true ∨ ∀ bare, c.kind ≠ "@@" ++ bare := by
  obtain ⟨kind, exported, count⟩ := c
  cases exported with
  | true =>
    obtain ⟨bare, hbare, hsplit⟩ | ⟨hkey, -⟩ := Selection.splitKind_cases ("@@" ++ kind)
    · obtain rfl : kind = bare := (String.append_right_inj "@@").1 hbare
      simpa [key, exportedMark] using hsplit
    · exact absurd rfl (hkey kind)
  | false =>
    obtain ⟨bare, hbare, hsplit⟩ | ⟨hkey, hsplit⟩ := Selection.splitKind_cases kind
    · subst hbare
      simp [key, hsplit]
    · simpa [key, hsplit] using hkey

/-- Rows that differ in type or flag keep one label each, if their keys are read as these. -/
theorem labels_of_nodup {counts : List TypeCount}
    (hdistinct : (counts.map fun c => (c.kind, c.exported)).Nodup)
    (hkeys : ∀ c ∈ counts, splitKind c.key = (c.kind, c.exported)) :
    labels counts = counts.map fun c => (c.key, c.label) := by
  refine Json.mergeFields_of_nodup ?_
  rw [← List.map_congr_left hkeys, ← Function.comp_def, ← List.map_map] at hdistinct
  rw [List.map_map]
  exact hdistinct.of_map

end TypeCount

/-! ### Looking up a key -/

namespace Selection

/-- The condition for the resources of a type that have a flag. -/
def kindCondition (kind : String) (exported : Bool) : Json :=
  .array [.string "and", .array [.string "=", .string "exported", .bool exported],
    .array [.string "=", .string "type", .string kind]]

theorem toJson_condition_ofKind (key : String) :
    (ofKind key none).condition.map Query.toJson =
      some (kindCondition (splitKind key).1 (splitKind key).2) := rfl

/-- This condition holds of just the resources of the type with the flag. -/
theorem truth?_kindCondition {I : Interpretation Resource} (hI : I.ReadsResources) (kind : String)
    (exported : Bool) (r : Resource) :
    I.truth? r (kindCondition kind exported) =
      some (decide (r.kind = kind ∧ r.exported = exported)) := by
  have hkind : I.truth? r (.array [.string "=", .string "type", .string kind]) =
      some (decide (r.kind = kind)) := by
    have hread : I.compares .equal "type" (.string kind) r = decide (r.kind = kind) := by
      simp [hI.kind (.string kind) r]
    rw [← hread]
    exact Interpretation.truth?_comparison .equal "type" (.string kind)
  have hand := Interpretation.truth?_and (truth?_exported (r := r) hI exported) hkind
  rw [Bool.and_comm, ← Bool.decide_and] at hand
  exact hand

end Selection

/-- **The listed types and their look-up agree.**  Of rows that differ in type or flag, none of
whose types begins with the mark, every one has its label, `key (count)`, under its own key, in the
order of the rows.  Its key is read as its type and its flag; to look it up, on every version, is to
ask for the resources that have this flag and this type, and in whatever way a store compares rows
and negates, these are just the resources that have been counted in the row. -/
theorem TypeCount.labels_exact (counts : List TypeCount)
    (hdistinct : (counts.map fun c => (c.kind, c.exported)).Nodup)
    (hplain : ∀ c ∈ counts, ∀ bare, c.kind ≠ "@@" ++ bare) :
    labels counts = counts.map (fun c => (c.key, c.key ++ " (" ++ toString c.count ++ ")")) ∧
    ∀ c ∈ counts, splitKind c.key = (c.kind, c.exported) ∧
      (∀ (client : Client) (answers : List Answer), ∃ q : Query,
        q.toJson = queryOn client.version (Selection.kindCondition c.kind c.exported) ∧
        (client.resourcesOfKind c.key none answers).requests ≠ [] ∧
        ∀ k request, (client.resourcesOfKind c.key none answers).requests[k]? = some request →
          ∃ path, request = .get path ∧
            Parameters.Asks ⟨client.version, some q, [.ascending "title"]⟩ "resources"
              (max client.pageSize 1) (k * max client.pageSize 1) path) ∧
      ∀ I : Interpretation Resource, I.ReadsResources → ∀ r,
        I.truth? r (Selection.kindCondition c.kind c.exported) =
          some (decide (r.kind = c.kind ∧ r.exported = c.exported)) := by
  have hkeys : ∀ c ∈ counts, splitKind c.key = (c.kind, c.exported) := fun c hc =>
    splitKind_key_iff.2 (.inr (hplain c hc))
  refine ⟨?_, fun c hc => ⟨hkeys c hc, fun client answers => ?_, fun I hI r =>
    Selection.truth?_kindCondition hI c.kind c.exported r⟩⟩
  · simp only [labels_of_nodup hdistinct hkeys, label_eq]
  · have hjson := (Selection.ofKind c.key none).toJson_query client.version
    rw [Selection.toJson_condition_ofKind, hkeys c hc] at hjson
    obtain ⟨q, hq, hqjson⟩ := Option.map_eq_some_iff.1 hjson
    have hasks := client.asks_of_mem_requests (.ofKind c.key none) answers
    rw [Client.resourceParameters, hq, Selection.order_ofKind] at hasks
    exact ⟨q, hqjson, hasks⟩

/-- A type both exported and not, one that begins with half of the mark, and one without a name. -/
def fileCounts : List TypeCount :=
  [⟨"File", true, 3⟩, ⟨"@host", true, 1⟩, ⟨"", false, 2⟩, ⟨"File", false, 40⟩]

/-- Each has its label, and the exported `@host` is looked up by its own key. -/
theorem TypeCount.labels_exact_files :
    (fileCounts.map fun c => (c.kind, c.exported)).Nodup ∧
    (∀ c ∈ fileCounts, ∀ bare, c.kind ≠ "@@" ++ bare) ∧
    labels fileCounts = [("@@File", "@@File (3)"), ("@@@host", "@@@host (1)"), ("", " (2)"),
      ("File", "File (40)")] ∧
    splitKind "@@@host" = ("@host", true) ∧
    ∃ q : Query, q.toJson = queryOn .v4 (Selection.kindCondition "@host" true) ∧
      ∀ request, (Client.resourcesOfKind ⟨.v4, 2⟩ "@@@host" none []).requests[0]? = some request →
        ∃ path, request = .get path ∧
          Parameters.Asks ⟨.v4, some q, [.ascending "title"]⟩ "resources" 2 0 path := by
  have hplain : ∀ c ∈ fileCounts, ∀ bare, c.kind ≠ "@@" ++ bare := by
    intro c hc bare hbare
    -- no type here has the mark as its first two characters
    have htwo : ∀ c ∈ fileCounts, c.kind.toList.take 2 ≠ ['@', '@'] := by decide
    exact htwo c hc (by rw [hbare, String.toList_append]; rfl)
  have hdistinct : (fileCounts.map fun c => (c.kind, c.exported)).Nodup := by decide
  obtain ⟨hlabels, hrows⟩ := labels_exact fileCounts hdistinct hplain
  obtain ⟨hsplit, hasked, -⟩ := hrows ⟨"@host", true, 1⟩ (by decide)
  obtain ⟨q, hq, -, hrequests⟩ := hasked ⟨.v4, 2⟩ []
  exact ⟨hdistinct, hplain, hlabels, hsplit, q, hq, fun request => hrequests 0 request⟩

end NodeInventory
