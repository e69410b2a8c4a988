import NodeInventory.Json.Reader
import Mathlib.Data.List.Induction
import Mathlib.Data.List.Nodup

/-!
# Objects without repeated fields

No object in a value that has been read names a field twice (`Json.DistinctKeys`), because repeated
fields are merged, and merging changes nothing in such a value.

* `Json.mergeFields_of_nodup` : fields of different names stay as they are;
* `Json.keys_mergeFields`, `Json.mem_mergeFields_iff` : merged fields have the names of all in the
  order in which these first come, each with the value that came last;
* `Json.mergeKeys_of_distinctKeys` : so does a value without repeated fields;
* `Json.distinctKeys_mergeKeys` : no field is repeated in a merged value.
-/

namespace NodeInventory

namespace Json

/-! ### Lists of fields -/

section Fields

variable {α : Type} {name : String} {value : α} {fields : List (String × α)}

theorem setField_of_not_mem (h : name ∉ fields.map (·.1)) :
    setField name value fields = fields ++ [(name, value)] := by
  induction fields with
  | nil => rfl
  | cons f fields ih =>
    rw [List.map_cons, List.mem_cons, not_or] at h
    rw [setField, if_neg (Ne.symm h.1), ih h.2]
    rfl

theorem keys_setField_of_mem (h : name ∈ fields.map (·.1)) :
    (setField name value fields).map (·.1) = fields.map (·.1) := by
  induction fields with
  | nil => cases h
  | cons f fields ih =>
    rw [setField]
    split
    · rfl
    · next hne =>
      have htail := (List.mem_cons.1 h).resolve_left (Ne.symm hne)
      rw [List.map_cons, List.map_cons, ih htail]

theorem nodup_keys_setField (h : (fields.map (·.1)).Nodup) :
    ((setField name value fields).map (·.1)).Nodup := by
  by_cases hname : name ∈ fields.map (·.1)
  · rwa [keys_setField_of_mem hname]
  · rw [setField_of_not_mem hname, List.map_append]
    exact List.nodup_append.2 ⟨h, List.nodup_singleton _, fun k hk l hl =>
      (List.mem_singleton.1 hl) ▸ ne_of_mem_of_not_mem hk hname⟩

theorem mem_of_mem_setField {f : String × α} (h : f ∈ setField name value fields) :
    f.2 = value ∨ f ∈ fields := by
  induction fields with
  | nil => exact .inl (congrArg Prod.snd (List.mem_singleton.1 h))
  | cons g fields ih =>
    rw [setField] at h
    split at h
    · exact (List.mem_cons.1 h).imp (congrArg Prod.snd) (List.mem_cons_of_mem _)
    · rcases List.mem_cons.1 h with rfl | h
      · exact .inr List.mem_cons_self
      · exact (ih h).imp_right (List.mem_cons_of_mem _)

theorem mergeFields_concat (fields : List (String × α)) (name : String) (value : α) :
    mergeFields (fields ++ [(name, value)]) = setField name value (mergeFields fields) := by
  rw [mergeFields, List.foldl_append]
  rfl

theorem mergeFields_of_nodup (h : (fields.map (·.1)).Nodup) : mergeFields fields = fields := by
  induction fields using List.reverseRecOn with
  | nil => rfl
  | append_singleton fields f ih =>
    rw [List.map_append, List.nodup_append] at h
    rw [mergeFields_concat, ih h.1, setField_of_not_mem]
    exact fun hf => h.2.2 _ hf _ (List.mem_singleton_self _) rfl

theorem nodup_keys_mergeFields (fields : List (String × α)) :
    ((mergeFields fields).map (·.1)).Nodup := by
  induction fields using List.reverseRecOn with
  | nil => exact List.nodup_nil
  | append_singleton fields f ih =>
    rw [mergeFields_concat]
    exact nodup_keys_setField ih

theorem value_mem_of_mem_mergeFields {f : String × α} (h : f ∈ mergeFields fields) :
    f.2 ∈ fields.map (·.2) := by
  induction fields using List.reverseRecOn with
  | nil => cases h
  | append_singleton fields g ih =>
    rw [mergeFields_concat] at h
    rw [List.map_append, List.mem_append]
    exact (mem_of_mem_setField h).symm.imp ih List.mem_singleton.2

/-! ### First places and last values -/

/-- The value of the last field of a name. -/
def lastValue? (name : String) (fields : List (String × α)) : Option α :=
  ((fields.filter fun f => f.1 = name).getLast?).map (·.2)

theorem lastValue?_concat (fields : List (String × α)) (k name : String) (value : α) :
    lastValue? k (fields ++ [(name, value)]) =
      if k = name then some value else lastValue? k fields := by
  by_cases hk : k = name
  · simp [lastValue?, hk]
  · simp [lastValue?, hk, Ne.symm hk]

theorem eraseDups_concat (names : List String) (name : String) :
    (names ++ [name]).eraseDups =
      if name ∈ names then names.eraseDups else names.eraseDups ++ [name] := by
  rw [List.eraseDups_append]
  split
  · next hname => simp [List.removeAll, hname]
  · next hname => simp [List.removeAll, hname, List.eraseDups_cons]

/-- The names stand in the order in which they first came. -/
theorem keys_mergeFields (fields : List (String × α)) :
    (mergeFields fields).map (·.1) = (fields.map (·.1)).eraseDups := by
  induction fields using List.reverseRecOn with
  | nil => rfl
  | append_singleton fields f ih =>
    have hmem : f.1 ∈ (mergeFields fields).map (·.1) ↔ f.1 ∈ fields.map (·.1) := by
      rw [ih, List.mem_eraseDups]
    rw [mergeFields_concat, List.map_append, List.map_singleton, eraseDups_concat, ← ih]
    split
    · next hf => rw [keys_setField_of_mem (hmem.2 hf)]
    · next hf => rw [setField_of_not_mem (mt hmem.1 hf), List.map_append, List.map_singleton]

theorem mem_setField_iff (h : (fields.map (·.1)).Nodup) {k : String} {v : α} :
    (k, v) ∈ setField name value fields ↔ if k = name then v = value else (k, v) ∈ fields := by
  induction fields with
  | nil => split <;> simp_all [setField]
  | cons f fields ih =>
    obtain ⟨l, u⟩ := f
    rw [List.map_cons, List.nodup_cons] at h
    rw [setField]
    split
    · next hl =>
      subst hl
      by_cases hk : k = l
      · -- no later field has the name
        subst hk
        have hlater : (k, v) ∉ fields := fun hmem => h.1 (List.mem_map.2 ⟨_, hmem, rfl⟩)
        simp [hlater]
      · simp [hk]
    · next hl =>
      rw [List.mem_cons, ih h.2]
      by_cases hk : k = name
      · simp [hk, Ne.symm hl]
      · simp [hk]

/-- Each name has the value that came last. -/
theorem mem_mergeFields_iff {k : String} {v : α} :
    (k, v) ∈ mergeFields fields ↔ lastValue? k fields = some v := by
  induction fields using List.reverseRecOn with
  | nil => simp [mergeFields, lastValue?]
  | append_singleton fields f ih =>
    rw [mergeFields_concat, mem_setField_iff (nodup_keys_mergeFields fields), lastValue?_concat, ih]
    split
    · rw [Option.some.injEq, eq_comm]
    · exact Iff.rfl

theorem eq_mergeFields_iff {merged : List (String × α)} :
    merged = mergeFields fields ↔ merged.map (·.1) = (fields.map (·.1)).eraseDups ∧
      ∀ f ∈ merged, lastValue? f.1 fields = some f.2 := by
  have hvalues : ∀ {l : List (String × α)}, (∀ f ∈ l, lastValue? f.1 fields = some f.2) →
      (l.map (·.1)).filterMap (fun k => (lastValue? k fields).map fun v => (k, v)) = l := by
    intro l hl
    rw [List.filterMap_map]
    refine (List.filterMap_congr fun f hf => ?_).trans List.filterMap_some
    simp [hl f hf]
  constructor
  · rintro rfl
    exact ⟨keys_mergeFields fields, fun f hf => mem_mergeFields_iff.1 hf⟩
  · rintro ⟨hkeys, hlast⟩
    rw [← hvalues hlast, ← hvalues fun f hf => mem_mergeFields_iff.1 hf, hkeys, keys_mergeFields]

end Fields

/-! ### Whole values -/

mutual

/-- No object in the value names a field twice. -/
def DistinctKeys : Json → Prop
  | .array items => DistinctKeysItems items
  | .object fields => (fields.map (·.1)).Nodup ∧ DistinctKeysFields fields
  | _ => True

/-- No object in the items names a field twice. -/
def DistinctKeysItems : List Json → Prop
  | [] => True
  | v :: items => DistinctKeys v ∧ DistinctKeysItems items

/-- No object in the values of the fields names a field twice. -/
def DistinctKeysFields : List (String × Json) → Prop
  | [] => True
  | (_, v) :: fields => DistinctKeys v ∧ DistinctKeysFields fields

end

theorem distinctKeysFields_iff {fields : List (String × Json)} :
    DistinctKeysFields fields ↔ ∀ v ∈ fields.map (·.2), DistinctKeys v := by
  induction fields with
  | nil => simp [DistinctKeysFields]
  | cons f fields ih => simp [DistinctKeysFields, ih]

mutual

/-- Merging repeated fields changes nothing where none is repeated. -/
theorem mergeKeys_of_distinctKeys (v : Json) (h : v.DistinctKeys) : v.mergeKeys = v := by
  cases v with
  | array items =>
    rw [DistinctKeys] at h
    rw [mergeKeys, mergeItems_of_distinctKeys items h]
  | object fields =>
    rw [DistinctKeys] at h
    rw [mergeKeys, mergeFieldValues_of_distinctKeys fields h.2, mergeFields_of_nodup h.1]
  | null | bool | number | string => rfl

theorem mergeItems_of_distinctKeys (items : List Json) (h : DistinctKeysItems items) :
    mergeItems items = items := by
  cases items with
  | nil => rfl
  | cons v items =>
    rw [DistinctKeysItems] at h
    rw [mergeItems, mergeKeys_of_distinctKeys v h.1, mergeItems_of_distinctKeys items h.2]

theorem mergeFieldValues_of_distinctKeys (fields : List (String × Json))
    (h : DistinctKeysFields fields) : mergeFieldValues fields = fields := by
  cases fields with
  | nil => rfl
  | cons f fields =>
    obtain ⟨k, v⟩ := f
    rw [DistinctKeysFields] at h
    rw [mergeFieldValues, mergeKeys_of_distinctKeys v h.1,
      mergeFieldValues_of_distinctKeys fields h.2]

end

mutual

/-- No field is repeated in a merged value. -/
theorem distinctKeys_mergeKeys (v : Json) : v.mergeKeys.DistinctKeys := by
  cases v with
  | array items =>
    rw [mergeKeys, DistinctKeys]
    exact distinctKeys_mergeItems items
  | object fields =>
    have hvalues := distinctKeysFields_iff.1 (distinctKeys_mergeFieldValues fields)
    rw [mergeKeys, DistinctKeys, distinctKeysFields_iff]
    refine ⟨nodup_keys_mergeFields _, fun v hv => ?_⟩
    obtain ⟨f, hf, rfl⟩ := List.mem_map.1 hv
    exact hvalues _ (value_mem_of_mem_mergeFields hf)
  | null | bool | number | string => trivial

theorem distinctKeys_mergeItems (items : List Json) : DistinctKeysItems (mergeItems items) := by
  cases items with
  | nil => trivial
  | cons v items =>
    rw [mergeItems, DistinctKeysItems]
    exact ⟨distinctKeys_mergeKeys v, distinctKeys_mergeItems items⟩

theorem distinctKeys_mergeFieldValues (fields : List (String × Json)) :
    DistinctKeysFields (mergeFieldValues fields) := by
  cases fields with
  | nil => trivial
  | cons f fields =>
    obtain ⟨k, v⟩ := f
    rw [mergeFieldValues, DistinctKeysFields]
    exact ⟨distinctKeys_mergeKeys v, distinctKeys_mergeFieldValues fields⟩

end

theorem distinctKeys_of_parse {s : String} {v : Json} (h : parse s = some v) : v.DistinctKeys := by
  obtain ⟨w, -, h⟩ := Option.bind_eq_some_iff.1 h
  obtain ⟨u, -, h⟩ := Option.bind_eq_some_iff.1 h
  cases h
  exact distinctKeys_mergeKeys u

end Json

end NodeInventory
