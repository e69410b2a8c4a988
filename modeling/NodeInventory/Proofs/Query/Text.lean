import NodeInventory.Query
import Mathlib.Data.List.Basic
import Mathlib.Logic.Relation

/-!
# The text of a query

A query is written directly with the same text as by way of its JSON value, so it is sent as it is
shown.  An array in a query is a list of queries or a JSON value (`Query.Repacked`), and which of
the two it is does not show.

* `Query.write_eq_write_toJson` : both ways of writing a query, by recursion on it;
* `Query.eqvGen_repacked_iff` : queries that differ in the packing of their arrays alone are those
  with one JSON value;
* `Query.sent_as_shown` : the text of a query, in itself and in a parameter.
-/

namespace NodeInventory

namespace Query

mutual

/-- A query is written as its JSON value is. -/
theorem write_eq_write_toJson (q : Query) : q.write = q.toJson.write := by
  cases q with
  | atom value => rfl
  | list items =>
    cases items with
    | nil => rfl
    | cons q qs =>
      rw [write, toJson, toJsonItems, Json.write, write_eq_write_toJson q,
        writeItems_eq_writeItems_toJsonItems qs]

theorem writeItems_eq_writeItems_toJsonItems (qs : List Query) :
    writeItems qs = Json.writeItems (toJsonItems qs) := by
  cases qs with
  | nil => rfl
  | cons q qs =>
    rw [writeItems, toJsonItems, Json.writeItems, write_eq_write_toJson q,
      writeItems_eq_writeItems_toJsonItems qs]

end

/-! ### Lists and arrays -/

/-- A query with one array in it, at any depth, as a JSON value instead of a list. -/
inductive Repacked : Query → Query → Prop
  | here (values : List Json) : Repacked (.list (values.map .atom)) (.atom (.array values))
  | inside {before after : List Query} {q q' : Query} (h : Repacked q q') :
      Repacked (.list (before ++ q :: after)) (.list (before ++ q' :: after))

open Relation

theorem toJsonItems_eq_map (qs : List Query) : toJsonItems qs = qs.map toJson := by
  induction qs with
  | nil => rfl
  | cons q qs ih => rw [toJsonItems, List.map_cons, ih]

theorem Repacked.toJson_eq {q q' : Query} (h : Repacked q q') : q.toJson = q'.toJson := by
  induction h with
  | here values =>
    have hatoms : (values.map Query.atom).map toJson = values := by
      rw [List.map_map]
      exact List.map_id values
    rw [toJson, toJson, toJsonItems_eq_map, hatoms]
  | inside _ ih => simp only [toJson, toJsonItems_eq_map, List.map_append, List.map_cons, ih]

theorem eqvGen_inside {q q' : Query} (h : EqvGen Repacked q q') (before after : List Query) :
    EqvGen Repacked (.list (before ++ q :: after)) (.list (before ++ q' :: after)) := by
  induction h with
  | rel _ _ h => exact .rel _ _ (.inside h)
  | refl _ => exact .refl _
  | symm _ _ _ ih => exact .symm _ _ ih
  | trans _ _ _ _ _ ih ih' => exact .trans _ _ _ ih ih'

-- The items of a list are turned into JSON values from the left, and what has been turned stands
-- before the others.
mutual

/-- Every query can be repacked into one JSON value. -/
theorem eqvGen_atom (q : Query) : EqvGen Repacked q (.atom q.toJson) := by
  cases q with
  | atom value => exact .refl _
  | list items =>
    rw [toJson]
    exact .trans _ _ _ (eqvGen_atoms [] items) (.rel _ _ (.here _))

theorem eqvGen_atoms (before qs : List Query) :
    EqvGen Repacked (.list (before ++ qs)) (.list (before ++ (toJsonItems qs).map .atom)) := by
  cases qs with
  | nil => exact .refl _
  | cons q qs =>
    have hrest := eqvGen_atoms (before ++ [.atom q.toJson]) qs
    rw [List.append_assoc, List.append_assoc] at hrest
    rw [toJsonItems, List.map_cons]
    exact .trans _ _ _ (eqvGen_inside (eqvGen_atom q) before qs) hrest

end

/-- Two queries differ in the packing of their arrays alone if and only if they have one JSON value.
-/
theorem eqvGen_repacked_iff {q q' : Query} : EqvGen Repacked q q' ↔ q.toJson = q'.toJson := by
  constructor
  · intro h
    induction h with
    | rel _ _ h => exact h.toJson_eq
    | refl _ => rfl
    | symm _ _ _ ih => exact ih.symm
    | trans _ _ _ _ _ ih ih' => exact ih.trans ih'
  · intro h
    have hatom := eqvGen_atom q'
    rw [← h] at hatom
    exact .trans _ _ _ (eqvGen_atom q) (.symm _ _ hatom)

/-! ### Sent and shown -/

/-- **A query is sent as it is shown.**  What is written directly is the compact text of the JSON
value, and so is what is shown; a parameter that holds the query is the one that holds this value,
under every key, and it stands in front of the other parameters of a request.  Queries that differ
only in whether arrays are lists or JSON values are written alike. -/
theorem sent_as_shown (q : Query) :
    String.ofList q.write = q.toJson.text ∧ q.text = q.toJson.text ∧
    (∀ key, encodeParameter key (.query q) = encodeParameter key (.json q.toJson)) ∧
    (∀ version order, (Parameters.mk version (some q) order).parts =
      parameter "query" q.text :: (Parameters.mk version none order).parts) ∧
    ∀ q', EqvGen Repacked q q' → String.ofList q.write = String.ofList q'.write ∧
      ∀ key, encodeParameter key (.query q) = encodeParameter key (.query q') := by
  have htext : ∀ q : Query, String.ofList q.write = q.toJson.text := fun q => by
    rw [write_eq_write_toJson, Json.text]
  have hparameter : ∀ (q : Query) key,
      encodeParameter key (.query q) = encodeParameter key (.json q.toJson) := fun q key => by
    rw [encodeParameter, encodeParameter, ParameterValue.text, ParameterValue.text, htext]
  refine ⟨htext q, rfl, hparameter q, fun version order => ?_, fun q' h => ?_⟩
  · rw [Parameters.parts, Parameters.parts, text, ← htext]
    rfl
  · have hvalue := eqvGen_repacked_iff.1 h
    refine ⟨?_, fun key => ?_⟩
    · rw [htext q, htext q', hvalue]
    · rw [hparameter q, hparameter q', hvalue]

/-- The hosts that are in a list of lists, one of which is empty. -/
def hostsIn : Query :=
  .list [.ofString "in", .ofString "certname",
    .list [.ofString "array", .list [.list [], .list [.ofString "web1"]]]]

/-- The same with the innermost lists as one JSON value. -/
def hostsInPacked : Query :=
  .list [.ofString "in", .ofString "certname",
    .list [.ofString "array", .atom (.array [.array [], .array [.string "web1"]])]]

/-- Three lists are packed into one JSON value, and the text is the same. -/
theorem sent_as_shown_hosts :
    EqvGen Repacked hostsIn hostsInPacked ∧
    String.ofList hostsIn.write = String.ofList hostsInPacked.write ∧
    encodeParameter "query" (.query hostsIn) = encodeParameter "query" (.query hostsInPacked) := by
  have hrepacked : EqvGen Repacked hostsIn hostsInPacked := eqvGen_repacked_iff.2 rfl
  obtain ⟨hwrite, hparameter⟩ := (sent_as_shown hostsIn).2.2.2.2 hostsInPacked hrepacked
  exact ⟨hrepacked, hwrite, hparameter "query"⟩

end Query

end NodeInventory
