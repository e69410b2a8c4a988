import NodeInventory.Json.Reader
import NodeInventory.Proofs.Json.ReadBack
import NodeInventory.Rows
import Mathlib.Data.List.Forall2

/-!
# Records and rows

What a decoder takes from the value of an object, and the rows that are read from the body of a
reply.
-/

namespace NodeInventory

/-!
## Records in the values of objects

A decoder takes a record from an object as it is written.  If the object has a value, which repeated
fields are kept in, the fields of the record are those of the value, wherever they stand among
others.

* `Json.Written.exists_readNames_eq` : the fields as they are written and as they are in the value,
  one by one;
* `Json.Decoder.run_list_of_writes` : a list is decoded from the items of its value;
* `Json.Decoder.record_eq_some` : a record is built from the declared fields of the value
  (`Json.Decoder.Shows`), if none of them is repeated and none that is required is missing;
* `Json.Decoder.Shows.get_eq`, `Json.Decoder.Shows.getD_eq` : what becomes of one field.
-/

namespace Json

/-- A text writes a value that is not nested too deep; fields that it repeats are kept. -/
def Writes (body : String) (v : Json) : Prop :=
  ∃ w, Written.parse body = some w ∧ w.value? nestingLimit = some v

namespace Written

variable {room : ℕ}

theorem forall₂_of_itemValues? {ws : List Written} {vs : List Json}
    (h : itemValues? room ws = some vs) : List.Forall₂ (fun w v => value? room w = some v) ws vs := by
  induction ws generalizing vs with
  | nil =>
    cases h
    exact .nil
  | cons w ws ih =>
    rw [itemValues?] at h
    split at h
    · next hv hvs =>
      cases h
      exact .cons hv (ih hvs)
    · cases h

/-- A field as it is written has the name and the value of a field. -/
def IsField (room : ℕ) (w : String × Written) (f : String × Json) : Prop :=
  w.1 = f.1 ∧ value? room w.2 = some f.2

/-- The fields of a value are those that are written, one by one. -/
theorem exists_readNames_eq {ws : List (List Piece × Written)} {fields : List (String × Json)}
    (h : fieldValues? room ws = some fields) :
    ∃ named, Decoder.readNames ws = some named ∧ List.Forall₂ (IsField room) named fields := by
  induction ws generalizing fields with
  | nil =>
    cases h
    exact ⟨[], rfl, .nil⟩
  | cons w ws ih =>
    obtain ⟨pieces, w⟩ := w
    rw [fieldValues?] at h
    split at h
    · next k v fields' hk hv hfields =>
      cases h
      obtain ⟨named, hnamed, hforall⟩ := ih hfields
      refine ⟨(k, w) :: named, ?_, .cons ⟨rfl, hv⟩ hforall⟩
      rw [Decoder.readNames] at hnamed ⊢
      simp [List.mapM_cons, hk, hnamed]
    · cases h

theorem exists_array_of_value? {w : Written} {items : List Json}
    (h : w.value? (room + 1) = some (.array items)) :
    ∃ ws, w = .array ws ∧ itemValues? room ws = some items := by
  cases w with
  | array ws => simpa [value?] using h
  | null | bool | number | string | object => simp [value?] at h

theorem exists_object_of_value? {w : Written} {fields : List (String × Json)}
    (h : w.value? (room + 1) = some (.object fields)) :
    ∃ ws, w = .object ws ∧ fieldValues? room ws = some fields := by
  cases w with
  | object ws => simpa [value?] using h
  | null | bool | number | string | array => simp [value?] at h

end Written

namespace Decoder

open Written (IsField)

variable {room : ℕ}

/-! ### Lists -/

theorem mapM_eq_some {α β : Type} {d : Decoder α} {f : β → α} {ws : List Written} {rows : List β}
    (h : List.Forall₂ (fun w row => d room w = some (f row)) ws rows) :
    ws.mapM (d room) = some (rows.map f) := by
  induction h with
  | nil => rfl
  | cons hw _ ih => simp [List.mapM_cons, hw, ih]

/-- A list that a text writes is decoded item by item. -/
theorem run_list_of_writes {α β : Type} {d : Decoder α} {toJson : β → Json} {f : β → α}
    {rows : List β} {body : String} (h : Writes body (.array (rows.map toJson)))
    (hrows : ∀ row w, w.value? (nestingLimit - 1) = some (toJson row) →
      d (nestingLimit - 1) w = some (f row)) :
    (list d).run body = some (rows.map f) := by
  obtain ⟨w, hparse, hvalue⟩ := h
  obtain ⟨items, rfl, hitems⟩ := Written.exists_array_of_value? hvalue
  have hforall := List.forall₂_map_right_iff.1 (Written.forall₂_of_itemValues? hitems)
  rw [run, hparse]
  exact mapM_eq_some (hforall.imp fun w row => hrows row w)

/-! ### Declared fields -/

theorem map_fst_eq_of_forall₂ {named : List (String × Written)} {fields : List (String × Json)}
    (h : List.Forall₂ (IsField room) named fields) : named.map (·.1) = fields.map (·.1) := by
  induction h with
  | nil => rfl
  | cons h _ ih => rw [List.map_cons, List.map_cons, h.1, ih]

theorem mem_of_field?_eq_some {name : String} {fields : List (String × Json)} {v : Json}
    (h : field? name fields = some v) : name ∈ fields.map (·.1) := by
  induction fields with
  | nil => cases h
  | cons f fields ih =>
    rw [field?] at h
    split at h
    · next hf => exact hf ▸ List.mem_cons_self
    · exact List.mem_cons_of_mem _ (ih h)

/-- A field is written if and only if the value has it, and with what the value has. -/
def Shows (present : Fields) (names : List String) (fields : List (String × Json)) : Prop :=
  ∀ name ∈ names,
    Option.Rel (fun w v => w.value? present.room = some v) (present.find? name) (field? name fields)

theorem shows_of_forall₂ {named : List (String × Written)} {fields : List (String × Json)}
    (h : List.Forall₂ (IsField room) named fields) (names : List String) :
    Shows ⟨room, named.filter fun f => names.contains f.1⟩ names fields := by
  intro name hname
  induction h with
  | nil => exact .none
  | @cons w f named fields hwf _ ih =>
    obtain ⟨k, w⟩ := w
    obtain ⟨k', v⟩ := f
    obtain ⟨rfl, hv⟩ : k = k' ∧ w.value? room = some v := hwf
    rw [field?]
    split
    · next hk =>
      subst hk
      have hfind : Fields.find? ⟨room, ((k, w) :: named).filter fun f => names.contains f.1⟩ k =
          some w := by
        simp [Fields.find?, hname]
      rw [hfind]
      exact .some hv
    · next hk =>
      have hskip : Fields.find? ⟨room, ((k, w) :: named).filter fun f => names.contains f.1⟩ name =
          Fields.find? ⟨room, named.filter fun f => names.contains f.1⟩ name := by
        rw [Fields.find?, List.filter_cons]
        split
        · simp [Fields.find?, hk]
        · rfl
      rw [hskip]
      exact ih

/-- A record is built from the fields that are declared, if the value of its object has all that are
required, and none of them twice. -/
theorem record_eq_some {α : Type} {shape : Shape} {build : Fields → Option α} {a : α}
    {ws : List (List Piece × Written)} {fields : List (String × Json)}
    (h : Written.fieldValues? room ws = some fields)
    (hdistinct : ((fields.map (·.1)).filter fun name => shape.names.contains name).Nodup)
    (hrequired : shape.required ⊆ fields.map (·.1))
    (hbuild : ∀ present, Shows present shape.names fields → build present = some a) :
    record shape build (room + 1) (.object ws) = some a := by
  obtain ⟨named, hnamed, hforall⟩ := Written.exists_readNames_eq h
  have hpresent : (named.filter fun f => shape.names.contains f.1).map (·.1) =
      (fields.map (·.1)).filter fun name => shape.names.contains name := by
    rw [← map_fst_eq_of_forall₂ hforall, List.filter_map]
    rfl
  have hobject : shape.ofObject named = some (named.filter fun f => shape.names.contains f.1) := by
    rw [Shape.ofObject, hpresent, if_pos]
    refine ⟨hdistinct, fun name hname => List.mem_filter.2 ⟨hrequired hname, ?_⟩⟩
    simp [Shape.names, hname]
  rw [record, hnamed]
  simpa [hobject] using hbuild _ (shows_of_forall₂ hforall shape.names)

/-! ### One field -/

variable {α : Type} {d : Decoder α} {present : Fields} {names : List String}
  {fields : List (String × Json)} {name : String} {v : Json} {a : α}

/-- A field that the value has is decoded. -/
theorem Shows.get_eq (h : Shows present names fields) (hname : name ∈ names)
    (hv : field? name fields = some v)
    (hd : ∀ w, w.value? present.room = some v → d present.room w = some a) :
    present.get name d = some a := by
  have hrel := h name hname
  rw [hv] at hrel
  rw [Fields.get]
  cases hw : present.find? name with
  | none =>
    rw [hw] at hrel
    cases hrel
  | some w =>
    rw [hw] at hrel
    cases hrel with
    | some hrel => exact hd w hrel

/-- A field that may be missing is decoded if the value has it, and else it has its default. -/
theorem Shows.getD_eq {β : Type} {toJson : β → Json} {f : β → α} {x : Option β}
    (h : Shows present names fields) (hname : name ∈ names)
    (hx : field? name fields = x.map toJson) (default : α)
    (hd : ∀ b w, w.value? present.room = some (toJson b) → d present.room w = some (f b)) :
    present.getD name default d = some ((x.map f).getD default) := by
  have hrel := h name hname
  rw [hx] at hrel
  rw [Fields.getD]
  cases hw : present.find? name with
  | none =>
    rw [hw] at hrel
    cases x with
    | none => rfl
    | some b => cases hrel
  | some w =>
    rw [hw] at hrel
    cases x with
    | none => cases hrel
    | some b =>
      cases hrel with
      | some hrel => exact hd b w hrel

/-! ### Values of one kind -/

theorem text_of_value? {w : Written} {s : String} (h : w.value? room = some (.string s)) :
    text room w = some s := by
  cases w with
  | string pieces => simpa [Written.value?, text] using h
  | null | bool | number => simp [Written.value?] at h
  | array | object => cases room <;> simp [Written.value?] at h

theorem flag_of_value? {w : Written} {b : Bool} (h : w.value? room = some (.bool b)) :
    flag room w = some b := by
  cases w with
  | bool => simpa [Written.value?, flag] using h
  | null | string | number => simp [Written.value?] at h
  | array | object => cases room <;> simp [Written.value?] at h

theorem value_of_value? {w : Written} (h : w.value? room = some v) :
    value room w = some v.mergeKeys := by
  rw [value, h, Option.map_some]

theorem nullable_of_null {w : Written} (h : w.value? room = some .null) (d : Decoder α) :
    nullable d room w = some none := by
  cases w with
  | null => rfl
  | bool | string | number => simp [Written.value?] at h
  | array | object => cases room <;> simp [Written.value?] at h

theorem nullable_of_ne_null {w : Written} (h : w.value? room = some v) (hv : v ≠ .null)
    (hd : d room w = some a) : nullable d room w = some (some a) := by
  cases w with
  | null => exact absurd (Option.some.inj h).symm hv
  | bool | string | number | array | object => rw [nullable, hd, Option.map_some]; simp

end Decoder

end Json

/-!
## Rows in the body of a reply

A body that lists rows as printed JSON is read back as these rows, whatever other columns stand
beside those that a reader wants.
-/

section

open Json

namespace Json

theorem writtenItems_eq_map (items : List Json) : writtenItems items = items.map written := by
  induction items with
  | nil => rfl
  | cons v items ih => rw [writtenItems, ih, List.map_cons]

theorem numbersReadBackItems_iff {items : List Json} :
    NumbersReadBackItems items ↔ ∀ v ∈ items, NumbersReadBack v := by
  induction items with
  | nil => simp [NumbersReadBackItems]
  | cons v items ih => simp [NumbersReadBackItems, ih]

theorem value_written_string (room : ℕ) (s : String) :
    Decoder.value room (written (.string s)) = some (.string s) := by
  rw [Decoder.value, written, Written.value?, textOf?_writtenString]
  rfl

theorem Decoder.run_list_text {α β : Type} (d : Decoder β) (toJson : α → Json) (f : α → β)
    {rows : List α} (hnumbers : ∀ row ∈ rows, NumbersReadBack (toJson row))
    (hrows : ∀ row ∈ rows, d (nestingLimit - 1) (toJson row).written = some (f row)) :
    (list d).run (Json.array (rows.map toJson)).text = some (rows.map f) := by
  rw [run_text]
  · rw [written, writtenItems_eq_map, List.map_map]
    exact mapM_eq_some (List.forall₂_map_left_iff.2 (List.forall₂_same.2 hrows))
  · rw [NumbersReadBack, numbersReadBackItems_iff]
    simpa using hnumbers

end Json

theorem Resource.decoder_written {r : Resource} {room : ℕ}
    (h : Decoder.value room r.parameters.written = some r.parameters) :
    Resource.decoder (room + 1) r.toJson.written = some r := by
  obtain ⟨certname, kind, title, exported, parameters, environment⟩ := r
  cases environment <;>
    simp [Resource.decoder, Resource.toJson, Resource.orNull, written, writtenFields,
      Decoder.record, Decoder.readNames, textOf?_writtenString, Decoder.Shape.ofObject,
      Decoder.Shape.names, Decoder.Fields.get, Decoder.Fields.find?, Decoder.Fields.getD,
      Decoder.text, Decoder.flag, Decoder.nullable, h]

theorem Resource.numbersReadBack_toJson {r : Resource} (h : NumbersReadBack r.parameters) :
    NumbersReadBack r.toJson := by
  obtain ⟨certname, kind, title, exported, parameters, environment⟩ := r
  cases environment <;>
    simpa [Resource.toJson, Resource.orNull, NumbersReadBack, NumbersReadBackFields] using h

theorem Membership.decoder_written_resource (r : Resource) (room : ℕ) :
    Membership.decoder (room + 1) r.toJson.written = some ⟨r.certname, r.title⟩ := by
  simp [Membership.decoder, Resource.toJson, written, writtenFields, Decoder.record,
    Decoder.readNames, textOf?_writtenString, Decoder.Shape.ofObject, Decoder.Shape.names,
    Decoder.Fields.get, Decoder.Fields.find?, Decoder.text]

namespace Fact

/-- A fact as a store lists it. -/
def toJson (f : Fact) : Json :=
  .object [("certname", f.certname), ("name", f.name), ("value", f.value),
    ("environment", Resource.orNull f.environment)]

theorem numbersReadBack_toJson {f : Fact} (h : NumbersReadBack f.value) :
    NumbersReadBack f.toJson := by
  obtain ⟨certname, name, value, environment⟩ := f
  cases environment <;>
    simpa [Fact.toJson, Resource.orNull, NumbersReadBack, NumbersReadBackFields] using h

theorem decoder_written {f : Fact} {room : ℕ}
    (h : Decoder.value room f.value.written = some f.value) :
    Fact.decoder (room + 1) f.toJson.written = some f := by
  obtain ⟨certname, name, value, environment⟩ := f
  cases environment <;>
    simp [Fact.decoder, Fact.toJson, Resource.orNull, written, writtenFields, Decoder.record,
      Decoder.readNames, textOf?_writtenString, Decoder.Shape.ofObject, Decoder.Shape.names,
      Decoder.Fields.get, Decoder.Fields.find?, Decoder.Fields.getD, Decoder.text,
      Decoder.nullable, h]

end Fact

end

end NodeInventory
