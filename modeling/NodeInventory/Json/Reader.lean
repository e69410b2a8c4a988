import NodeInventory.Json.Written

/-!
# Reading and decoding JSON

A text is read as JSON as it is written (`Written.parse`), and this is made into a value
(`Written.value?`) or a record (`Decoder`).
-/

namespace NodeInventory

/-!
## Reading JSON

* `Written.read` takes the value at the front of a text, by recursion on what is left of the text:
  every part that is read leaves a shorter rest. `Written.parse` reads a whole text.
* `Written.value?` is the value of what was read, if no more than `room` containers are nested in
  it; repeated fields are kept.
* `Json.parse` reads a whole text as a value whose repeated fields are merged.
-/

namespace Json

/-- The number of containers that may be nested in a text. -/
def nestingLimit : Nat := 127

namespace Written

/-- What is left of `s` when at least one character has been read. -/
abbrev Rest (s : List Char) := { r : List Char // r.length < s.length }

mutual

/-- The value at the front of a text. -/
def read (s : List Char) : Option (Written × Rest s) :=
  match hs : skipSpace s with
  | [] => none
  | c :: t =>
    have ht := length_lt_of_skipSpace hs
    if c = '"' then
      match hp : readPieces t with
      | some (pieces, r) =>
        some (.string pieces, ⟨r, Nat.lt_trans (length_lt_of_readPieces hp) ht⟩)
      | none => none
    else if c = '[' then
      match readArray t with
      | some (items, r) => some (.array items, ⟨r.1, Nat.lt_trans r.2 ht⟩)
      | none => none
    else if c = '{' then
      match readObject t with
      | some (fields, r) => some (.object fields, ⟨r.1, Nat.lt_trans r.2 ht⟩)
      | none => none
    else
      match hv : readScalar (c :: t) with
      | some (v, r) =>
        some (v, ⟨r, Nat.lt_of_lt_of_le (length_lt_of_readScalar hv)
          (by rw [← hs]; exact length_skipSpace_le s)⟩)
      | none => none
termination_by (s.length, 0)

/-- The items of an array, after its opening bracket. -/
def readArray (s : List Char) : Option (List Written × Rest s) :=
  match hs : skipSpace s with
  | ']' :: r => some ([], ⟨r, length_lt_of_skipSpace hs⟩)
  | _ => readItems s
termination_by (s.length, 2)

/-- One item or more, and the end of the array. -/
def readItems (s : List Char) : Option (List Written × Rest s) :=
  match read s with
  | none => none
  | some (v, ⟨t, ht⟩) =>
    match hs : skipSpace t with
    | ',' :: u =>
      have hu := Nat.lt_trans (length_lt_of_skipSpace hs) ht
      match readItems u with
      | some (items, r) => some (v :: items, ⟨r.1, Nat.lt_trans r.2 hu⟩)
      | none => none
    | ']' :: r => some ([v], ⟨r, Nat.lt_trans (length_lt_of_skipSpace hs) ht⟩)
    | _ => none
termination_by (s.length, 1)

/-- The fields of an object, after its opening brace. -/
def readObject (s : List Char) : Option (List (List Piece × Written) × Rest s) :=
  match hs : skipSpace s with
  | '\x7d' :: r => some ([], ⟨r, length_lt_of_skipSpace hs⟩)
  | _ => readFields s
termination_by (s.length, 2)

/-- One field or more, and the end of the object. -/
def readFields (s : List Char) : Option (List (List Piece × Written) × Rest s) :=
  match hk : skipSpace s with
  | '"' :: t =>
    match hp : readPieces t with
    | none => none
    | some (key, u) =>
      match hc : skipSpace u with
      | ':' :: w =>
        have hw : w.length < s.length :=
          Nat.lt_trans (length_lt_of_skipSpace hc)
            (Nat.lt_trans (length_lt_of_readPieces hp) (length_lt_of_skipSpace hk))
        match read w with
        | none => none
        | some (v, ⟨x, hx⟩) =>
          match hs : skipSpace x with
          | ',' :: y =>
            have hy := Nat.lt_trans (length_lt_of_skipSpace hs) (Nat.lt_trans hx hw)
            match readFields y with
            | some (fields, r) => some ((key, v) :: fields, ⟨r.1, Nat.lt_trans r.2 hy⟩)
            | none => none
          | '\x7d' :: r =>
            some ([(key, v)],
              ⟨r, Nat.lt_trans (length_lt_of_skipSpace hs) (Nat.lt_trans hx hw)⟩)
          | _ => none
      | _ => none
  | _ => none
termination_by (s.length, 1)

end

/-- The value at the front of a text, and the text after it. -/
def readPrefix (s : String) : Option (Written × List Char) :=
  (read s.toList).map fun (v, r) => (v, r.1)

/-- The value that a whole text writes. -/
def parse (s : String) : Option Written :=
  match readPrefix s with
  | some (v, rest) => if skipSpace rest = [] then some v else none
  | none => none

/-! ### Values -/

/-- The text of a string. -/
def textOf? (pieces : List Piece) : Option String := (pieceText? pieces).map String.ofList

mutual

/-- The value of what was read, with `room` for nested containers. -/
def value? (room : Nat) : Written → Option Json
  | .null => some .null
  | .bool b => some (.bool b)
  | .number n => n.value?.map .number
  | .string pieces => (textOf? pieces).map .string
  | .array items =>
    match room with
    | 0 => none
    | room + 1 => (itemValues? room items).map .array
  | .object fields =>
    match room with
    | 0 => none
    | room + 1 => (fieldValues? room fields).map .object

/-- The values of items. -/
def itemValues? (room : Nat) : List Written → Option (List Json)
  | [] => some []
  | v :: items =>
    match value? room v, itemValues? room items with
    | some v, some items => some (v :: items)
    | _, _ => none

/-- The values of fields. -/
def fieldValues? (room : Nat) : List (List Piece × Written) → Option (List (String × Json))
  | [] => some []
  | (k, v) :: fields =>
    match textOf? k, value? room v, fieldValues? room fields with
    | some k, some v, some fields => some ((k, v) :: fields)
    | _, _, _ => none

end

end Written

/-- The value that a whole text writes, repeated fields merged. -/
def parse (s : String) : Option Json := do
  let w ← Written.parse s
  let v ← w.value? nestingLimit
  return v.mergeKeys

end Json

/-!
## Decoding JSON into records

A `Decoder` makes a value of some type out of JSON as it is written, knowing how many containers may
still be nested.

* `Decoder.value` takes any JSON value, `Decoder.text`, `Decoder.flag` and `Decoder.count` take one
  kind each, `Decoder.list` takes an array.
* `Decoder.record` takes an object with the fields of a `Shape`, in any order and among others, or
  an array of those fields in their order. What is not declared is skipped unread.
-/

namespace Json

/-- Makes a value of `α` out of JSON as it is written, with room for so many nested containers. -/
abbrev Decoder (α : Type) := (room : Nat) → Written → Option α

namespace Decoder

/-- Decodes a whole text. -/
def run {α : Type} (d : Decoder α) (s : String) : Option α := Written.parse s >>= d nestingLimit

/-- Any value, repeated fields merged. -/
def value : Decoder Json := fun room w => (w.value? room).map mergeKeys

/-- A string. -/
def text : Decoder String
  | _, .string pieces => Written.textOf? pieces
  | _, _ => none

/-- `true` or `false`. -/
def flag : Decoder Bool
  | _, .bool b => some b
  | _, _ => none

/-- An integer from 0 to `2 ^ 64 - 1`, written without a sign. -/
def count : Decoder Nat
  | _, .number ⟨false, whole, none, none⟩ =>
    if digitsValue whole < Nat.pow 2 64 then some (digitsValue whole) else none
  | _, _ => none

/-- `null`, or what `d` takes. -/
def nullable {α : Type} (d : Decoder α) : Decoder (Option α)
  | _, .null => some none
  | room, w => (d room w).map some

/-- An array of what `d` takes. -/
def list {α : Type} (d : Decoder α) : Decoder (List α)
  | room + 1, .array items => items.mapM (d room)
  | _, _ => none

/-! ### Records -/

/-- The declared fields of a record in their order: the names of those that have to be present, then
the names of those that may be missing. -/
structure Shape where
  required : List String
  optional : List String

/-- The names of all declared fields. -/
def Shape.names (shape : Shape) : List String := shape.required ++ shape.optional

/-- The declared fields that are present, and the room for what is nested in them. -/
structure Fields where
  room : Nat
  present : List (String × Written)

/-- The first field of a name. -/
def Fields.find? (fields : Fields) (name : String) : Option Written :=
  (fields.present.find? fun f => f.1 = name).map (·.2)

/-- A field that has to be present. -/
def Fields.get {α : Type} (fields : Fields) (name : String) (d : Decoder α) : Option α :=
  fields.find? name >>= d fields.room

/-- A field that has a value even if it is missing. -/
def Fields.getD {α : Type} (fields : Fields) (name : String) (default : α) (d : Decoder α) :
    Option α :=
  match fields.find? name with
  | none => some default
  | some w => d fields.room w

/-- The texts of the names of an object's fields. -/
def readNames (fields : List (List Piece × Written)) : Option (List (String × Written)) :=
  fields.mapM fun (k, w) => (Written.textOf? k).map (·, w)

/-- The declared fields of an object: none is repeated, and all that have to be are present. -/
def Shape.ofObject (shape : Shape) (fields : List (String × Written)) :
    Option (List (String × Written)) :=
  let present := fields.filter fun f => shape.names.contains f.1
  if (present.map (·.1)).Nodup ∧ shape.required ⊆ present.map (·.1) then some present else none

/-- The declared fields of an array: one item for each of the first ones. -/
def Shape.ofArray (shape : Shape) (items : List Written) : Option (List (String × Written)) :=
  if shape.required.length ≤ items.length ∧ items.length ≤ shape.names.length then
    some (shape.names.zip items)
  else none

/-- A record of some shape, built from its fields. -/
def record {α : Type} (shape : Shape) (build : Fields → Option α) : Decoder α
  | room + 1, .object fields => do
    let present ← shape.ofObject (← readNames fields)
    build ⟨room, present⟩
  | room + 1, .array items => do
    let present ← shape.ofArray items
    build ⟨room, present⟩
  | _, _ => none

end Decoder

end Json

end NodeInventory
