import NodeInventory.Toml.Scalar
import NodeInventory.Toml.Text

/-!
# Reading TOML

* `readKey` and `readValue` take a key with dots or a value from the front of a text and leave a
  shorter rest. Arrays and tables in braces are nested no deeper, and keys have no more parts, than
  `nestingLimit` says.
* `readLines` reads a text into its statements, `Line`, and `build` puts them together: an entry
  belongs to the table of the last header.
* `parse` reads the entries of a whole text.
-/

namespace NodeInventory

namespace Toml

/-- The number of containers that may be nested in each other, and of parts that a key may have. -/
def nestingLimit : Nat := 79

/-- What is left of `s` when at least one character has been read. -/
abbrev Rest (s : List Char) := { r : List Char // r.length < s.length }

/-! ### Keys -/

/-- A character of a key without quotes. -/
def isBareChar (c : Char) : Bool := c.isAlphanum || c = '_' || c = '-'

/-- A part of a key. -/
def readPart (s : List Char) : Option (List Char × List Char) :=
  match readQuoted s with
  | some result => some result
  | none =>
    if s.takeWhile isBareChar = [] then none
    else some (s.takeWhile isBareChar, s.dropWhile isBareChar)

theorem length_lt_of_readPart {s part rest : List Char} (h : readPart s = some (part, rest)) :
    rest.length < s.length := by
  unfold readPart at h
  split at h
  · cases h
    exact length_lt_of_readQuoted ‹_›
  · split at h
    · cases h
    · rename_i hne
      simp only [Option.some.injEq, Prod.mk.injEq] at h
      have hs := congrArg List.length
        (List.takeWhile_append_dropWhile (p := isBareChar) (l := s))
      have := List.length_pos_iff.2 hne
      rw [List.length_append, h.2] at hs
      omega

/-- A key with any number of parts, blanks around each, at the front of a text. -/
def readDotted (s : List Char) : Option (Key × Rest s) :=
  match hp : readPart (skipBlank s) with
  | none => none
  | some (part, t) =>
    have ht : t.length < s.length :=
      Nat.lt_of_lt_of_le (length_lt_of_readPart hp) (length_skipBlank_le s)
    match hd : skipBlank t with
    | '.' :: u =>
      have hu : u.length < s.length := Nat.lt_trans (length_lt_of_skipBlank hd) ht
      match readDotted u with
      | none => none
      | some (key, ⟨r, hr⟩) =>
        some (⟨String.ofList part, key.parts⟩, ⟨r, Nat.lt_trans hr hu⟩)
    | r =>
      have hr : r.length < s.length := Nat.lt_of_le_of_lt (length_le_of_skipBlank hd) ht
      some (⟨String.ofList part, []⟩, ⟨r, hr⟩)
termination_by s.length

/-- A key at the front of a text. -/
def readKey (s : List Char) : Option (Key × Rest s) :=
  (readDotted s).filter fun (key, _) => key.parts.length ≤ nestingLimit

/-- A key and the equals sign behind it, at the front of a text. -/
def readAssigned (s : List Char) : Option (Key × Rest s) :=
  match readKey s with
  | some (key, ⟨'=' :: t, ht⟩) => some (key, ⟨t, Nat.lt_of_succ_lt ht⟩)
  | _ => none

/-! ### Values -/

mutual

/-- A value at the front of a text, with room for so many nested containers. -/
def readValue (room : Nat) (s : List Char) : Option (Value × Rest s) :=
  match s with
  | '[' :: t =>
    match room with
    | 0 => none
    | room + 1 =>
      match readItems room t with
      | some (items, r) => some (.array items, ⟨r.1, Nat.lt_succ_of_lt r.2⟩)
      | none => none
  | '{' :: t =>
    match room with
    | 0 => none
    | room + 1 =>
      match readPairs room t with
      | some (pairs, r) =>
        match Entries.ofPairs? pairs with
        | some entries => some (.table .closed entries, ⟨r.1, Nat.lt_succ_of_lt r.2⟩)
        | none => none
      | none => none
  | s =>
    match hs : readString s with
    | some (cs, r) => some (.string (String.ofList cs), ⟨r, length_lt_of_readString hs⟩)
    | none =>
      match hv : readScalar s with
      | some (v, r) => some (v, ⟨r, length_lt_of_readScalar hv⟩)
      | none => none
termination_by 3 * s.length
decreasing_by
  all_goals simp only [List.length_cons] at *
  all_goals omega

/-- The items of an array, which may end in a comma, and the end of the array. -/
def readItems (room : Nat) (s : List Char) : Option (List Value × Rest s) :=
  match hs : skipFiller s with
  | [] => none
  | ']' :: r => some ([], ⟨r, length_lt_of_skipFiller hs⟩)
  | c :: t =>
    have hle : (c :: t).length ≤ s.length := length_le_of_skipFiller hs
    match readValue room (c :: t) with
    | none => none
    | some (v, ⟨u, hu⟩) =>
      match hc : skipFiller u with
      | ',' :: w =>
        have hw : w.length < s.length :=
          Nat.lt_trans (length_lt_of_skipFiller hc) (Nat.lt_of_lt_of_le hu hle)
        match readItems room w with
        | some (items, r) => some (v :: items, ⟨r.1, Nat.lt_trans r.2 hw⟩)
        | none => none
      | ']' :: r =>
        some ([v], ⟨r, Nat.lt_trans (length_lt_of_skipFiller hc) (Nat.lt_of_lt_of_le hu hle)⟩)
      | _ => none
termination_by 3 * s.length + 1
decreasing_by
  all_goals simp only [List.length_cons] at *
  all_goals omega

/-- The entries of a table in braces, and the end of the table. -/
def readPairs (room : Nat) (s : List Char) : Option (List (Key × Value) × Rest s) :=
  match hs : skipBlank s with
  | '\x7d' :: r => some ([], ⟨r, length_lt_of_skipBlank hs⟩)
  | _ => readMorePairs room s
termination_by 3 * s.length + 2

/-- One entry or more of a table in braces, and the end of the table. -/
def readMorePairs (room : Nat) (s : List Char) : Option (List (Key × Value) × Rest s) :=
  match readAssigned s with
  | none => none
  | some (key, ⟨t, ht⟩) =>
    have hb := length_skipBlank_le t
    match readValue room (skipBlank t) with
    | none => none
    | some (v, ⟨u, hu⟩) =>
      have hu' : u.length < s.length := Nat.lt_trans (Nat.lt_of_lt_of_le hu hb) ht
      match hc : skipBlank u with
      | ',' :: w =>
        have hw : w.length < s.length := Nat.lt_trans (length_lt_of_skipBlank hc) hu'
        match readMorePairs room w with
        | some (pairs, r) => some ((key, v) :: pairs, ⟨r.1, Nat.lt_trans r.2 hw⟩)
        | none => none
      | '\x7d' :: r =>
        some ([(key, v)], ⟨r, Nat.lt_trans (length_lt_of_skipBlank hc) hu'⟩)
      | _ => none
termination_by 3 * s.length + 1
decreasing_by
  all_goals omega

end

/-! ### Lines -/

/-- A statement. -/
inductive Line where
  /-- A key and its value. -/
  | entry (key : Key) (value : Value)
  /-- The header of a table. -/
  | table (path : Key)
  /-- The header of a further element of an array of tables. -/
  | element (path : Key)

/-- A statement at the front of a text, up to the end of its line. -/
def readLine (s : List Char) : Option (Line × Rest s) :=
  match s with
  | '[' :: '[' :: t =>
    match readKey t with
    | some (path, ⟨']' :: ']' :: u, hu⟩) =>
      match he : endLine? u with
      | some r => some (.element path, ⟨r, by
          have := length_le_of_endLine? he
          simp only [List.length_cons] at hu ⊢
          omega⟩)
      | none => none
    | _ => none
  | '[' :: t =>
    match readKey t with
    | some (path, ⟨']' :: u, hu⟩) =>
      match he : endLine? u with
      | some r => some (.table path, ⟨r, by
          have := length_le_of_endLine? he
          simp only [List.length_cons] at hu ⊢
          omega⟩)
      | none => none
    | _ => none
  | s =>
    match readAssigned s with
    | some (key, ⟨t, ht⟩) =>
      match readValue nestingLimit (skipBlank t) with
      | some (v, ⟨u, hu⟩) =>
        match he : endLine? u with
        | some r => some (.entry key v, ⟨r, by
            have := length_le_of_endLine? he
            have := length_skipBlank_le t
            omega⟩)
        | none => none
      | none => none
    | none => none

/-- The statements of a text. -/
def readLines (s : List Char) : Option (List Line) :=
  match hs : skipBlank s with
  | [] => some []
  | c :: t =>
    have hle : (c :: t).length ≤ s.length := length_le_of_skipBlank hs
    match he : endLine? (c :: t) with
    | some r =>
      have := Nat.lt_of_lt_of_le (length_lt_of_endLine? he (List.cons_ne_nil c t)) hle
      readLines r
    | none =>
      match readLine (c :: t) with
      | some (line, ⟨r, hr⟩) =>
        have := Nat.lt_of_lt_of_le hr hle
        (readLines r).map (line :: ·)
      | none => none
termination_by s.length

/-! ### Whole texts -/

/-- The entries of a text so far, and the path of the table that further ones belong to. -/
structure Draft where
  entries : Entries
  path : List String

/-- The draft after a statement. -/
def Draft.add (d : Draft) : Line → Option Draft
  | .entry key v => do
    let entries ← descend (fun inner => Entries.assign inner key v) d.path d.entries
    return { d with entries }
  | .table path => do
    let last := path.parts.getLast (List.cons_ne_nil _ _)
    return ⟨← descend (openTable last) path.parts.dropLast d.entries, path.parts⟩
  | .element path => do
    let last := path.parts.getLast (List.cons_ne_nil _ _)
    return ⟨← descend (openElement last) path.parts.dropLast d.entries, path.parts⟩

/-- The entries that statements make. -/
def build (lines : List Line) : Option Entries :=
  (lines.foldlM Draft.add ⟨[], []⟩).map (·.entries)

/-- The entries of a text, at whose front a byte order mark may stand. -/
def parse (s : List Char) : Option Entries :=
  let text := match s with
    | '\ufeff' :: text => text
    | text => text
  readLines text >>= build

end Toml

end NodeInventory
