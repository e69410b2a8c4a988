import NodeInventory.Json.Basic
import NodeInventory.Json.Reader
import Mathlib.Data.List.Basic

/-!
# Reading printed JSON back

What `Json.write` writes, `Json.Written.read` takes from the front of a text: it reads the value as
it stands in the text, `Json.written`.  Numbers are left open: `Json.NumbersReadBack` says of a
value that each number in it is read back.

* `Json.readPieces_writeString` : a string's content is read up to its closing quote;
* `Json.Written.reads_write` : a printed value is read whole, by recursion on the value;
* `Json.Decoder.run_text` : a decoder that is run on a printed text has the value as it stands
  there.
-/

namespace NodeInventory

namespace Json

open Text

/-! ### Strings -/

/-- A character as it stands in a string. -/
def writtenChar (c : Char) : Piece :=
  if c < ' ' ∧ c ∉ ['\x08', '\t', '\n', '\x0c', '\r'] then .unit c.toNat else .char c

/-- A string as it stands in a text. -/
def writtenString (s : String) : List Piece := s.toList.map writtenChar

theorem hexValue?_lowerHexDigit {n : ℕ} (h : n < 16) :
    Percent.hexValue? (lowerHexDigit n) = some n := by
  have hall : ∀ n < 16, Percent.hexValue? (lowerHexDigit n) = some n := by decide
  exact hall n h

theorem readPieces_letter {e c : Char} (h : escape? e = some c) (s : List Char) :
    readPieces ('\\' :: e :: s) = (readPieces s).map fun p => (.char c :: p.1, p.2) := by
  have hu : e ≠ 'u' := by
    rintro rfl
    cases h
  cases hs : readPieces s <;> simp [readPieces, hu, h, hs]

theorem readPieces_plain {c : Char} (hquote : c ≠ '"') (hslash : c ≠ '\\') (hc : ¬ c < ' ')
    (s : List Char) :
    readPieces (c :: s) = (readPieces s).map fun p => (.char c :: p.1, p.2) := by
  cases hs : readPieces s <;> simp [readPieces, hslash, hc, hs]

theorem readPieces_unit {a b c d : Char} {u : ℕ} (h : hex4? a b c d = some u) (s : List Char) :
    readPieces ('\\' :: 'u' :: a :: b :: c :: d :: s) =
      (readPieces s).map fun p => (.unit u :: p.1, p.2) := by
  cases hs : readPieces s <;> simp [readPieces, h, hs]

theorem readPieces_writeChar_append (c : Char) (s : List Char) :
    readPieces (writeChar c ++ s) =
      (readPieces s).map fun p => (writtenChar c :: p.1, p.2) := by
  -- seven characters are written by a letter, the other ones below U+0020 by a unit
  have hletter : ∀ e, escape? e = some c → writtenChar c = .char c →
      readPieces ('\\' :: e :: s) = (readPieces s).map fun p => (writtenChar c :: p.1, p.2) :=
    fun e he hc => hc ▸ readPieces_letter he s
  unfold writeChar
  split
  · next h => subst h; exact hletter '"' rfl rfl
  split
  · next h => subst h; exact hletter '\\' rfl rfl
  split
  · next h => subst h; exact hletter 'b' rfl rfl
  split
  · next h => subst h; exact hletter 't' rfl rfl
  split
  · next h => subst h; exact hletter 'n' rfl rfl
  split
  · next h => subst h; exact hletter 'f' rfl rfl
  split
  · next h => subst h; exact hletter 'r' rfl rfl
  split
  · next hc =>
    have hlow : c.toNat < 32 := hc
    have hhex : hex4? '0' '0' (lowerHexDigit (c.toNat / 16)) (lowerHexDigit (c.toNat % 16)) =
        some c.toNat := by
      unfold hex4?
      rw [hexValue?_lowerHexDigit (by omega), hexValue?_lowerHexDigit (by omega)]
      have hzero : Percent.hexValue? '0' = some 0 := by decide
      simp only [hzero, Option.some.injEq]
      omega
    have hw : writtenChar c = .unit c.toNat := by
      unfold writtenChar
      rw [if_pos]
      simp_all
    rw [hw]
    exact readPieces_unit hhex s
  · next hquote hslash _ _ _ _ _ hc =>
    have hw : writtenChar c = .char c := if_neg fun h => hc h.1
    rw [hw]
    exact readPieces_plain hquote hslash hc s

/-- The content of a printed string is read up to its closing quote. -/
theorem readPieces_writeString (s : String) (r : List Char) :
    readPieces (s.toList.flatMap writeChar ++ '"' :: r) = some (writtenString s, r) := by
  rw [writtenString]
  induction s.toList with
  | nil => rfl
  | cons c s ih =>
    rw [List.flatMap_cons, List.append_assoc, readPieces_writeChar_append, ih]
    rfl

theorem pieceText?_writtenChar_cons (c : Char) (pieces : List Piece) :
    pieceText? (writtenChar c :: pieces) = (pieceText? pieces).map (c :: ·) := by
  unfold writtenChar
  split
  · next h =>
    have hlow : c.toNat < 32 := h.1
    rw [pieceText?.eq_def]
    simp only [Char.ofNat_toNat]
    exact if_pos (.inl (by omega))
  · rw [pieceText?]

theorem textOf?_writtenString (s : String) : Written.textOf? (writtenString s) = some s := by
  have h : ∀ cs : List Char, pieceText? (cs.map writtenChar) = some cs := by
    intro cs
    induction cs with
    | nil => rfl
    | cons c cs ih => rw [List.map_cons, pieceText?_writtenChar_cons, ih]; rfl
  rw [Written.textOf?, writtenString, h, Option.map_some, String.ofList_toList]

/-! ### One step of the reader -/

namespace Written

/-- The value at the front of `s` is `w`, and `r` is left. -/
def Reads (s : List Char) (w : Written) (r : List Char) : Prop :=
  ∃ t, read s = some (w, t) ∧ t.1 = r

/-- The items at the front of `s` are `ws`, up to the end of the array, and `r` is left. -/
def ReadsItems (s : List Char) (ws : List Written) (r : List Char) : Prop :=
  ∃ t, readItems s = some (ws, t) ∧ t.1 = r

/-- The fields at the front of `s` are `ws`, up to the end of the object, and `r` is left. -/
def ReadsFields (s : List Char) (ws : List (List Piece × Written)) (r : List Char) : Prop :=
  ∃ t, readFields s = some (ws, t) ∧ t.1 = r

theorem reads_string {t r : List Char} {pieces : List Piece}
    (h : readPieces t = some (pieces, r)) : Reads ('"' :: t) (.string pieces) r := by
  have hs : skipSpace ('"' :: t) = '"' :: t := rfl
  unfold Reads
  rw [read.eq_def]
  split
  · next h0 => cases h0
  · next c u h0 =>
    obtain ⟨rfl, rfl⟩ : '"' = c ∧ t = u := by simpa [hs] using h0
    rw [if_pos rfl]
    split
    · next pieces' r' hp =>
      obtain ⟨rfl, rfl⟩ : pieces = pieces' ∧ r = r' := by simpa [h] using hp
      exact ⟨_, rfl, rfl⟩
    · next hp =>
      rw [h] at hp
      cases hp

theorem reads_scalar {c : Char} {t r : List Char} {w : Written} (hspace : isSpace c = false)
    (hc : c ∉ ['"', '[', '{']) (h : readScalar (c :: t) = some (w, r)) : Reads (c :: t) w r := by
  have hs : skipSpace (c :: t) = c :: t := List.dropWhile_cons_of_neg (by simp [hspace])
  simp only [List.mem_cons, List.not_mem_nil, not_or, or_false] at hc
  unfold Reads
  rw [read.eq_def]
  split
  · next h0 => rw [hs] at h0; cases h0
  · next d u h0 =>
    obtain ⟨rfl, rfl⟩ : c = d ∧ t = u := by simpa [hs] using h0
    rw [if_neg hc.1, if_neg hc.2.1, if_neg hc.2.2]
    split
    · next w' r' hp =>
      obtain ⟨rfl, rfl⟩ : w = w' ∧ r = r' := by simpa [h] using hp
      exact ⟨_, rfl, rfl⟩
    · next hp =>
      rw [h] at hp
      cases hp

theorem reads_array {t r : List Char} {ws : List Written}
    (h : ∃ u, readArray t = some (ws, u) ∧ u.1 = r) : Reads ('[' :: t) (.array ws) r := by
  have hs : skipSpace ('[' :: t) = '[' :: t := rfl
  obtain ⟨v, hv, rfl⟩ := h
  unfold Reads
  rw [read.eq_def]
  split
  · next h0 => cases h0
  · next c u h0 =>
    obtain ⟨rfl, rfl⟩ : '[' = c ∧ t = u := by simpa [hs] using h0
    rw [if_neg (by decide), if_pos rfl, hv]
    exact ⟨_, rfl, rfl⟩

theorem reads_object {t r : List Char} {ws : List (List Piece × Written)}
    (h : ∃ u, readObject t = some (ws, u) ∧ u.1 = r) : Reads ('{' :: t) (.object ws) r := by
  have hs : skipSpace ('{' :: t) = '{' :: t := rfl
  obtain ⟨v, hv, rfl⟩ := h
  unfold Reads
  rw [read.eq_def]
  split
  · next h0 => cases h0
  · next c u h0 =>
    obtain ⟨rfl, rfl⟩ : '{' = c ∧ t = u := by simpa [hs] using h0
    rw [if_neg (by decide), if_neg (by decide), if_pos rfl, hv]
    exact ⟨_, rfl, rfl⟩

theorem Reads.skipSpace_ne {s r : List Char} {w : Written} (h : Reads s w r) (t : List Char) :
    skipSpace s ≠ ']' :: t := by
  intro hs
  -- a bracket that closes is no string and opens no container, so it would begin a scalar
  have hscalar : readScalar (']' :: t) = none := by
    simp [readScalar, afterWord?, readNumeral, readWhole, readDigits]
  obtain ⟨u, h, -⟩ := h
  rw [read.eq_def] at h
  split at h
  · cases h
  · next c v h0 =>
    obtain ⟨rfl, rfl⟩ : ']' = c ∧ t = v := by simpa [hs] using h0
    rw [if_neg (by decide), if_neg (by decide), if_neg (by decide)] at h
    split at h
    · next hp =>
      rw [hscalar] at hp
      cases hp
    · cases h

theorem readsItems_of_reads {s t r : List Char} {w : Written} {ws : List Written}
    (h : Reads s w t)
    (ht : t = ']' :: r ∧ ws = [] ∨ ∃ u, t = ',' :: u ∧ ReadsItems u ws r) :
    ReadsItems s (w :: ws) r := by
  obtain ⟨⟨t, hlt⟩, hw, rfl⟩ := h
  unfold ReadsItems
  rw [readItems.eq_def, hw]
  dsimp only
  rcases ht with ⟨rfl, rfl⟩ | ⟨u, rfl, v, hv, rfl⟩
  · split
    · next x hx => cases hx
    · next x hx =>
      cases hx
      exact ⟨_, rfl, rfl⟩
    · next h1 h2 => exact absurd rfl (h2 r)
  · split
    · next x hx =>
      cases hx
      rw [hv]
      exact ⟨_, rfl, rfl⟩
    · next x hx => cases hx
    · next h1 h2 => exact absurd rfl (h1 u)

theorem readArray_of_reads {s t r : List Char} {w : Written} {ws : List Written}
    (h : Reads s w t) (hs : ReadsItems s ws r) : ∃ u, readArray s = some (ws, u) ∧ u.1 = r := by
  rw [readArray.eq_def]
  split
  · next u hu => exact absurd hu (h.skipSpace_ne u)
  · exact hs

theorem readArray_nil (r : List Char) : ∃ u, readArray (']' :: r) = some ([], u) ∧ u.1 = r := by
  rw [readArray.eq_def]
  split
  · next u hu =>
    cases hu
    exact ⟨_, rfl, rfl⟩
  · next hne => exact absurd rfl (hne r)

theorem readsFields_of_reads {s t u r : List Char} {key : List Piece} {w : Written}
    {ws : List (List Piece × Written)} (hkey : readPieces s = some (key, ':' :: t))
    (h : Reads t w u)
    (hu : u = '\x7d' :: r ∧ ws = [] ∨ ∃ v, u = ',' :: v ∧ ReadsFields v ws r) :
    ReadsFields ('"' :: s) ((key, w) :: ws) r := by
  have hs : skipSpace ('"' :: s) = '"' :: s := rfl
  obtain ⟨⟨u, hlt⟩, hw, rfl⟩ := h
  unfold ReadsFields
  rw [readFields.eq_def]
  split
  · next s' hs' =>
    obtain rfl : s = s' := by simpa [hs] using hs'
    split
    · next hp => rw [hkey] at hp; cases hp
    · next key' t' hp =>
      obtain ⟨rfl, rfl⟩ : key = key' ∧ ':' :: t = t' := by simpa [hkey] using hp
      split
      · next t' ht' =>
        cases ht'
        rw [hw]
        dsimp only
        rcases hu with ⟨rfl, rfl⟩ | ⟨v, rfl, x, hx, rfl⟩
        · split
          · next y hy => cases hy
          · next y hy =>
            cases hy
            exact ⟨_, rfl, rfl⟩
          · next h1 h2 => exact absurd rfl (h2 r)
        · split
          · next y hy =>
            cases hy
            rw [hx]
            exact ⟨_, rfl, rfl⟩
          · next y hy => cases hy
          · next h1 h2 => exact absurd rfl (h1 v)
      · next hne => exact absurd rfl (hne t)
  · next hne => exact absurd hs (hne s)

theorem readObject_of_readsFields {s r : List Char} {ws : List (List Piece × Written)}
    (hs : ReadsFields ('"' :: s) ws r) : ∃ u, readObject ('"' :: s) = some (ws, u) ∧ u.1 = r := by
  rw [readObject.eq_def]
  split
  · next u hu => cases hu
  · exact hs

theorem readObject_nil (r : List Char) :
    ∃ u, readObject ('\x7d' :: r) = some ([], u) ∧ u.1 = r := by
  rw [readObject.eq_def]
  split
  · next u hu =>
    cases hu
    exact ⟨_, rfl, rfl⟩
  · next hne => exact absurd rfl (hne r)

end Written

/-! ### Whole values -/

/-- A number as it stands in a text. -/
def Number.numeral (n : Number) : Numeral :=
  ((readNumeral n.write).map (·.1)).getD ⟨false, [], none, none⟩

mutual

/-- A value as it stands in a text. -/
def written : Json → Written
  | .null => .null
  | .bool b => .bool b
  | .number n => .number n.numeral
  | .string s => .string (writtenString s)
  | .array items => .array (writtenItems items)
  | .object fields => .object (writtenFields fields)

/-- Items as they stand in a text. -/
def writtenItems : List Json → List Written
  | [] => []
  | v :: items => written v :: writtenItems items

/-- Fields as they stand in a text. -/
def writtenFields : List (String × Json) → List (List Piece × Written)
  | [] => []
  | (k, v) :: fields => (writtenString k, written v) :: writtenFields fields

end

/-- What stands behind a value that is not the last thing in a text, or nothing. -/
def EndsValue (r : List Char) : Prop := ∀ c ∈ r.head?, c ∈ [',', ']', '\x7d']

mutual

/-- Each number in the value is read back from its text. -/
def NumbersReadBack : Json → Prop
  | .number n => ∀ r, EndsValue r → Written.Reads (n.write ++ r) (.number n.numeral) r
  | .array items => NumbersReadBackItems items
  | .object fields => NumbersReadBackFields fields
  | _ => True

/-- Each number in the items is read back. -/
def NumbersReadBackItems : List Json → Prop
  | [] => True
  | v :: items => NumbersReadBack v ∧ NumbersReadBackItems items

/-- Each number in the fields is read back. -/
def NumbersReadBackFields : List (String × Json) → Prop
  | [] => True
  | (_, v) :: fields => NumbersReadBack v ∧ NumbersReadBackFields fields

end

namespace Written

theorem endsValue_cons {c : Char} (h : c ∈ [',', ']', '\x7d']) (r : List Char) :
    EndsValue (c :: r) := by
  simpa [EndsValue] using h

-- What is printed of further items or fields begins with a comma unless it is their end, so a list
-- of them is read from behind that comma on.
mutual

/-- A printed value is read whole. -/
theorem reads_write (v : Json) (hv : NumbersReadBack v) {r : List Char} (hr : EndsValue r) :
    Reads (v.write ++ r) v.written r := by
  cases v with
  | null => exact reads_scalar rfl (by decide) rfl
  | bool b => cases b <;> exact reads_scalar rfl (by decide) rfl
  | number n => exact hv r hr
  | string s =>
    have happend : (Json.string s).write ++ r =
        '"' :: (s.toList.flatMap writeChar ++ '"' :: r) := by
      simp [write, writeString]
    rw [happend]
    exact reads_string (readPieces_writeString s r)
  | array items =>
    rw [NumbersReadBack] at hv
    rw [written]
    cases items with
    | nil => exact reads_array (readArray_nil r)
    | cons v items =>
      have happend : (Json.array (v :: items)).write ++ r =
          '[' :: (v.write ++ (writeItems items ++ r)) := by
        simp [write]
      have hends : EndsValue (writeItems items ++ r) := by
        cases items <;> exact endsValue_cons (by decide) _
      rw [happend]
      exact reads_array (readArray_of_reads (reads_write v hv.1 hends)
        (readsItems_write (v :: items) hv (by simp [writeItems])))
  | object fields =>
    rw [NumbersReadBack] at hv
    rw [written]
    cases fields with
    | nil => exact reads_object (readObject_nil r)
    | cons field fields =>
      obtain ⟨k, v⟩ := field
      have happend : (Json.object ((k, v) :: fields)).write ++ r =
          '{' :: '"' :: (k.toList.flatMap writeChar ++
            '"' :: ':' :: (v.write ++ (writeFields fields ++ r))) := by
        simp [write, writeString]
      rw [happend]
      exact reads_object (readObject_of_readsFields
        (readsFields_write ((k, v) :: fields) hv (by simp [writeFields, writeString])))

theorem readsItems_write (items : List Json) (hitems : NumbersReadBackItems items)
    {s r : List Char} (hs : writeItems items ++ r = ',' :: s) :
    ReadsItems s (writtenItems items) r := by
  cases items with
  | nil => simp [writeItems] at hs
  | cons v items =>
    rw [NumbersReadBackItems] at hitems
    obtain rfl : v.write ++ (writeItems items ++ r) = s := by simpa [writeItems] using hs
    have hends : EndsValue (writeItems items ++ r) := by
      cases items <;> exact endsValue_cons (by decide) _
    refine readsItems_of_reads (reads_write v hitems.1 hends) ?_
    cases items with
    | nil => exact .inl ⟨rfl, rfl⟩
    | cons w items => exact .inr ⟨_, rfl, readsItems_write (w :: items) hitems.2 rfl⟩

theorem readsFields_write (fields : List (String × Json)) (hfields : NumbersReadBackFields fields)
    {s r : List Char} (hs : writeFields fields ++ r = ',' :: s) :
    ReadsFields s (writtenFields fields) r := by
  cases fields with
  | nil => simp [writeFields] at hs
  | cons field fields =>
    obtain ⟨k, v⟩ := field
    rw [NumbersReadBackFields] at hfields
    obtain rfl : '"' :: (k.toList.flatMap writeChar ++
        '"' :: ':' :: (v.write ++ (writeFields fields ++ r))) = s := by
      simpa [writeFields, writeString] using hs
    have hends : EndsValue (writeFields fields ++ r) := by
      cases fields <;> exact endsValue_cons (by decide) _
    refine readsFields_of_reads (readPieces_writeString k _) (reads_write v hfields.1 hends) ?_
    cases fields with
    | nil => exact .inl ⟨rfl, rfl⟩
    | cons field fields => exact .inr ⟨_, rfl, readsFields_write (field :: fields) hfields.2 rfl⟩

end

theorem readPrefix_text (v : Json) (hv : NumbersReadBack v) :
    readPrefix v.text = some (v.written, []) := by
  have hr : EndsValue [] := by simp [EndsValue]
  have htext : v.text.toList = v.write := String.toList_ofList
  have hread := reads_write v hv hr
  rw [List.append_nil, ← htext] at hread
  obtain ⟨t, h, ht⟩ := hread
  rw [readPrefix, h, Option.map_some, ← ht]

theorem parse_text (v : Json) (hv : NumbersReadBack v) : parse v.text = some v.written := by
  rw [parse, readPrefix_text v hv]
  rfl

end Written

/-- A decoder that is run on a printed text takes the value as it stands there. -/
theorem Decoder.run_text {α : Type} (d : Decoder α) (v : Json) (hv : NumbersReadBack v) :
    d.run v.text = d nestingLimit v.written := by
  rw [run, Written.parse_text v hv]
  rfl

end Json

end NodeInventory
