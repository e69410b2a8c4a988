import NodeInventory.Proofs.Text.Utf8
import NodeInventory.Text
import Mathlib.Data.List.Basic

/-!
# Query strings and percent-encoding

The fields of a query string, and the texts that stand in them percent-encoded.
-/

namespace NodeInventory

/-!
## Query strings

A query string is cut into parts at every `&`, and each part at its first `=` into a name and a
value (`QueryString.fields`).

* `QueryString.fields_field` : a name and a value that are free of these characters are one field;
* `QueryString.fields_append`, `QueryString.fields_intercalate` : the fields of query strings joined
  by `&` are those of each.
-/

namespace Text.QueryString

/-- The name and the value of a part, which its first `=` stands between. -/
def cut (part : List Char) : Option (String × String) :=
  match part.dropWhile fun c => c ≠ '=' with
  | [] => none
  | _ :: value => some (String.ofList (part.takeWhile fun c => c ≠ '='), String.ofList value)

/-- The fields of a query string in their order; a part without `=` has neither name nor value. -/
def fields (params : String) : List (Option (String × String)) :=
  (params.toList.splitOn '&').map cut

theorem cut_append {name : List Char} (hname : '=' ∉ name) (value : List Char) :
    cut (name ++ '=' :: value) = some (String.ofList name, String.ofList value) := by
  have hall : ∀ c ∈ name, decide (c ≠ '=') = true := fun c hc =>
    decide_eq_true (ne_of_mem_of_not_mem hc hname)
  simp only [cut, List.dropWhile_append_of_pos hall, List.takeWhile_append_of_pos hall]
  simp

theorem fields_field {name value : String} (hname : '&' ∉ name.toList) (hname' : '=' ∉ name.toList)
    (hvalue : '&' ∉ value.toList) : fields (name ++ "=" ++ value) = [some (name, value)] := by
  have hpart : (name ++ "=" ++ value).toList = name.toList ++ '=' :: value.toList := by simp
  have hmem : '&' ∉ name.toList ++ '=' :: value.toList := by simp [hname, hvalue]
  rw [fields, hpart, List.splitOn_eq_singleton hmem, List.map_singleton, cut_append hname',
    String.ofList_toList, String.ofList_toList]

theorem fields_append (a b : String) : fields (a ++ "&" ++ b) = fields a ++ fields b := by
  have hparts : (a ++ "&" ++ b).toList = a.toList ++ '&' :: b.toList := by simp
  rw [fields, hparts, List.splitOn_append_cons_self, List.map_append]
  rfl

theorem fields_intercalate {parts : List String} (h : parts ≠ []) :
    fields ("&".intercalate parts) = parts.flatMap fields := by
  induction parts with
  | nil => exact absurd rfl h
  | cons part parts ih =>
    cases parts with
    | nil => simp
    | cons part' parts =>
      rw [String.intercalate_cons_cons, fields_append, ih (List.cons_ne_nil _ _)]
      exact List.flatMap_cons.symm

theorem not_mem_intercalate {c : Char} (hc : c ≠ '&') {parts : List String}
    (h : ∀ part ∈ parts, c ∉ part.toList) : c ∉ ("&".intercalate parts).toList := by
  induction parts with
  | nil => simp
  | cons part parts ih =>
    have hpart := h part List.mem_cons_self
    have hparts := ih fun part' hpart' => h part' (List.mem_cons_of_mem _ hpart')
    cases parts with
    | nil => simpa using hpart
    | cons part' parts =>
      rw [String.intercalate_cons_cons, String.toList_append, String.toList_append]
      simp only [List.mem_append, hpart, hparts, or_false, false_or]
      simpa using hc

/-! ### Decimal values -/

theorem not_mem_toString {c : Char} (hc : c.isDigit = false) (n : ℕ) : c ∉ (toString n).toList := by
  intro h
  rw [Nat.toString_eq_repr, Nat.toList_repr] at h
  simp [Nat.isDigit_of_mem_toDigits (by decide) (by decide) h] at hc

theorem ofDigitChars_toString (n : ℕ) : Nat.ofDigitChars 10 (toString n).toList 0 = n := by
  rw [Nat.toString_eq_repr, Nat.toList_repr, Nat.ofDigitChars_toDigits (by decide) (by decide)]

theorem toString_injective : Function.Injective (toString : ℕ → String) := by
  intro m n h
  rw [← ofDigitChars_toString m, h, ofDigitChars_toString]

end Text.QueryString

/-!
## Reading percent-encoded texts back

A percent-encoded text spells bytes: some characters stand for themselves, and any byte may stand as
`%XX` (`Percent.Spells`).  Whichever bytes are written in which way, the decoder reads them back.

* `Percent.decodeBytes_of_spells` : the decoder reads what a text spells;
* `Percent.mem_of_spells` : the characters in such a text;
* `Percent.decode_encode` : what the encoder writes is decoded to the text it was written for.
-/

namespace Text.Percent

/-- A text that spells bytes: characters of `kept` stand for their own bytes, and any other byte, or
one of those, stands as `%` and two hexadecimal digits of either case. -/
inductive Spells (kept : Char → Bool) : List Char → List UInt8 → Prop
  | nil : Spells kept [] []
  | char {c : Char} {t : List Char} {bs : List UInt8} (hc : kept c = true)
      (h : Spells kept t bs) : Spells kept (c :: t) (String.utf8EncodeChar c ++ bs)
  | byte {high low : Char} {b : UInt8} {t : List Char} {bs : List UInt8}
      (hhigh : hexValue? high = some (b.toNat / 16)) (hlow : hexValue? low = some (b.toNat % 16))
      (h : Spells kept t bs) : Spells kept ('%' :: high :: low :: t) (b :: bs)

variable {kept : Char → Bool} {t u : List Char} {bs cs : List UInt8}

theorem Spells.append (h : Spells kept t bs) (h' : Spells kept u cs) :
    Spells kept (t ++ u) (bs ++ cs) := by
  induction h with
  | nil => exact h'
  | char hc _ ih =>
    rw [List.cons_append, List.append_assoc]
    exact .char hc ih
  | byte hhigh hlow _ ih => exact .byte hhigh hlow ih

/-! ### Decoding -/

theorem byte?_eq_some {high low : Char} {b : UInt8} (hhigh : hexValue? high = some (b.toNat / 16))
    (hlow : hexValue? low = some (b.toNat % 16)) : byte? high low = some b := by
  simp only [byte?, hhigh, hlow, Nat.div_add_mod, UInt8.ofNat_toNat]

theorem decodeBytes_char {c : Char} (hc : c ≠ '%') (s : List Char) :
    decodeBytes (c :: s) = String.utf8EncodeChar c ++ decodeBytes s := by
  rw [decodeBytes.eq_def]
  dsimp only
  split
  · rw [if_neg hc]
  · rfl

theorem decodeBytes_byte {high low : Char} {b : UInt8}
    (hhigh : hexValue? high = some (b.toNat / 16)) (hlow : hexValue? low = some (b.toNat % 16))
    (s : List Char) : decodeBytes ('%' :: high :: low :: s) = b :: decodeBytes s := by
  rw [decodeBytes, if_pos rfl, byte?_eq_some hhigh hlow]

/-- The decoder reads the bytes that a text spells if `%` stands for itself nowhere in it. -/
theorem decodeBytes_of_spells (hkept : kept '%' = false) (h : Spells kept t bs) :
    decodeBytes t = bs := by
  induction h with
  | nil => rfl
  | @char c t bs hc _ ih =>
    have hne : c ≠ '%' := by
      rintro rfl
      simp [hkept] at hc
    rw [decodeBytes_char hne, ih]
  | byte hhigh hlow _ ih => rw [decodeBytes_byte hhigh hlow, ih]

/-! ### The characters of an encoded text -/

theorem isAlphanum_iff {c : Char} : c.isAlphanum = true ↔
    (65 ≤ c.toNat ∧ c.toNat ≤ 90 ∨ 97 ≤ c.toNat ∧ c.toNat ≤ 122) ∨
      48 ≤ c.toNat ∧ c.toNat ≤ 57 := by
  have hdef : c.isAlphanum = ((decide ('A'.val ≤ c.val ∧ c.val ≤ 'Z'.val) ||
      decide ('a'.val ≤ c.val) && decide (c.val ≤ 'z'.val)) ||
      decide ('0'.val ≤ c.val) && decide (c.val ≤ '9'.val)) := rfl
  simp only [hdef, Bool.or_eq_true, Bool.and_eq_true, decide_eq_true_eq, UInt32.le_iff_toNat_le]
  rfl

theorem isAlphanum_of_hexValue? {c : Char} {n : ℕ} (h : hexValue? c = some n) :
    c.isAlphanum = true := by
  rw [isAlphanum_iff, Char.toNat]
  simp only [hexValue?, Bool.and_eq_true, decide_eq_true_eq, Char.le_def,
    UInt32.le_iff_toNat_le, Char.reduceVal, UInt32.reduceToNat] at h
  split_ifs at h <;> omega

/-- A character of an encoded text is one of those that stand for themselves, a `%`, or a digit. -/
theorem mem_of_spells (h : Spells kept t bs) {c : Char} (hc : c ∈ t) :
    kept c = true ∨ c = '%' ∨ c.isAlphanum = true := by
  induction h with
  | nil => cases hc
  | char hkept _ ih =>
    rcases List.mem_cons.1 hc with rfl | hc
    · exact .inl hkept
    · exact ih hc
  | byte hhigh hlow _ ih =>
    simp only [List.mem_cons] at hc
    rcases hc with rfl | rfl | rfl | hc
    · exact .inr (.inl rfl)
    · exact .inr (.inr (isAlphanum_of_hexValue? hhigh))
    · exact .inr (.inr (isAlphanum_of_hexValue? hlow))
    · exact ih hc

/-! ### What the encoder writes -/

theorem hexValue?_hexDigit {n : ℕ} (h : n < 16) : hexValue? (hexDigit n) = some n := by
  have hall : ∀ n < 16, hexValue? (hexDigit n) = some n := by decide
  exact hall n h

theorem spells_flatMap_encodeByte (kept : Char → Bool) (bs : List UInt8) :
    Spells kept (bs.flatMap encodeByte) bs := by
  induction bs with
  | nil => exact .nil
  | cons b bs ih =>
    have hb := b.toNat_lt
    exact .byte (hexValue?_hexDigit (by omega)) (hexValue?_hexDigit (by omega)) ih

theorem spells_encode (s : List Char) : Spells isUnreserved (encode s) (Utf8.encode s) := by
  induction s with
  | nil => exact .nil
  | cons c s ih =>
    rw [encode, List.flatMap_cons, Utf8.encode_cons, encodeChar]
    split
    · next hc => exact .char hc ih
    · exact (spells_flatMap_encodeByte _ _).append ih

theorem decode_encode (s : List Char) : decode (encode s) = .ok s := by
  rw [decode, decodeBytes_of_spells (by decide) (spells_encode s)]
  exact Utf8.decode_eq_ok_iff.2 rfl

theorem decode_encodeString (s : String) : decode (encodeString s).toList = .ok s.toList := by
  rw [encodeString, String.toList_ofList, decode_encode]

theorem mem_encode {s : List Char} {c : Char} (hc : c ∈ encode s) :
    isUnreserved c = true ∨ c = '%' := by
  rcases mem_of_spells (spells_encode s) hc with h | h | h
  · exact .inl h
  · exact .inr h
  · exact .inl (by simp [isUnreserved, h])

theorem not_mem_encodeString {c : Char} (hc : c ∈ ['&', '=', '?']) (s : String) :
    c ∉ (encodeString s).toList := by
  have hspecial : isUnreserved c = false ∧ c ≠ '%' := by
    simp only [List.mem_cons, List.not_mem_nil, or_false] at hc
    rcases hc with rfl | rfl | rfl <;> decide
  intro h
  rw [encodeString, String.toList_ofList] at h
  rcases mem_encode h with hunreserved | hpercent
  · simp [hspecial.1] at hunreserved
  · exact hspecial.2 hpercent

end Text.Percent

end NodeInventory
