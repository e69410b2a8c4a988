import NodeInventory.Proofs.Text.Utf8

/-!
# Byte positions in a text

A position counts the bytes before it.  It lies on a boundary if no character is cut there, which
the byte at the position tells (`Utf8.isBoundary`).  `Utf8.slice?` is the text between two
positions; there is none if they are out of order, behind the end of the text, or off the
boundaries.

* `Utf8.isBoundary_iff` : the boundaries are the positions behind the beginnings of the text;
* `Utf8.slice?_eq_some_iff` : there is a slice exactly between two boundaries in order;
* `Utf8.byteAt?_eq_some_iff_of_ascii` : an ASCII byte stands at a boundary if and only if its
  character does, so a search for such bytes never stops inside a character.
-/

namespace NodeInventory

namespace Text.Utf8

variable {s p q r : List Char} {c : Char} {b : UInt8} {i j : ℕ}

/-- The byte at a position of a text. -/
def byteAt? (s : List Char) (i : ℕ) : Option UInt8 := (encode s)[i]?

/-- No character is cut at the position: a byte stands there that begins a character, or the text
ends there. -/
def isBoundary (s : List Char) (i : ℕ) : Bool :=
  match byteAt? s i with
  | some b => b < 0x80 || 0xBF < b
  | none => i = size s

/-- The text between two positions. -/
def slice? (s : List Char) (i j : ℕ) : Option (List Char) :=
  if i ≤ j ∧ j ≤ size s ∧ isBoundary s i ∧ isBoundary s j then
    (decode (((encode s).drop i).take (j - i))).toOption
  else none

/-! ### Sizes -/

theorem encode_append (s r : List Char) : encode (s ++ r) = encode s ++ encode r :=
  List.flatMap_append

theorem length_encode (s : List Char) : (encode s).length = size s := by
  induction s with
  | nil => rfl
  | cons c s ih => rw [encode_cons, List.length_append, ih, String.length_utf8EncodeChar, size]

theorem size_append (s r : List Char) : size (s ++ r) = size s + size r := by
  rw [← length_encode, encode_append, List.length_append, length_encode, length_encode]

theorem size_pos (h : s ≠ []) : 0 < size s := by
  cases s with
  | nil => exact absurd rfl h
  | cons c s => exact Nat.add_pos_left c.utf8Size_pos _

theorem lt_size_of_byteAt? (h : byteAt? s i = some b) : i < size s := by
  rw [← length_encode]
  exact (List.getElem?_eq_some_iff.1 h).1

/-! ### The bytes of one character -/

theorem exists_bytes (c : Char) :
    ∃ a xs, String.utf8EncodeChar c = a :: xs ∧ ¬ IsTail a ∧ ∀ x ∈ xs, IsTail x := by
  rcases exists_spelling c with ⟨b, h, rfl⟩ | ⟨a, x, h, rfl⟩ | ⟨a, x, y, h, rfl⟩ |
    ⟨a, x, y, z, h, rfl⟩
  · exact ⟨b, [], utf8EncodeChar_ascii h, by unfold IsTail; omega, by simp⟩
  · have hbytes := eq_append_of_spells2 h rfl []
    obtain ⟨ha, ha', hx⟩ := h
    exact ⟨a, [x], by simpa using hbytes.symm, by unfold IsTail; omega, by simpa using hx⟩
  · have hbytes := eq_append_of_spells3 h rfl []
    obtain ⟨ha, ha', hx, hy, -⟩ := h
    exact ⟨a, [x, y], by simpa using hbytes.symm, by unfold IsTail; omega, by simpa using ⟨hx, hy⟩⟩
  · have hbytes := eq_append_of_spells4 h rfl []
    obtain ⟨ha, ha', hx, hy, hz, -⟩ := h
    exact ⟨a, [x, y, z], by simpa using hbytes.symm, by unfold IsTail; omega,
      by simpa using ⟨hx, hy, hz⟩⟩

theorem utf8EncodeChar_of_mem (hb : b ∈ String.utf8EncodeChar c) (hascii : b.toNat < 0x80) :
    c = Char.ofNat b.toNat := by
  obtain ⟨a, xs, hc, -, hxs⟩ := exists_bytes c
  rw [hc] at hb
  rcases List.mem_cons.1 hb with rfl | hb
  · have hfront : front b xs = .char c [] := front_eq_char_iff.2 (by rw [hc, List.append_nil])
    rw [front_ascii hascii, Front.char.injEq] at hfront
    exact hfront.1.symm
  · have := (hxs b hb).1
    omega

/-! ### Positions -/

theorem byteAt?_append (p r : List Char) (i : ℕ) :
    byteAt? (p ++ r) (size p + i) = byteAt? r i := by
  rw [byteAt?, byteAt?, encode_append, List.getElem?_append_right (by rw [length_encode]; omega),
    length_encode, Nat.add_sub_cancel_left]

theorem byteAt?_size (p r : List Char) : byteAt? (p ++ r) (size p) = byteAt? r 0 :=
  byteAt?_append p r 0

/-- An ASCII byte stands at a boundary exactly if its character does. -/
theorem byteAt?_eq_some_iff_of_ascii (hascii : b.toNat < 0x80) :
    byteAt? (p ++ r) (size p) = some b ↔ r.head? = some (Char.ofNat b.toNat) := by
  rw [byteAt?_size]
  cases r with
  | nil => simp [byteAt?, encode]
  | cons c r =>
    obtain ⟨a, xs, hc, -, -⟩ := exists_bytes c
    rw [byteAt?, encode_cons, hc, List.head?_cons, Option.some.injEq]
    constructor
    · intro h
      obtain rfl : a = b := by simpa using h
      exact utf8EncodeChar_of_mem (by simp [hc]) hascii
    · rintro rfl
      rw [utf8EncodeChar_ascii hascii, List.cons.injEq] at hc
      simp [hc.1]

/-! ### Boundaries -/

theorem isBoundary_of_byteAt? (h : byteAt? s i = some b) :
    isBoundary s i = true ↔ ¬ IsTail b := by
  simp only [isBoundary, h, Bool.or_eq_true, decide_eq_true_eq, UInt8.lt_iff_toNat_lt, IsTail,
    UInt8.reduceToNat]
  omega

theorem isBoundary_of_byteAt?_eq_none (h : byteAt? s i = none) :
    isBoundary s i = true ↔ i = size s := by
  simp [isBoundary, h]

theorem isBoundary_append_iff : isBoundary (p ++ r) (size p + i) = true ↔ isBoundary r i = true := by
  have hbyte := byteAt?_append p r i
  cases h : byteAt? r i with
  | some b => rw [isBoundary_of_byteAt? h, isBoundary_of_byteAt? (hbyte.trans h)]
  | none =>
    rw [isBoundary_of_byteAt?_eq_none h, isBoundary_of_byteAt?_eq_none (hbyte.trans h), size_append]
    omega

theorem isBoundary_zero (s : List Char) : isBoundary s 0 = true := by
  cases s with
  | nil => rfl
  | cons c s =>
    obtain ⟨a, xs, hc, ha, -⟩ := exists_bytes c
    have hbyte : byteAt? (c :: s) 0 = some a := by rw [byteAt?, encode_cons, hc]; rfl
    exact (isBoundary_of_byteAt? hbyte).2 ha

theorem isBoundary_size (p r : List Char) : isBoundary (p ++ r) (size p) = true := by
  rw [← Nat.add_zero (size p)]
  exact isBoundary_append_iff.2 (isBoundary_zero r)

theorem isBoundary_eq_false_of_lt (h : 0 < i) (hi : i < c.utf8Size) :
    isBoundary (c :: s) i = false := by
  obtain ⟨a, xs, hc, -, hxs⟩ := exists_bytes c
  rw [← String.length_utf8EncodeChar, hc] at hi
  have hbyte : byteAt? (c :: s) i = (a :: xs)[i]? := by
    rw [byteAt?, encode_cons, hc, List.getElem?_append_left hi]
  obtain ⟨n, rfl⟩ := Nat.exists_eq_succ_of_ne_zero (Nat.ne_of_gt h)
  have hn : n < xs.length := Nat.lt_of_succ_lt_succ hi
  rw [List.getElem?_cons_succ, List.getElem?_eq_getElem hn] at hbyte
  rw [← Bool.not_eq_true, isBoundary_of_byteAt? hbyte, not_not]
  exact hxs _ (List.getElem_mem hn)

/-- The boundaries of a text are the positions behind its beginnings. -/
theorem isBoundary_iff : isBoundary s i = true ↔ ∃ p r, s = p ++ r ∧ i = size p := by
  constructor
  · intro h
    induction s generalizing i with
    | nil =>
      have hi : i = size [] := (isBoundary_of_byteAt?_eq_none rfl).1 h
      exact ⟨[], [], rfl, hi⟩
    | cons c s ih =>
      rcases Nat.eq_zero_or_pos i with rfl | hpos
      · exact ⟨[], c :: s, rfl, rfl⟩
      by_cases hi : i < c.utf8Size
      · rw [isBoundary_eq_false_of_lt hpos hi] at h
        cases h
      · obtain ⟨n, rfl⟩ := Nat.exists_eq_add_of_le (Nat.not_lt.1 hi)
        obtain ⟨p, r, rfl, rfl⟩ := ih (isBoundary_append_iff (p := [c]).1 h)
        exact ⟨c :: p, r, rfl, rfl⟩
  · rintro ⟨p, r, rfl, rfl⟩
    exact isBoundary_size p r

/-! ### Slices -/

theorem slice?_append (p q r : List Char) :
    slice? (p ++ (q ++ r)) (size p) (size p + size q) = some q := by
  have hstart : isBoundary (p ++ (q ++ r)) (size p) = true := isBoundary_size p _
  have hstop : isBoundary (p ++ (q ++ r)) (size p + size q) = true :=
    isBoundary_append_iff.2 (isBoundary_size q r)
  have hle : size p + size q ≤ size (p ++ (q ++ r)) := by
    rw [size_append, size_append]
    omega
  have hbytes : ((encode (p ++ (q ++ r))).drop (size p)).take (size p + size q - size p) =
      encode q := by
    rw [encode_append, ← length_encode p, List.drop_left, encode_append, Nat.add_sub_cancel_left,
      ← length_encode q, List.take_left]
  rw [slice?, if_pos ⟨Nat.le_add_right .., hle, hstart, hstop⟩, hbytes, decode_eq_ok_iff.2 rfl]
  rfl

theorem slice?_zero_append (p r : List Char) : slice? (p ++ r) 0 (size p) = some p := by
  have h := slice?_append [] p r
  rwa [size, Nat.zero_add] at h

theorem slice?_size (p r : List Char) : slice? (p ++ r) (size p) (size (p ++ r)) = some r := by
  have h := slice?_append p r []
  rwa [List.append_nil, ← size_append] at h

/-- A slice lies between two boundaries of the text, in order. -/
theorem slice?_eq_some_iff :
    slice? s i j = some q ↔ ∃ p r, s = p ++ (q ++ r) ∧ i = size p ∧ j = size p + size q := by
  constructor
  · intro h
    have hbounds : i ≤ j ∧ j ≤ size s ∧ isBoundary s i ∧ isBoundary s j := by
      by_contra hnot
      rw [slice?, if_neg hnot] at h
      cases h
    obtain ⟨hij, -, hi, hj⟩ := hbounds
    obtain ⟨p, t, rfl, rfl⟩ := isBoundary_iff.1 hi
    obtain ⟨n, rfl⟩ := Nat.exists_eq_add_of_le hij
    obtain ⟨q', r, rfl, rfl⟩ := isBoundary_iff.1 (isBoundary_append_iff.1 hj)
    rw [slice?_append, Option.some.injEq] at h
    subst h
    exact ⟨p, r, rfl, rfl, rfl⟩
  · rintro ⟨p, r, rfl, rfl, rfl⟩
    exact slice?_append p q r

end Text.Utf8

end NodeInventory
