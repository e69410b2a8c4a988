/-!
# Numbers and encoded structures as bytes

The bytes of numbers, and the elements that certificates and keys are made of.
-/

namespace NodeInventory

/-!
## Numbers as bytes

A number is written in bytes with the least one first (`littleEndian`) or with the greatest one
first (`bigEndian`), in a given number of bytes, or in as few as possible (`minimal`). Reading what
was written gives the number back: `ofLittleEndian_littleEndian`, `ofBigEndian_bigEndian` and
`ofBigEndian_minimal`.
-/

namespace Octets

/-- The number of bits that a number needs. -/
def bitLength (n : Nat) : Nat := if n = 0 then 0 else n.log2 + 1

/-- The number that bytes spell, the first one weighing least. -/
def ofLittleEndian : List UInt8 → Nat
  | [] => 0
  | b :: bs => b.toNat + 256 * ofLittleEndian bs

/-- The number that bytes spell, the first one weighing most. -/
def ofBigEndian (bs : List UInt8) : Nat := ofLittleEndian bs.reverse

/-- The last bytes of a number, the least one first. -/
def littleEndian : (width n : Nat) → List UInt8
  | 0, _ => []
  | width + 1, n => .ofNat n :: littleEndian width (n / 256)

/-- The last bytes of a number, the least one last. -/
def bigEndian (width n : Nat) : List UInt8 := (littleEndian width n).reverse

theorem div_lt_of_not_lt {n : Nat} (h : ¬ n < 256) : n / 256 < n := by omega

/-- The bytes of a number, the least one first and none too many. Zero has one byte. -/
def minimalLittleEndian (n : Nat) : List UInt8 :=
  if _h : n < 256 then [.ofNat n] else .ofNat n :: minimalLittleEndian (n / 256)
termination_by n
decreasing_by exact div_lt_of_not_lt _h

/-- The bytes of a number, the least one last and none too many. Zero has one byte. -/
def minimal (n : Nat) : List UInt8 := (minimalLittleEndian n).reverse

theorem ofLittleEndian_littleEndian (width n : Nat) (h : n < Nat.pow 256 width) :
    ofLittleEndian (littleEndian width n) = n := by
  induction width generalizing n with
  | zero => simp [Nat.pow] at h; simp [littleEndian, ofLittleEndian, h]
  | succ width ih =>
    have : n / 256 < Nat.pow 256 width :=
      Nat.div_lt_of_lt_mul (by rwa [Nat.mul_comm])
    simp only [littleEndian, ofLittleEndian, ih _ this, UInt8.toNat_ofNat']
    omega

theorem ofBigEndian_bigEndian (width n : Nat) (h : n < Nat.pow 256 width) :
    ofBigEndian (bigEndian width n) = n := by
  rw [ofBigEndian, bigEndian, List.reverse_reverse, ofLittleEndian_littleEndian _ _ h]

theorem ofLittleEndian_minimalLittleEndian (n : Nat) :
    ofLittleEndian (minimalLittleEndian n) = n := by
  fun_induction minimalLittleEndian n with
  | case1 n h => simp only [ofLittleEndian, UInt8.toNat_ofNat']; omega
  | case2 n h ih => simp only [ofLittleEndian, ih, UInt8.toNat_ofNat']; omega

@[simp] theorem ofBigEndian_minimal (n : Nat) : ofBigEndian (minimal n) = n := by
  rw [ofBigEndian, minimal, List.reverse_reverse, ofLittleEndian_minimalLittleEndian]

theorem length_minimal_of_lt {n : Nat} (h : n < 256) : (minimal n).length = 1 := by
  rw [minimal, minimalLittleEndian, dif_pos h]; rfl

theorem length_minimal_of_le {n : Nat} (h : 256 ≤ n) :
    (minimal n).length = (minimal (n / 256)).length + 1 := by
  rw [minimal, minimalLittleEndian, dif_neg (Nat.not_lt.2 h)]
  simp [minimal]

end Octets

/-!
## Encoded structures

Certificates and keys are trees of elements, each with a tag, a length and a content.

* `read` takes the element at the front of bytes, `elements?` reads bytes that are elements
  throughout.
* `only?` and `Element.children?` read bytes that are one element, and the elements in a sequence.
* `Element.natural?` and `Element.wholeBytes?` read numbers and strings of bits.
* `Element.encode` writes an element; `read_encode` says that `read` takes it back.
-/

namespace Der

/-- An element. -/
structure Element where
  tag : UInt8
  content : List UInt8
deriving DecidableEq, Repr

/-- The tags of elements that occur in certificates and keys. -/
def booleanTag : UInt8 := 0x01
def integerTag : UInt8 := 0x02
def bitStringTag : UInt8 := 0x03
def octetStringTag : UInt8 := 0x04
def nullTag : UInt8 := 0x05
def identifierTag : UInt8 := 0x06
def sequenceTag : UInt8 := 0x30

/-- The tag of a numbered field, which holds an element. -/
def fieldTag (n : UInt8) : UInt8 := 0xA0 + n

/-- The tag of a numbered field whose content stands in it without a tag of its own. -/
def bareFieldTag (n : UInt8) : UInt8 := 0x80 + n

/-! ### Elements at the front of bytes -/

/-- The length at the front of bytes, in as few bytes as possible and at most three, and the bytes
after it. -/
def readLength : List UInt8 → Option (Nat × List UInt8)
  | [] => none
  | b :: bs =>
    if b < 0x80 then some (b.toNat, bs)
    else
      let width := b.toNat - 0x80
      let digits := bs.take width
      let n := Octets.ofBigEndian digits
      let least := max 0x80 (Nat.pow 256 (width - 1))
      if 1 ≤ width ∧ width ≤ 2 ∧ digits.length = width ∧ least ≤ n then
        some (n, bs.drop width)
      else none

/-- A length, in as few bytes as possible. -/
def encodeLength (n : Nat) : List UInt8 :=
  if n < 0x80 then [.ofNat n]
  else .ofNat (0x80 + (Octets.minimal n).length) :: Octets.minimal n

theorem readLength_encodeLength (n : Nat) (h : n < 65536) (rest : List UInt8) :
    readLength (encodeLength n ++ rest) = some (n, rest) := by
  unfold encodeLength
  split
  · rename_i hn
    have hb : UInt8.ofNat n < 0x80 := by
      rw [UInt8.lt_iff_toNat_lt, UInt8.toNat_ofNat']
      show n % 256 < 128
      omega
    simp only [List.cons_append, List.nil_append, readLength, if_pos hb, UInt8.toNat_ofNat']
    rw [Nat.mod_eq_of_lt (show n < 256 by omega)]
  · rename_i hn
    obtain ⟨width, hw, hr, hl⟩ : ∃ width, (Octets.minimal n).length = width ∧
        (1 ≤ width ∧ width ≤ 2) ∧ max 0x80 (Nat.pow 256 (width - 1)) ≤ n := by
      by_cases hs : n < 256
      · exact ⟨1, Octets.length_minimal_of_lt hs, by decide, by simp; omega⟩
      · refine ⟨2, ?_, by decide, by simp; omega⟩
        rw [Octets.length_minimal_of_le (by omega), Octets.length_minimal_of_lt (by omega)]
    have hb : (UInt8.ofNat (0x80 + width)).toNat = 0x80 + width := by
      rw [UInt8.toNat_ofNat', Nat.mod_eq_of_lt (by omega)]
    have hg : ¬ UInt8.ofNat (0x80 + width) < 0x80 := by
      rw [UInt8.lt_iff_toNat_lt, hb]
      show ¬ 0x80 + width < 128
      omega
    simp only [List.cons_append, readLength, hw, if_neg hg, hb, Nat.add_sub_cancel_left]
    rw [← hw, List.take_left, List.drop_left, Octets.ofBigEndian_minimal, hw,
      if_pos ⟨hr.1, hr.2, rfl, hl⟩]

/-- The element at the front of bytes, and the bytes after it. Tags have one byte. -/
def read : List UInt8 → Option (Element × List UInt8)
  | [] => none
  | tag :: bs => do
    let (n, bs) ← readLength bs
    if tag &&& 0x1F = 0x1F ∨ bs.length < n then none
    else return (⟨tag, bs.take n⟩, bs.drop n)

theorem length_lt_of_readLength {bs rest : List UInt8} {n : Nat}
    (h : readLength bs = some (n, rest)) : rest.length < bs.length := by
  unfold readLength at h
  split at h
  · cases h
  · split at h
    · simp_all
    · simp only at h
      split at h
      · simp only [Option.some.injEq, Prod.mk.injEq] at h
        simp only [← h.2, List.length_drop, List.length_cons]
        omega
      · cases h

theorem length_lt_of_read {bs rest : List UInt8} {e : Element} (h : read bs = some (e, rest)) :
    rest.length < bs.length := by
  unfold read at h
  split at h
  · cases h
  · simp only [Option.bind_eq_bind, Option.bind_eq_some_iff, Prod.exists] at h
    obtain ⟨n, bs', hl, h⟩ := h
    have := length_lt_of_readLength hl
    split at h
    · cases h
    · simp only [Option.pure_def, Option.some.injEq, Prod.mk.injEq] at h
      simp only [← h.2, List.length_drop, List.length_cons]
      omega

/-- The elements that bytes consist of. -/
def elements? (bs : List UInt8) : Option (List Element) :=
  match bs with
  | [] => some []
  | b :: t =>
    match _h : read (b :: t) with
    | none => none
    | some (e, rest) => (elements? rest).map (e :: ·)
termination_by bs.length
decreasing_by exact length_lt_of_read _h

/-- The element that bytes consist of. -/
def only? (bs : List UInt8) : Option Element :=
  match read bs with
  | some (e, []) => some e
  | _ => none

namespace Element

/-! ### Contents -/

/-- The content of an element with a tag. -/
def contentIf? (tag : UInt8) (e : Element) : Option (List UInt8) :=
  if e.tag = tag then some e.content else none

/-- The elements in an element with a tag. -/
def childrenIf? (tag : UInt8) (e : Element) : Option (List Element) := do
  elements? (← e.contentIf? tag)

/-- The elements in a sequence. -/
def children? : Element → Option (List Element) := childrenIf? sequenceTag

/-- The number, not below zero, in an integer of as few bytes as possible. Its first bit is its
sign, so a zero stands before a byte that begins with a one. -/
def natural? (e : Element) : Option Nat := do
  match ← e.contentIf? integerTag with
  | 0 :: b :: bs => if b < 0x80 then none else return Octets.ofBigEndian (b :: bs)
  | b :: bs => if b < 0x80 then return Octets.ofBigEndian (b :: bs) else none
  | [] => none

/-- The bytes in the content of a string of bits, before which the number of bits missing in the
last byte stands; none may be missing. -/
def bytesOfBits? : List UInt8 → Option (List UInt8)
  | 0 :: bytes => some bytes
  | _ => none

/-- The bytes in a string of bits. -/
def wholeBytes? (e : Element) : Option (List UInt8) := do
  bytesOfBits? (← e.contentIf? bitStringTag)

/-! ### Writing elements -/

/-- The bytes of an element. -/
def encode (e : Element) : List UInt8 := e.tag :: (encodeLength e.content.length ++ e.content)

/-- The integer that holds a number. -/
def ofNatural (n : Nat) : Element :=
  match Octets.minimal n with
  | b :: bs => ⟨integerTag, if b < 0x80 then b :: bs else 0 :: b :: bs⟩
  | [] => ⟨integerTag, []⟩

/-- The string of bits that holds bytes. -/
def ofWholeBytes (bytes : List UInt8) : Element := ⟨bitStringTag, 0 :: bytes⟩

/-! ### Reading what was written -/

/-- An element of a tag of one byte and a content below 64 kilobytes is read back. -/
theorem read_encode (e : Element) (htag : e.tag &&& 0x1F ≠ 0x1F) (hlen : e.content.length < 65536)
    (rest : List UInt8) : read (e.encode ++ rest) = some (e, rest) := by
  simp [encode, read, readLength_encodeLength _ hlen, htag, Nat.not_lt.2 (Nat.le_add_right _ _)]

end Element

end Der

end NodeInventory
