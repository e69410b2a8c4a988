/-!
# Text

Texts as bytes and in encodings, and the blanks at their ends.
-/

namespace NodeInventory

/-!
## Blank characters

`Text.isBlank` holds of the characters with the Unicode property `White_Space`, and `Text.trim`
removes them from both ends of a text: what it cuts is blank (`exists_append_trimEnd`), and what it
leaves does not end in a blank (`getLast?_trimEnd`).
-/

namespace Text

/-- The characters with the Unicode property `White_Space`. -/
def isBlank (c : Char) : Bool :=
  ('\t' ≤ c && c ≤ '\r') || c = ' ' || c = '\u0085' || c = '\u00a0' || c = '\u1680' ||
    ('\u2000' ≤ c && c ≤ '\u200a') || c = '\u2028' || c = '\u2029' || c = '\u202f' ||
    c = '\u205f' || c = '\u3000'

/-- A text without its leading blanks. -/
def trimStart (s : List Char) : List Char := s.dropWhile isBlank

/-- A text without its trailing blanks. -/
def trimEnd : List Char → List Char
  | [] => []
  | c :: s =>
    match trimEnd s with
    | [] => if isBlank c then [] else [c]
    | d :: r => c :: d :: r

/-- A text without the blanks at either end. -/
def trim (s : List Char) : List Char := trimEnd (trimStart s)

/-! ### What trimming leaves -/

/-- Every character of the text is blank. -/
def AllBlank (s : List Char) : Prop := ∀ c ∈ s, isBlank c = true

theorem trimEnd_eq_nil_iff {s : List Char} : trimEnd s = [] ↔ AllBlank s := by
  induction s with
  | nil => simp [trimEnd, AllBlank]
  | cons c s ih =>
    cases h : trimEnd s with
    | nil =>
      have hs := ih.1 h
      by_cases hc : isBlank c <;> simp_all [trimEnd, AllBlank]
    | cons d r =>
      have hs : ¬ AllBlank s := fun hb => by simp [ih.2 hb] at h
      simp only [trimEnd, h, reduceCtorEq, false_iff]
      exact fun hb => hs fun x hx => hb x (List.mem_cons_of_mem _ hx)

/-- The characters cut from the end are blank. -/
theorem exists_append_trimEnd (s : List Char) : ∃ b, AllBlank b ∧ s = trimEnd s ++ b := by
  induction s with
  | nil => exact ⟨[], by simp [AllBlank], rfl⟩
  | cons c s ih =>
    obtain ⟨b, hb, hs⟩ := ih
    cases h : trimEnd s with
    | nil =>
      by_cases hc : isBlank c
      · refine ⟨c :: s, ?_, by simp [trimEnd, h, hc]⟩
        have := trimEnd_eq_nil_iff.1 h
        intro x hx
        rcases List.mem_cons.1 hx with rfl | hx
        · exact hc
        · exact this x hx
      · exact ⟨b, hb, by rw [trimEnd, h]; simpa [hc, h] using hs⟩
    | cons d r => exact ⟨b, hb, by rw [trimEnd, h]; simpa [h] using hs⟩

/-- The last character that trimming leaves is not blank. -/
theorem getLast?_trimEnd {s : List Char} {c : Char} (h : (trimEnd s).getLast? = some c) :
    isBlank c = false := by
  induction s with
  | nil => simp [trimEnd] at h
  | cons a s ih =>
    cases hs : trimEnd s with
    | nil => by_cases ha : isBlank a <;> simp_all [trimEnd]
    | cons d r =>
      rw [hs] at ih
      simp only [trimEnd, hs] at h
      exact ih (by simpa using h)

theorem trimEnd_append_blank {s b : List Char} (hb : AllBlank b) :
    trimEnd (s ++ b) = trimEnd s := by
  induction s with
  | nil => exact trimEnd_eq_nil_iff.2 hb
  | cons c s ih => simp only [List.cons_append, trimEnd, ih]

theorem trimStart_blank_append {s b : List Char} (hb : AllBlank b) :
    trimStart (b ++ s) = trimStart s := by
  induction b with
  | nil => rfl
  | cons c b ih =>
    have hc : isBlank c = true := hb c List.mem_cons_self
    have := ih fun x hx => hb x (List.mem_cons_of_mem _ hx)
    simp only [trimStart, List.cons_append, List.dropWhile_cons, hc, if_true] at this ⊢
    exact this

end Text

/-!
## UTF-8

Texts as bytes and back.

* `Utf8.encode` writes a text, `Utf8.decode` reads bytes strictly and reports the first fault as a
  `Utf8.Fault`, `Utf8.decodeLossy` puts U+FFFD in the place of every maximal broken part.
* `Utf8.front` is the one step both readers share: the character at the front of the bytes, the
  length of a sequence that breaks off, or the news that the bytes end inside a sequence.
-/

namespace Text.Utf8

/-- The bytes of a text. -/
def encode (s : List Char) : List UInt8 := s.flatMap String.utf8EncodeChar

/-- The number of bytes of a text. -/
def size : List Char → Nat
  | [] => 0
  | c :: s => c.utf8Size + size s

/-! ### One character -/

/-- What stands at the front of a non-empty sequence of bytes. -/
inductive Front where
  /-- A character, and the bytes after it. -/
  | char (c : Char) (rest : List UInt8)
  /-- `width` bytes that no byte sequence of a character begins with, together with the byte after
  them; then the bytes after those `width`. -/
  | broken (width : Nat) (rest : List UInt8)
  /-- The bytes end inside the sequence of a character. -/
  | cut

/-- What the first byte of a longer sequence announces: the number of bytes to follow, the bits it
contributes, and the range of the byte after it, which excludes overlong forms, surrogates and
numbers above U+10FFFF. -/
structure Lead where
  follow : Nat
  bits : Nat
  low : UInt8
  high : UInt8

/-- The announcement of a first byte; `none` for a byte that begins no longer sequence. -/
def lead? (b : UInt8) : Option Lead :=
  if b < 0xC2 then none
  else if b < 0xE0 then some ⟨1, b.toNat - 0xC0, 0x80, 0xBF⟩
  else if b = 0xE0 then some ⟨2, 0, 0xA0, 0xBF⟩
  else if b = 0xED then some ⟨2, 13, 0x80, 0x9F⟩
  else if b < 0xF0 then some ⟨2, b.toNat - 0xE0, 0x80, 0xBF⟩
  else if b = 0xF0 then some ⟨3, 0, 0x90, 0xBF⟩
  else if b < 0xF4 then some ⟨3, b.toNat - 0xF0, 0x80, 0xBF⟩
  else if b = 0xF4 then some ⟨3, 4, 0x80, 0x8F⟩
  else none

/-- Reads the bytes that a first byte announced, `width` bytes of the sequence having been read. -/
def follow (width : Nat) : Nat → Nat → UInt8 → UInt8 → List UInt8 → Front
  | 0, bits, _, _, rest => .char (Char.ofNat bits) rest
  | _ + 1, _, _, _, [] => .cut
  | n + 1, bits, low, high, b :: rest =>
    if low ≤ b && b ≤ high then
      follow (width + 1) n (bits * 64 + (b.toNat - 0x80)) 0x80 0xBF rest
    else .broken width (b :: rest)

/-- What stands at the front of `b :: rest`. -/
def front (b : UInt8) (rest : List UInt8) : Front :=
  if b < 0x80 then .char (Char.ofNat b.toNat) rest
  else match lead? b with
    | none => .broken 1 rest
    | some l => follow 1 l.follow l.bits l.low l.high rest

theorem length_le_of_follow_eq_char {width n bits : Nat} {low high : UInt8} {bs rest : List UInt8}
    {c : Char} (h : follow width n bits low high bs = .char c rest) : rest.length ≤ bs.length := by
  induction n generalizing width bits low high bs with
  | zero =>
    simp only [follow, Front.char.injEq] at h
    simp [h.2]
  | succ n ih =>
    cases bs with
    | nil => simp [follow] at h
    | cons b bs =>
      rw [follow] at h
      split at h
      · exact Nat.le_succ_of_le (ih h)
      · cases h

theorem length_le_of_follow_eq_broken {width n bits w : Nat} {low high : UInt8}
    {bs rest : List UInt8} (h : follow width n bits low high bs = .broken w rest) :
    rest.length ≤ bs.length := by
  induction n generalizing width bits low high bs with
  | zero => simp [follow] at h
  | succ n ih =>
    cases bs with
    | nil => simp [follow] at h
    | cons b bs =>
      rw [follow] at h
      split at h
      · exact Nat.le_succ_of_le (ih h)
      · simp only [Front.broken.injEq] at h
        simp [← h.2]

theorem length_le_of_front_eq_char {b : UInt8} {bs rest : List UInt8} {c : Char}
    (h : front b bs = .char c rest) : rest.length ≤ bs.length := by
  unfold front at h
  split at h
  · simp only [Front.char.injEq] at h
    simp [h.2]
  · split at h
    · cases h
    · exact length_le_of_follow_eq_char h

theorem length_le_of_front_eq_broken {b : UInt8} {bs rest : List UInt8} {w : Nat}
    (h : front b bs = .broken w rest) : rest.length ≤ bs.length := by
  unfold front at h
  split at h
  · cases h
  · split at h
    · simp only [Front.broken.injEq] at h
      simp [h.2]
    · exact length_le_of_follow_eq_broken h

/-! ### Whole texts -/

/-- Where bytes stop being UTF-8: the index at which the faulty sequence begins, and its length,
unless the bytes end inside a sequence that was sound so far. -/
structure Fault where
  index : Nat
  width : Option Nat
deriving DecidableEq, Repr

/-- The wording of a fault. -/
def Fault.message (f : Fault) : String :=
  match f.width with
  | some n => s!"invalid utf-8 sequence of {n} bytes from index {f.index}"
  | none => s!"incomplete utf-8 byte sequence from index {f.index}"

/-- Reads bytes, the first of which has index `index` in the whole. -/
def decodeFrom (index : Nat) : List UInt8 → Except Fault (List Char)
  | [] => .ok []
  | b :: bs =>
    match _h : front b bs with
    | .char c rest => do
      let cs ← decodeFrom (index + (bs.length + 1 - rest.length)) rest
      return c :: cs
    | .broken width _ => .error ⟨index, some width⟩
    | .cut => .error ⟨index, none⟩
termination_by bs => bs.length
decreasing_by
  have := length_le_of_front_eq_char _h
  simp only [List.length_cons]
  omega

/-- Reads bytes strictly. -/
def decode (bs : List UInt8) : Except Fault (List Char) := decodeFrom 0 bs

/-- Reads any bytes, with U+FFFD in the place of each maximal broken part. -/
def decodeLossy : List UInt8 → List Char
  | [] => []
  | b :: bs =>
    match _h : front b bs with
    | .char c rest => c :: decodeLossy rest
    | .broken _ rest => '\ufffd' :: decodeLossy rest
    | .cut => ['\ufffd']
termination_by bs => bs.length
decreasing_by
  · have := length_le_of_front_eq_char _h
    simp only [List.length_cons]
    omega
  · have := length_le_of_front_eq_broken _h
    simp only [List.length_cons]
    omega

end Text.Utf8

/-!
## Percent-encoding

`Percent.encode` writes every byte of a text's UTF-8 form as `%XX`, except the characters that
`isUnreserved` admits; `Percent.decode` reads such a text back. A `%` that two hexadecimal digits
do not follow stands for itself, and so does `+`.
-/

namespace Text.Percent

/-- The characters that need no encoding: ASCII letters and digits and `-`, `.`, `_`, `~`. -/
def isUnreserved (c : Char) : Bool :=
  c.isAlphanum || c = '-' || c = '.' || c = '_' || c = '~'

/-- The hexadecimal digit of a number below 16, in upper case. -/
def hexDigit (n : Nat) : Char :=
  if n < 10 then Char.ofNat ('0'.toNat + n) else Char.ofNat ('A'.toNat + (n - 10))

/-- The number of a hexadecimal digit of either case. -/
def hexValue? (c : Char) : Option Nat :=
  if '0' ≤ c && c ≤ '9' then some (c.toNat - '0'.toNat)
  else if 'a' ≤ c && c ≤ 'f' then some (c.toNat - 'a'.toNat + 10)
  else if 'A' ≤ c && c ≤ 'F' then some (c.toNat - 'A'.toNat + 10)
  else none

/-- A byte as `%XX`. -/
def encodeByte (b : UInt8) : List Char :=
  ['%', hexDigit (b.toNat / 16), hexDigit (b.toNat % 16)]

/-- The encoded form of one character. -/
def encodeChar (c : Char) : List Char :=
  if isUnreserved c then [c] else (String.utf8EncodeChar c).flatMap encodeByte

/-- The encoded form of a text. -/
def encode (s : List Char) : List Char := s.flatMap encodeChar

/-- The encoded form of a string. -/
def encodeString (s : String) : String := String.ofList (encode s.toList)

/-- The byte that two hexadecimal digits spell. -/
def byte? (high low : Char) : Option UInt8 :=
  match hexValue? high, hexValue? low with
  | some h, some l => some (UInt8.ofNat (16 * h + l))
  | _, _ => none

/-- The bytes that an encoded text stands for. -/
def decodeBytes : List Char → List UInt8
  | [] => []
  | c :: s =>
    match s with
    | high :: low :: rest =>
      if c = '%' then
        match byte? high low with
        | some b => b :: decodeBytes rest
        | none => String.utf8EncodeChar c ++ decodeBytes (high :: low :: rest)
      else String.utf8EncodeChar c ++ decodeBytes (high :: low :: rest)
    | s => String.utf8EncodeChar c ++ decodeBytes s

/-- The text that an encoded text stands for; its bytes have to be UTF-8. -/
def decode (s : List Char) : Except Utf8.Fault (List Char) := Utf8.decode (decodeBytes s)

end Text.Percent

/-!
## Base64

`decode` reads base64 text in groups of four characters, the last of which may end in one or two
`=` or be cut off before them. Blanks and line ends between the characters are skipped.
-/

namespace Text.Base64

/-- The number that a character stands for. -/
def value? (c : Char) : Option Nat :=
  if 'A' ≤ c ∧ c ≤ 'Z' then some (c.toNat - 'A'.toNat)
  else if 'a' ≤ c ∧ c ≤ 'z' then some (c.toNat - 'a'.toNat + 26)
  else if '0' ≤ c ∧ c ≤ '9' then some (c.toNat - '0'.toNat + 52)
  else if c = '+' then some 62
  else if c = '/' then some 63
  else none

/-- A space, a tab or a character that ends a line or a page. -/
def isBlank (c : Char) : Bool := c = ' ' || ('\t' ≤ c && c ≤ '\r')

/-- The byte that two characters stand for; the last four bits are not looked at. -/
def decodePair (a b : Char) : Option (List UInt8) := do
  let (a, b) := (← value? a, ← value? b)
  return [.ofNat (a * 4 + b / 16)]

/-- The bytes that three characters stand for; the last two bits are not looked at. -/
def decodeTriple (a b c : Char) : Option (List UInt8) := do
  let (a, b, c) := (← value? a, ← value? b, ← value? c)
  return [.ofNat (a * 4 + b / 16), .ofNat (b * 16 + c / 4)]

/-- The bytes that groups of four characters stand for. -/
def decodeGroups : List Char → Option (List UInt8)
  | [] => some []
  | [a, b] | [a, b, '=', '='] => decodePair a b
  | [a, b, c] | [a, b, c, '='] => decodeTriple a b c
  | a :: b :: c :: d :: rest => do
    let (a, b, c, d) := (← value? a, ← value? b, ← value? c, ← value? d)
    let bytes ← decodeGroups rest
    return .ofNat (a * 4 + b / 16) :: .ofNat (b * 16 + c / 4) :: .ofNat (c * 64 + d) :: bytes
  | _ => none

/-- The bytes that a text stands for. -/
def decode (s : List Char) : Option (List UInt8) := decodeGroups (s.filter fun c => !isBlank c)

end Text.Base64

end NodeInventory
