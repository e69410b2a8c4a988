import NodeInventory.Text
import Mathlib.Data.List.Basic
import Mathlib.Data.List.Lex
import Mathlib.Data.List.Nodup
import Mathlib.Data.List.Perm.Basic
import Mathlib.Data.String.Basic

/-!
# UTF-8 and the order of texts

Bytes that are read as a text are the encoding of just this text, and are ordered as texts are.
-/

namespace NodeInventory

/-!
## Reading UTF-8 back

The strict reader of `Utf8.decode` accepts exactly what `Utf8.encode` writes.

* `Utf8.front_eq_char_iff` : a character stands at the front of bytes if and only if its encoding
  does;
* `Utf8.decode_eq_ok_iff` : bytes decode to a text if and only if they are its encoding.
-/

namespace Text.Utf8

/-! ### One character as bytes -/

theorem ofNat_eq_of_eq_toNat {n : ℕ} {b : UInt8} (h : n = b.toNat) : UInt8.ofNat n = b := by
  rw [h, UInt8.ofNat_toNat]

theorem exists_toNat_eq {n : ℕ} (h : n < 256) : ∃ b : UInt8, b.toNat = n :=
  ⟨UInt8.ofNat n, by simp [Nat.mod_eq_of_lt h]⟩

theorem toNat_ofNat_of_isValidChar {v : ℕ} (h : v.isValidChar) : (Char.ofNat v).val.toNat = v := by
  have : Char.ofNat v = Char.ofNatAux v h := dif_pos h
  rw [this]
  exact UInt32.toNat_ofNatLT

theorem utf8EncodeChar_ofNat {v : ℕ} (h : v.isValidChar) :
    String.utf8EncodeChar (Char.ofNat v) =
      if v ≤ 0x7f then [UInt8.ofNat v]
      else if v ≤ 0x7ff then [UInt8.ofNat (v / 64 % 32 + 0xc0), UInt8.ofNat (v % 64 + 0x80)]
      else if v ≤ 0xffff then
        [UInt8.ofNat (v / 4096 % 16 + 0xe0), UInt8.ofNat (v / 64 % 64 + 0x80),
          UInt8.ofNat (v % 64 + 0x80)]
      else
        [UInt8.ofNat (v / 262144 % 8 + 0xf0), UInt8.ofNat (v / 4096 % 64 + 0x80),
          UInt8.ofNat (v / 64 % 64 + 0x80), UInt8.ofNat (v % 64 + 0x80)] := by
  simp only [String.utf8EncodeChar, toNat_ofNat_of_isValidChar h]

/-! ### What the front step reads -/

theorem follow_succ_eq_char_iff {width n bits : ℕ} {low high : UInt8} {bs rest : List UInt8}
    {c : Char} :
    follow width (n + 1) bits low high bs = .char c rest ↔
      ∃ b t, bs = b :: t ∧ low.toNat ≤ b.toNat ∧ b.toNat ≤ high.toNat ∧
        follow (width + 1) n (bits * 64 + (b.toNat - 0x80)) 0x80 0xBF t = .char c rest := by
  cases bs with
  | nil => simp [follow]
  | cons b t =>
    by_cases h : low ≤ b ∧ b ≤ high
    · simp only [follow, h, decide_true, Bool.and_self, if_true, List.cons.injEq]
      constructor
      · exact fun hf => ⟨b, t, ⟨rfl, rfl⟩, UInt8.le_iff_toNat_le.1 h.1,
          UInt8.le_iff_toNat_le.1 h.2, hf⟩
      · rintro ⟨b', t', ⟨rfl, rfl⟩, -, -, hf⟩
        exact hf
    · simp only [follow, ← Bool.decide_and, h, decide_false, Bool.false_eq_true, if_false,
        List.cons.injEq, reduceCtorEq, false_iff]
      rintro ⟨b', t', ⟨rfl, rfl⟩, hlow, hhigh, -⟩
      exact h ⟨UInt8.le_iff_toNat_le.2 hlow, UInt8.le_iff_toNat_le.2 hhigh⟩

theorem follow_zero_eq_char_iff {width bits : ℕ} {low high : UInt8} {bs rest : List UInt8}
    {c : Char} :
    follow width 0 bits low high bs = .char c rest ↔ Char.ofNat bits = c ∧ bs = rest := by
  simp [follow]

theorem lead?_eq (b : UInt8) :
    lead? b =
      if b.toNat < 0xC2 then none
      else if b.toNat < 0xE0 then some ⟨1, b.toNat - 0xC0, 0x80, 0xBF⟩
      else if b.toNat = 0xE0 then some ⟨2, 0, 0xA0, 0xBF⟩
      else if b.toNat = 0xED then some ⟨2, 13, 0x80, 0x9F⟩
      else if b.toNat < 0xF0 then some ⟨2, b.toNat - 0xE0, 0x80, 0xBF⟩
      else if b.toNat = 0xF0 then some ⟨3, 0, 0x90, 0xBF⟩
      else if b.toNat < 0xF4 then some ⟨3, b.toNat - 0xF0, 0x80, 0xBF⟩
      else if b.toNat = 0xF4 then some ⟨3, 4, 0x80, 0x8F⟩
      else none := by
  simp only [lead?, UInt8.lt_iff_toNat_lt, ← UInt8.toNat_inj]
  rfl

/-! ### Sequences of two, three and four bytes -/

/-- A byte that goes on a sequence. -/
def IsTail (b : UInt8) : Prop := 0x80 ≤ b.toNat ∧ b.toNat ≤ 0xBF

/-- The number that two bytes spell. -/
def value2 (a x : UInt8) : ℕ := (a.toNat - 0xC0) * 64 + (x.toNat - 0x80)

/-- The number that three bytes spell. -/
def value3 (a x y : UInt8) : ℕ :=
  ((a.toNat - 0xE0) * 64 + (x.toNat - 0x80)) * 64 + (y.toNat - 0x80)

/-- The number that four bytes spell. -/
def value4 (a x y z : UInt8) : ℕ :=
  (((a.toNat - 0xF0) * 64 + (x.toNat - 0x80)) * 64 + (y.toNat - 0x80)) * 64 + (z.toNat - 0x80)

/-- Two bytes that spell a character in the shortest way. -/
def Spells2 (a x : UInt8) : Prop := 0xC2 ≤ a.toNat ∧ a.toNat < 0xE0 ∧ IsTail x

/-- Three bytes that spell a character in the shortest way. -/
def Spells3 (a x y : UInt8) : Prop :=
  0xE0 ≤ a.toNat ∧ a.toNat < 0xF0 ∧ IsTail x ∧ IsTail y ∧ 0x800 ≤ value3 a x y ∧
    (value3 a x y).isValidChar

/-- Four bytes that spell a character in the shortest way. -/
def Spells4 (a x y z : UInt8) : Prop :=
  0xF0 ≤ a.toNat ∧ a.toNat < 0xF8 ∧ IsTail x ∧ IsTail y ∧ IsTail z ∧ 0x10000 ≤ value4 a x y z ∧
    (value4 a x y z).isValidChar

theorem eq_append_of_spells2 {a x : UInt8} {v : ℕ} (h : Spells2 a x)
    (hv : v = value2 a x) (rest : List UInt8) :
    a :: x :: rest = String.utf8EncodeChar (Char.ofNat v) ++ rest := by
  obtain ⟨ha, ha', hx, hx'⟩ := h
  unfold value2 at hv
  rw [utf8EncodeChar_ofNat (.inl (by omega)), if_neg (by omega), if_pos (by omega),
    ofNat_eq_of_eq_toNat (b := a) (by omega), ofNat_eq_of_eq_toNat (b := x) (by omega)]
  rfl

theorem eq_append_of_spells3 {a x y : UInt8} {v : ℕ} (h : Spells3 a x y)
    (hv : v = value3 a x y) (rest : List UInt8) :
    a :: x :: y :: rest = String.utf8EncodeChar (Char.ofNat v) ++ rest := by
  obtain ⟨ha, ha', ⟨hx, hx'⟩, ⟨hy, hy'⟩, hlow, hvalid⟩ := h
  rw [← hv] at hlow hvalid
  unfold value3 at hv
  rw [utf8EncodeChar_ofNat hvalid, if_neg (by omega), if_neg (by omega), if_pos (by omega),
    ofNat_eq_of_eq_toNat (b := a) (by omega), ofNat_eq_of_eq_toNat (b := x) (by omega),
    ofNat_eq_of_eq_toNat (b := y) (by omega)]
  rfl

theorem eq_append_of_spells4 {a x y z : UInt8} {v : ℕ} (h : Spells4 a x y z)
    (hv : v = value4 a x y z) (rest : List UInt8) :
    a :: x :: y :: z :: rest = String.utf8EncodeChar (Char.ofNat v) ++ rest := by
  obtain ⟨ha, ha', ⟨hx, hx'⟩, ⟨hy, hy'⟩, ⟨hz, hz'⟩, hlow, hvalid⟩ := h
  rw [← hv] at hlow hvalid
  unfold value4 at hv
  rw [utf8EncodeChar_ofNat hvalid, if_neg (by omega), if_neg (by omega), if_neg (by omega),
    ofNat_eq_of_eq_toNat (b := a) (by omega), ofNat_eq_of_eq_toNat (b := x) (by omega),
    ofNat_eq_of_eq_toNat (b := y) (by omega), ofNat_eq_of_eq_toNat (b := z) (by omega)]
  rfl

theorem front_of_lead {b : UInt8} {bs : List UInt8} {l : Lead} (h : lead? b = some l) :
    front b bs = follow 1 l.follow l.bits l.low l.high bs := by
  have hb : ¬ b < 0x80 := by
    intro hb
    rw [UInt8.lt_iff_toNat_lt] at hb
    change b.toNat < 128 at hb
    rw [lead?_eq, if_pos (by omega)] at h
    cases h
  rw [front, if_neg hb, h]

theorem front_ascii {b : UInt8} (h : b.toNat < 0x80) (bs : List UInt8) :
    front b bs = .char (Char.ofNat b.toNat) bs := by
  rw [front, if_pos (UInt8.lt_iff_toNat_lt.2 h)]

theorem front_spells2 {a x : UInt8} (h : Spells2 a x) (rest : List UInt8) :
    front a (x :: rest) = .char (Char.ofNat (value2 a x)) rest := by
  obtain ⟨ha, ha', hx, hx'⟩ := h
  have hlead := lead?_eq a
  rw [if_neg (by omega), if_pos (by omega)] at hlead
  rw [front_of_lead hlead, follow_succ_eq_char_iff]
  exact ⟨x, rest, rfl, hx, hx', rfl⟩

theorem front_spells3 {a x y : UInt8} (h : Spells3 a x y) (rest : List UInt8) :
    front a (x :: y :: rest) = .char (Char.ofNat (value3 a x y)) rest := by
  obtain ⟨ha, ha', ⟨hx, hx'⟩, ⟨hy, hy'⟩, hlow, hvalid⟩ := h
  have hv : value3 a x y =
      ((a.toNat - 0xE0) * 64 + (x.toNat - 0x80)) * 64 + (y.toNat - 0x80) := rfl
  unfold Nat.isValidChar at hvalid
  have hlead := lead?_eq a
  rw [if_neg (by omega), if_neg (by omega)] at hlead
  -- the range of the second byte excludes overlong forms after E0 and surrogates after ED
  split_ifs at hlead with h1 h2
  · rw [front_of_lead hlead, follow_succ_eq_char_iff]
    refine ⟨x, y :: rest, rfl, ?_, hx', follow_succ_eq_char_iff.2 ⟨y, rest, rfl, hy, hy', ?_⟩⟩
    · change 0xA0 ≤ x.toNat
      omega
    · rw [follow_zero_eq_char_iff, hv, h1]
      exact ⟨rfl, rfl⟩
  · rw [front_of_lead hlead, follow_succ_eq_char_iff]
    refine ⟨x, y :: rest, rfl, hx, ?_, follow_succ_eq_char_iff.2 ⟨y, rest, rfl, hy, hy', ?_⟩⟩
    · change x.toNat ≤ 0x9F
      omega
    · rw [follow_zero_eq_char_iff, hv, h2]
      exact ⟨rfl, rfl⟩
  · rw [front_of_lead hlead, follow_succ_eq_char_iff]
    exact ⟨x, y :: rest, rfl, hx, hx', follow_succ_eq_char_iff.2 ⟨y, rest, rfl, hy, hy', rfl⟩⟩

theorem front_spells4 {a x y z : UInt8} (h : Spells4 a x y z) (rest : List UInt8) :
    front a (x :: y :: z :: rest) = .char (Char.ofNat (value4 a x y z)) rest := by
  obtain ⟨ha, ha', ⟨hx, hx'⟩, ⟨hy, hy'⟩, ⟨hz, hz'⟩, hlow, hvalid⟩ := h
  have hv : value4 a x y z =
      (((a.toNat - 0xF0) * 64 + (x.toNat - 0x80)) * 64 + (y.toNat - 0x80)) * 64 +
        (z.toNat - 0x80) := rfl
  unfold Nat.isValidChar at hvalid
  have hlead := lead?_eq a
  rw [if_neg (by omega), if_neg (by omega), if_neg (by omega), if_neg (by omega),
    if_neg (by omega)] at hlead
  -- the range of the second byte excludes overlong forms after F0 and too large numbers after F4
  split_ifs at hlead with h1 h2 h3
  · rw [front_of_lead hlead, follow_succ_eq_char_iff]
    refine ⟨x, y :: z :: rest, rfl, ?_, hx', follow_succ_eq_char_iff.2 ⟨y, z :: rest, rfl, hy, hy',
      follow_succ_eq_char_iff.2 ⟨z, rest, rfl, hz, hz', ?_⟩⟩⟩
    · change 0x90 ≤ x.toNat
      omega
    · rw [follow_zero_eq_char_iff, hv, h1]
      exact ⟨rfl, rfl⟩
  · rw [front_of_lead hlead, follow_succ_eq_char_iff]
    exact ⟨x, y :: z :: rest, rfl, hx, hx', follow_succ_eq_char_iff.2 ⟨y, z :: rest, rfl, hy, hy',
      follow_succ_eq_char_iff.2 ⟨z, rest, rfl, hz, hz', rfl⟩⟩⟩
  · rw [front_of_lead hlead, follow_succ_eq_char_iff]
    refine ⟨x, y :: z :: rest, rfl, hx, ?_, follow_succ_eq_char_iff.2 ⟨y, z :: rest, rfl, hy, hy',
      follow_succ_eq_char_iff.2 ⟨z, rest, rfl, hz, hz', ?_⟩⟩⟩
    · change x.toNat ≤ 0x8F
      omega
    · rw [follow_zero_eq_char_iff, hv, h3]
      exact ⟨rfl, rfl⟩
  · omega

theorem exists_spelling (c : Char) :
    (∃ b : UInt8, b.toNat < 0x80 ∧ Char.ofNat b.toNat = c) ∨
      (∃ a x, Spells2 a x ∧ Char.ofNat (value2 a x) = c) ∨
      (∃ a x y, Spells3 a x y ∧ Char.ofNat (value3 a x y) = c) ∨
      ∃ a x y z, Spells4 a x y z ∧ Char.ofNat (value4 a x y z) = c := by
  obtain ⟨v, hvalid, rfl⟩ : ∃ v : ℕ, v.isValidChar ∧ c = Char.ofNat v :=
    ⟨c.toNat, c.valid, (Char.ofNat_toNat c).symm⟩
  have hrange := hvalid
  unfold Nat.isValidChar at hrange
  rcases Nat.lt_or_ge v 0x80 with h1 | h1
  · obtain ⟨b, hb⟩ := exists_toNat_eq (n := v) (by omega)
    exact .inl ⟨b, by omega, by rw [hb]⟩
  rcases Nat.lt_or_ge v 0x800 with h2 | h2
  · obtain ⟨a, ha⟩ := exists_toNat_eq (n := v / 64 + 0xC0) (by omega)
    obtain ⟨x, hx⟩ := exists_toNat_eq (n := v % 64 + 0x80) (by omega)
    have hv : value2 a x = v := by unfold value2; omega
    have hs : Spells2 a x := by unfold Spells2 IsTail; omega
    exact .inr (.inl ⟨a, x, hs, by rw [hv]⟩)
  rcases Nat.lt_or_ge v 0x10000 with h3 | h3
  · obtain ⟨a, ha⟩ := exists_toNat_eq (n := v / 4096 + 0xE0) (by omega)
    obtain ⟨x, hx⟩ := exists_toNat_eq (n := v / 64 % 64 + 0x80) (by omega)
    obtain ⟨y, hy⟩ := exists_toNat_eq (n := v % 64 + 0x80) (by omega)
    have hv : value3 a x y = v := by unfold value3; omega
    have hs : Spells3 a x y := by unfold Spells3 IsTail Nat.isValidChar; omega
    exact .inr (.inr (.inl ⟨a, x, y, hs, by rw [hv]⟩))
  · obtain ⟨a, ha⟩ := exists_toNat_eq (n := v / 262144 + 0xF0) (by omega)
    obtain ⟨x, hx⟩ := exists_toNat_eq (n := v / 4096 % 64 + 0x80) (by omega)
    obtain ⟨y, hy⟩ := exists_toNat_eq (n := v / 64 % 64 + 0x80) (by omega)
    obtain ⟨z, hz⟩ := exists_toNat_eq (n := v % 64 + 0x80) (by omega)
    have hv : value4 a x y z = v := by unfold value4; omega
    have hs : Spells4 a x y z := by unfold Spells4 IsTail Nat.isValidChar; omega
    exact .inr (.inr (.inr ⟨a, x, y, z, hs, by rw [hv]⟩))

theorem utf8EncodeChar_ascii {b : UInt8} (h : b.toNat < 0x80) :
    String.utf8EncodeChar (Char.ofNat b.toNat) = [b] := by
  rw [utf8EncodeChar_ofNat (.inl (by omega)), if_pos (by omega), UInt8.ofNat_toNat]

theorem eq_of_front_eq_char {b : UInt8} {bs rest : List UInt8} {c : Char}
    (h : front b bs = .char c rest) : b :: bs = String.utf8EncodeChar c ++ rest := by
  have hb : b.toNat < 256 := b.toNat_lt
  rcases Nat.lt_or_ge b.toNat 0x80 with hlow | hhigh
  · rw [front_ascii hlow, Front.char.injEq] at h
    obtain ⟨rfl, rfl⟩ := h
    rw [utf8EncodeChar_ascii hlow]
    rfl
  have hnot : ¬ b < 0x80 := by
    rw [UInt8.lt_iff_toNat_lt]
    exact Nat.not_lt.2 hhigh
  cases hlead : lead? b with
  | none => simp [front, hnot, hlead] at h
  | some l =>
    rw [front_of_lead hlead] at h
    rw [lead?_eq] at hlead
    -- one case for each row of the table of first bytes
    split_ifs at hlead <;> simp only [Option.some.injEq] at hlead <;> subst hlead <;>
      simp only [follow_succ_eq_char_iff, follow_zero_eq_char_iff, UInt8.reduceToNat] at h
    · obtain ⟨x, t, rfl, hx, hx', rfl, rfl⟩ := h
      have hs : Spells2 b x := by unfold Spells2 IsTail; omega
      exact eq_append_of_spells2 hs rfl _
    iterate 3
      · obtain ⟨x, t, rfl, hx, hx', y, t, rfl, hy, hy', rfl, rfl⟩ := h
        have hs : Spells3 b x y := by unfold Spells3 IsTail value3 Nat.isValidChar; omega
        exact eq_append_of_spells3 hs (by unfold value3; omega) _
    iterate 3
      · obtain ⟨x, t, rfl, hx, hx', y, t, rfl, hy, hy', z, t, rfl, hz, hz', rfl, rfl⟩ := h
        have hs : Spells4 b x y z := by unfold Spells4 IsTail value4 Nat.isValidChar; omega
        exact eq_append_of_spells4 hs (by unfold value4; omega) _

theorem exists_front_eq_char (c : Char) (rest : List UInt8) :
    ∃ b bs, String.utf8EncodeChar c ++ rest = b :: bs ∧ front b bs = .char c rest := by
  rcases exists_spelling c with ⟨b, h, rfl⟩ | ⟨a, x, h, rfl⟩ | ⟨a, x, y, h, rfl⟩ |
    ⟨a, x, y, z, h, rfl⟩
  · exact ⟨b, rest, by rw [utf8EncodeChar_ascii h]; rfl, front_ascii h rest⟩
  · exact ⟨a, x :: rest, (eq_append_of_spells2 h rfl rest).symm, front_spells2 h rest⟩
  · exact ⟨a, x :: y :: rest, (eq_append_of_spells3 h rfl rest).symm, front_spells3 h rest⟩
  · exact ⟨a, x :: y :: z :: rest, (eq_append_of_spells4 h rfl rest).symm,
      front_spells4 h rest⟩

/-- A character stands at the front of bytes if and only if its encoding does. -/
theorem front_eq_char_iff {b : UInt8} {bs rest : List UInt8} {c : Char} :
    front b bs = .char c rest ↔ b :: bs = String.utf8EncodeChar c ++ rest := by
  constructor
  · exact eq_of_front_eq_char
  · intro h
    obtain ⟨b', bs', he, hfront⟩ := exists_front_eq_char c rest
    obtain ⟨rfl, rfl⟩ := List.cons.inj (h.trans he)
    exact hfront

/-! ### Whole texts -/

theorem encode_cons (c : Char) (s : List Char) :
    encode (c :: s) = String.utf8EncodeChar c ++ encode s := rfl

theorem decodeFrom_of_front_eq_char {index : ℕ} {b : UInt8} {bs rest : List UInt8} {c : Char}
    (h : front b bs = .char c rest) :
    decodeFrom index (b :: bs) =
      (decodeFrom (index + (bs.length + 1 - rest.length)) rest).map (c :: ·) := by
  rw [decodeFrom]
  split
  · next c' rest' h' =>
    rw [h, Front.char.injEq] at h'
    obtain ⟨rfl, rfl⟩ := h'
    rfl
  · next h' => rw [h] at h'; cases h'
  · next h' => rw [h] at h'; cases h'

theorem decodeFrom_encode (index : ℕ) (s : List Char) : decodeFrom index (encode s) = .ok s := by
  induction s generalizing index with
  | nil => rw [encode, List.flatMap_nil, decodeFrom]
  | cons c s ih =>
    obtain ⟨b, bs, he, hfront⟩ := exists_front_eq_char c (encode s)
    rw [encode_cons, he, decodeFrom_of_front_eq_char hfront, ih]
    rfl

theorem eq_encode_of_decodeFrom {index : ℕ} {bs : List UInt8} {s : List Char}
    (h : decodeFrom index bs = .ok s) : bs = encode s := by
  fun_induction decodeFrom index bs generalizing s with
  | case1 index =>
    cases h
    rfl
  | case2 index b bs c rest hfront ih =>
    cases hrest : decodeFrom (index + (bs.length + 1 - rest.length)) rest with
    | error fault => simp [hrest, bind, Except.bind] at h
    | ok cs =>
      simp only [hrest, bind, Except.bind, pure, Except.pure, Except.ok.injEq] at h
      rw [← h, encode_cons, ← ih hrest, eq_of_front_eq_char hfront]
  | case3 => cases h
  | case4 => cases h

/-- **The strict reader accepts exactly what is written**: bytes decode to a text if and only if
they are its encoding. -/
theorem decode_eq_ok_iff {bs : List UInt8} {s : List Char} :
    decode bs = .ok s ↔ bs = encode s := by
  constructor
  · exact eq_encode_of_decodeFrom
  · rintro rfl
    exact decodeFrom_encode 0 s

end Text.Utf8

/-!
## The order of texts and of their bytes

Texts are ordered by their characters, from the front on.  UTF-8 keeps this order: texts are ordered
as their bytes are (`Utf8.encode_lt_encode_iff`), and strings in ascending order are known by which
they are (`Utf8.eq_of_ascending`).
-/

namespace Text.Utf8

theorem ofNat_cons_lt_ofNat_cons_iff {m n : ℕ} (hm : m < 256) (hn : n < 256) {x y : List UInt8} :
    UInt8.ofNat m :: x < UInt8.ofNat n :: y ↔ m < n ∨ m = n ∧ x < y := by
  have hlt : UInt8.ofNat m < UInt8.ofNat n ↔ m < n := by
    rw [UInt8.lt_iff_toNat_lt, UInt8.toNat_ofNat_of_lt' hm, UInt8.toNat_ofNat_of_lt' hn]
  have heq : UInt8.ofNat m = UInt8.ofNat n ↔ m = n := by
    rw [← UInt8.toNat_inj, UInt8.toNat_ofNat_of_lt' hm, UInt8.toNat_ofNat_of_lt' hn]
  rw [List.cons_lt_cons_iff, hlt, heq]

/-- The bytes of a character come before those of every later one, whatever follows them. -/
theorem utf8EncodeChar_append_lt {c d : Char} (h : c < d) (x y : List UInt8) :
    String.utf8EncodeChar c ++ x < String.utf8EncodeChar d ++ y := by
  have hlt : c.val.toNat < d.val.toNat := h
  have hd : d.val.toNat < 0x110000 := by
    rcases d.valid with hd | ⟨-, hd⟩
    · exact hd.trans (by decide)
    · exact hd
  have hlead : ∀ n : ℕ, n < 0x110000 → n / 262144 % 8 = n / 262144 := by omega
  have hleadc := hlead c.val.toNat (hlt.trans hd)
  have hleadd := hlead d.val.toNat hd
  -- a longer sequence has the larger first byte; in sequences of one length the digits decide
  simp only [String.utf8EncodeChar]
  split_ifs <;>
    simp (disch := omega) only [List.cons_append, List.nil_append, ofNat_cons_lt_ofNat_cons_iff] <;>
    omega

theorem encode_lt_encode {s t : List Char} (h : s < t) : encode s < encode t := by
  induction h with
  | @nil d t =>
    change [] < String.utf8EncodeChar d ++ encode t
    cases hd : String.utf8EncodeChar d with
    | nil =>
      have hsize := String.length_utf8EncodeChar d
      rw [hd] at hsize
      exact absurd hsize.symm (Nat.ne_of_gt d.utf8Size_pos)
    | cons b bs => exact List.Lex.nil
  | @rel c s d t hcd => exact utf8EncodeChar_append_lt hcd _ _
  | @cons c s t _ ih => exact List.append_left_lt ih

/-- **UTF-8 keeps the order of texts.** -/
theorem encode_lt_encode_iff {s t : List Char} : encode s < encode t ↔ s < t := by
  refine ⟨fun h => ?_, encode_lt_encode⟩
  rcases lt_trichotomy s t with hlt | rfl | hgt
  · exact hlt
  · exact absurd h (List.lt_irrefl _)
  · exact absurd h (List.lt_asymm (encode_lt_encode hgt))

/-- Strings in strictly ascending order, of their bytes or of their characters, are the same if each
is among both. -/
theorem eq_of_ascending {names names' : List String}
    (h : names.Pairwise fun s t => encode s.toList < encode t.toList)
    (h' : names'.Pairwise (· < ·)) (hmem : ∀ s, s ∈ names ↔ s ∈ names') : names = names' := by
  have hascending : names.Pairwise (· < ·) :=
    h.imp fun hlt => String.lt_iff_toList_lt.2 (encode_lt_encode_iff.1 hlt)
  refine List.Perm.eq_of_pairwise (fun s t _ _ hst hts => ?_) hascending h'
    ((List.perm_ext_iff_of_nodup hascending.nodup h'.nodup).2 hmem)
  exact absurd (String.lt_trans hst hts) (String.lt_irrefl s)

end Text.Utf8

end NodeInventory
