import NodeInventory.Proofs.Json.ReadBack
import Mathlib.Data.List.TakeWhile

/-!
# Values that survive printing and reading

A number is *preserved* if reading its text gives it back (`Json.Number.IsPreserved`); integers in
range are.  A value that holds preserved numbers only is read back as it was if no more containers
are nested in it than there is room for, and else it is not read at all.

* `Json.readNumeral_append` : a number is read the same in front of what may stand behind a value;
* `Json.Number.isPreserved_iff` : the text of a preserved number is one number, whose value it is;
* `Json.Number.isPreserved_integer` : integers from `-2 ^ 63` to `2 ^ 64 - 1` are preserved;
* `Json.value?_written` : the value of a printed text, up to the limit of nesting.
-/

namespace NodeInventory

namespace Json

/-! ### Numbers in front of other text -/

section Append

variable {s q r : List Char}

theorem EndsValue.takeWhile_isDigit (hr : EndsValue r) : r.takeWhile Char.isDigit = [] := by
  cases r with
  | nil => rfl
  | cons c r =>
    have hc : c ∈ [',', ']', '\x7d'] := hr c rfl
    refine List.takeWhile_cons_of_neg ?_
    simp only [List.mem_cons, List.not_mem_nil, or_false] at hc
    rcases hc with rfl | rfl | rfl <;> decide

theorem readDigits_append (hr : EndsValue r) {ds : List Char} (h : readDigits s = some (ds, q)) :
    q <:+ s ∧ readDigits (s ++ r) = some (ds, q ++ r) := by
  have hdrop : r.dropWhile Char.isDigit = r := by
    have := List.takeWhile_append_dropWhile (p := Char.isDigit) (l := r)
    rwa [hr.takeWhile_isDigit, List.nil_append] at this
  have htake : (s ++ r).takeWhile Char.isDigit = s.takeWhile Char.isDigit := by
    rw [List.takeWhile_append, hr.takeWhile_isDigit, List.append_nil]
    split
    · next hlength => exact ((List.takeWhile_prefix _).eq_of_length hlength).symm
    · rfl
  have hdrop' : (s ++ r).dropWhile Char.isDigit = s.dropWhile Char.isDigit ++ r := by
    rw [List.dropWhile_append, hdrop]
    split
    · next hempty => rw [List.isEmpty_iff.1 hempty, List.nil_append]
    · rfl
  unfold readDigits at h ⊢
  split at h
  · cases h
  · next hne =>
    simp only [Option.some.injEq, Prod.mk.injEq] at h
    obtain ⟨rfl, rfl⟩ := h
    rw [htake, hdrop', if_neg hne]
    exact ⟨List.dropWhile_suffix _, rfl⟩

theorem readWhole_append (hr : EndsValue r) {ds : List Char} (h : readWhole s = some (ds, q)) :
    q <:+ s ∧ readWhole (s ++ r) = some (ds, q ++ r) := by
  cases s with
  | nil => cases h
  | cons c s =>
    by_cases hc : c = '0'
    · subst hc
      cases h
      exact ⟨List.suffix_cons .., rfl⟩
    · have hdigits : ∀ t, readWhole (c :: t) = readDigits (c :: t) := by
        intro t
        rw [readWhole]
        rintro rest ⟨⟩
        exact hc rfl
      rw [hdigits] at h
      rw [List.cons_append, hdigits]
      exact readDigits_append hr h

theorem readFraction_append (hr : EndsValue r) {ds : Option (List Char)}
    (h : readFraction s = some (ds, q)) :
    q <:+ s ∧ readFraction (s ++ r) = some (ds, q ++ r) := by
  have hother : ∀ t : List Char, (∀ u, t ≠ '.' :: u) → readFraction t = some (none, t) := by
    intro t ht
    rw [readFraction]
    exact ht
  cases s with
  | nil =>
    cases h
    refine ⟨List.suffix_rfl, hother r fun u hu => ?_⟩
    have := hr '.' (by rw [hu]; rfl)
    revert this
    decide
  | cons c s =>
    by_cases hc : c = '.'
    · subst hc
      obtain ⟨⟨ds', q'⟩, hdigits, hq⟩ := Option.map_eq_some_iff.1 h
      cases hq
      obtain ⟨hsuffix, happend⟩ := readDigits_append hr hdigits
      refine ⟨hsuffix.trans (List.suffix_cons ..), ?_⟩
      rw [List.cons_append, readFraction, happend]
      rfl
    · have hne : ∀ t u : List Char, c :: t ≠ '.' :: u := by
        rintro t u ⟨⟩
        exact hc rfl
      rw [hother _ (hne s)] at h
      cases h
      exact ⟨List.suffix_rfl, hother _ (hne (s ++ r))⟩

/-- The sign in front of the digits of an exponent, and what stands behind it. -/
def readSign : List Char → Bool × List Char
  | '-' :: rest => (true, rest)
  | '+' :: rest => (false, rest)
  | rest => (false, rest)

theorem readExponent_mark {c : Char} (hc : c = 'e' ∨ c = 'E') (s : List Char) :
    readExponent (c :: s) =
      (readDigits (readSign s).2).map fun p => (some ((readSign s).1, p.1), p.2) := by
  unfold readExponent
  exact if_pos hc

theorem readExponent_plain {c : Char} (hc : ¬ (c = 'e' ∨ c = 'E')) (s : List Char) :
    readExponent (c :: s) = some (none, c :: s) := by
  unfold readExponent
  exact if_neg hc

theorem readSign_append (hs : s ≠ []) (r : List Char) :
    (readSign s).2 <:+ s ∧ readSign (s ++ r) = ((readSign s).1, (readSign s).2 ++ r) := by
  unfold readSign
  split
  · exact ⟨List.suffix_cons .., rfl⟩
  · exact ⟨List.suffix_cons .., rfl⟩
  · next hminus hplus =>
    obtain ⟨c, s, rfl⟩ := List.exists_cons_of_ne_nil hs
    refine ⟨List.suffix_rfl, ?_⟩
    split
    · next t ht =>
      cases ht
      exact absurd rfl (hminus s)
    · next t ht =>
      cases ht
      exact absurd rfl (hplus s)
    · rfl

theorem readExponent_append (hr : EndsValue r) {e : Option (Bool × List Char)}
    (h : readExponent s = some (e, q)) :
    q <:+ s ∧ readExponent (s ++ r) = some (e, q ++ r) := by
  cases s with
  | nil =>
    cases h
    refine ⟨List.suffix_rfl, ?_⟩
    cases r with
    | nil => rfl
    | cons c r =>
      refine readExponent_plain ?_ r
      have hc : c ∈ [',', ']', '\x7d'] := hr c rfl
      rintro (rfl | rfl) <;> exact absurd hc (by decide)
  | cons c s =>
    by_cases hc : c = 'e' ∨ c = 'E'
    · rw [readExponent_mark hc] at h
      obtain ⟨⟨ds, q'⟩, hdigits, hq⟩ := Option.map_eq_some_iff.1 h
      cases hq
      have hs : s ≠ [] := by
        rintro rfl
        cases hdigits
      obtain ⟨hsign, hsign'⟩ := readSign_append hs r
      obtain ⟨hsuffix, happend⟩ := readDigits_append hr hdigits
      refine ⟨(hsuffix.trans hsign).trans (List.suffix_cons ..), ?_⟩
      rw [List.cons_append, readExponent_mark hc, hsign', happend]
      rfl
    · rw [readExponent_plain hc] at h
      cases h
      exact ⟨List.suffix_rfl, readExponent_plain hc (s ++ r)⟩

/-- What is read of a number behind its sign. -/
def readMagnitude (negative : Bool) (s : List Char) : Option (Numeral × List Char) := do
  let (whole, s) ← readWhole s
  let (fraction, s) ← readFraction s
  let (exponent, s) ← readExponent s
  return (⟨negative, whole, fraction, exponent⟩, s)

theorem readNumeral_minus (s : List Char) : readNumeral ('-' :: s) = readMagnitude true s := rfl

theorem readNumeral_of_ne (h : ∀ t, s ≠ '-' :: t) : readNumeral s = readMagnitude false s := by
  cases s with
  | nil => rfl
  | cons c s =>
    have hc : c ≠ '-' := fun hc => h s (hc ▸ rfl)
    simp [readNumeral, readMagnitude]

theorem readMagnitude_append (hr : EndsValue r) {negative : Bool} {n : Numeral}
    (h : readMagnitude negative s = some (n, q)) :
    q <:+ s ∧ readMagnitude negative (s ++ r) = some (n, q ++ r) := by
  obtain ⟨⟨w, q₁⟩, hw, h⟩ := Option.bind_eq_some_iff.1 h
  obtain ⟨⟨f, q₂⟩, hf, h⟩ := Option.bind_eq_some_iff.1 h
  obtain ⟨⟨e, q₃⟩, he, h⟩ := Option.bind_eq_some_iff.1 h
  cases h
  obtain ⟨hsuffix₁, hw'⟩ := readWhole_append hr hw
  obtain ⟨hsuffix₂, hf'⟩ := readFraction_append hr hf
  obtain ⟨hsuffix₃, he'⟩ := readExponent_append hr he
  refine ⟨(hsuffix₃.trans hsuffix₂).trans hsuffix₁, ?_⟩
  simp [readMagnitude, hw', hf', he']

/-- A number is read the same in front of what may stand behind a value. -/
theorem readNumeral_append (hr : EndsValue r) {n : Numeral} (h : readNumeral s = some (n, q)) :
    q <:+ s ∧ readNumeral (s ++ r) = some (n, q ++ r) := by
  cases s with
  | nil => simp [readNumeral, readWhole, readDigits] at h
  | cons c s =>
    by_cases hminus : c = '-'
    · subst hminus
      rw [readNumeral_minus] at h
      obtain ⟨hsuffix, happend⟩ := readMagnitude_append hr h
      exact ⟨hsuffix.trans (List.suffix_cons ..), readNumeral_minus (s ++ r) ▸ happend⟩
    · have hne : ∀ u t, c :: u ≠ '-' :: t := by
        rintro u t ⟨⟩
        exact hminus rfl
      rw [readNumeral_of_ne (hne s)] at h
      rw [List.cons_append, readNumeral_of_ne (hne (s ++ r))]
      exact readMagnitude_append hr h

end Append

/-! ### Printed numbers -/

theorem isDigit_of_mem_toDigits {n : ℕ} {c : Char} (h : c ∈ Nat.toDigits 10 n) : c.isDigit :=
  Nat.isDigit_of_mem_toDigits (by decide) (by decide) h

theorem mem_decimalText {c : Char} {digits : ℕ} {scale : Int}
    (h : c ∈ Double.decimalText digits scale) : c.isDigit ∨ c ∈ ['-', '+', '.', 'e'] := by
  have hzeros : ∀ n, c ∈ List.replicate n '0' → c.isDigit := by
    intro n hc
    rw [List.eq_of_mem_replicate hc]
    decide
  unfold Double.decimalText at h
  simp only at h
  split at h
  · simp only [List.mem_append, List.mem_cons, List.not_mem_nil, or_false] at h
    rcases h with (h | h) | rfl | rfl
    · exact .inl (isDigit_of_mem_toDigits h)
    · exact .inl (hzeros _ h)
    · exact .inr (by decide)
    · exact .inl (by decide)
  split at h
  · simp only [List.mem_append, List.mem_cons] at h
    rcases h with h | rfl | h
    · exact .inl (isDigit_of_mem_toDigits (List.mem_of_mem_take h))
    · exact .inr (by decide)
    · exact .inl (isDigit_of_mem_toDigits (List.mem_of_mem_drop h))
  split at h
  · simp only [List.mem_append, List.mem_cons] at h
    rcases h with rfl | rfl | h | h
    · exact .inl (by decide)
    · exact .inr (by decide)
    · exact .inl (hzeros _ h)
    · exact .inl (isDigit_of_mem_toDigits h)
  · simp only [List.mem_append, List.mem_cons] at h
    rcases h with (h | h) | rfl | rfl | h
    · exact .inl (isDigit_of_mem_toDigits (List.mem_of_mem_take h))
    · split at h
      · cases h
      · next hrest =>
        rcases List.mem_cons.1 h with rfl | h
        · exact .inr (by decide)
        · exact .inl (isDigit_of_mem_toDigits (List.mem_of_mem_tail (by simpa using h)))
    · exact .inr (by decide)
    · split <;> exact .inr (by decide)
    · exact .inl (isDigit_of_mem_toDigits h)

theorem Number.mem_write {n : Number} {c : Char} (h : c ∈ n.write) :
    c.isDigit ∨ c ∈ ['-', '+', '.', 'e'] := by
  cases n with
  | integer n =>
    rw [Number.write, writeInt] at h
    split at h
    · rcases List.mem_cons.1 h with rfl | h
      · exact .inr (by decide)
      · exact .inl (isDigit_of_mem_toDigits h)
    · exact .inl (isDigit_of_mem_toDigits h)
  | double d =>
    have hmagnitude : c ∈ (if d.place = 0 then ['0', '.', '0']
        else Double.decimalText d.shortest.1 d.shortest.2) →
        c.isDigit ∨ c ∈ ['-', '+', '.', 'e'] := by
      intro hc
      split at hc
      · simp only [List.mem_cons, List.not_mem_nil, or_false] at hc
        rcases hc with rfl | rfl | rfl <;> decide
      · exact mem_decimalText hc
    rw [Number.write, Double.text] at h
    split at h
    · rcases List.mem_cons.1 h with rfl | h
      · exact .inr (by decide)
      · exact hmagnitude h
    · exact hmagnitude h

theorem Number.isSpace_eq_false {n : Number} {c : Char} (h : c ∈ n.write) : isSpace c = false := by
  by_contra hspace
  simp only [isSpace, Bool.or_eq_true, decide_eq_true_eq, Bool.not_eq_false] at hspace
  have := Number.mem_write h
  rcases hspace with ((rfl | rfl) | rfl) | rfl <;> revert this <;> decide

theorem skipSpace_eq_self {s : List Char} (h : ∀ c ∈ s, isSpace c = false) : skipSpace s = s := by
  cases s with
  | nil => rfl
  | cons c s => exact List.dropWhile_cons_of_neg (by simp [h c List.mem_cons_self])

theorem isDigit_head_of_readNumeral {c : Char} {s r : List Char} {n : Numeral}
    (h : readNumeral (c :: s) = some (n, r)) : c.isDigit ∨ c = '-' := by
  by_contra hc
  rw [not_or] at hc
  have hzero : c ≠ '0' := by
    rintro rfl
    exact hc.1 rfl
  simp [readNumeral, readWhole, readDigits, hc.1, hc.2, hzero] at h

namespace Written

theorem readNumeral_of_reads {s r : List Char} {n : Numeral} (h : Reads s (.number n) r) :
    readNumeral (skipSpace s) = some (n, r) := by
  obtain ⟨r, h, rfl⟩ := h
  rw [read.eq_def] at h
  split at h
  · cases h
  · next c t hs =>
    rw [hs]
    dsimp only at h
    split at h
    · split at h <;> cases h
    split at h
    · split at h <;> cases h
    split at h
    · split at h <;> cases h
    split at h
    · next v u hscalar =>
      cases h
      unfold readScalar at hscalar
      split at hscalar
      · cases hscalar
      · cases hscalar
      · cases hscalar
      · obtain ⟨⟨m, u'⟩, hm, he⟩ := Option.map_eq_some_iff.1 hscalar
        cases he
        exact hm
    · cases h

theorem readPrefix_of_parse {s : String} {w : Written} (h : parse s = some w) :
    ∃ r, readPrefix s = some (w, r) ∧ skipSpace r = [] := by
  unfold parse at h
  split at h
  · next w' r hprefix =>
    split at h
    · next hr =>
      cases h
      exact ⟨r, hprefix, hr⟩
    · cases h
  · cases h

theorem reads_of_readPrefix {s : String} {w : Written} {r : List Char}
    (h : readPrefix s = some (w, r)) : Reads s.toList w r := by
  obtain ⟨⟨w', r'⟩, hread, he⟩ := Option.map_eq_some_iff.1 h
  cases he
  exact ⟨r', hread, rfl⟩

theorem reads_numeral {s r : List Char} {n : Numeral} (h : readNumeral s = some (n, r)) :
    Reads s (.number n) r := by
  cases s with
  | nil => simp [readNumeral, readWhole, readDigits] at h
  | cons c s =>
    have hc := isDigit_head_of_readNumeral h
    have hne : ∀ d : Char, d.isDigit = false → d ≠ '-' → d ≠ c := by
      rintro d hdigit hminus rfl
      rcases hc with hc | hc
      · simp [hc] at hdigit
      · exact hminus hc
    refine reads_scalar ?_ ?_ ?_
    · simp [isSpace, (hne ' ' rfl (by decide)).symm, (hne '\t' rfl (by decide)).symm,
        (hne '\n' rfl (by decide)).symm, (hne '\r' rfl (by decide)).symm]
    · simp [(hne '"' rfl (by decide)).symm, (hne '[' rfl (by decide)).symm,
        (hne '{' rfl (by decide)).symm]
    · simp [readScalar, afterWord?, hne 'n' rfl (by decide), hne 't' rfl (by decide),
        hne 'f' rfl (by decide), h]

end Written

/-! ### Preserved numbers -/

/-- Reading the text of the number gives it back. -/
def Number.IsPreserved (n : Number) : Prop := parse (Json.number n).text = some (.number n)

theorem number_of_mergeKeys_eq {v : Json} {n : Number} (h : v.mergeKeys = .number n) :
    v = .number n := by
  cases v <;> simp_all [mergeKeys]

theorem number_of_value?_eq {w : Written} {room : ℕ} {n : Number}
    (h : w.value? room = some (.number n)) : ∃ m, w = .number m ∧ m.value? = some n := by
  cases w with
  | number m => simpa [Written.value?] using h
  | null | bool b => simp [Written.value?] at h
  | string s => simp [Written.value?] at h
  | array items | object fields => cases room <;> simp [Written.value?] at h

/-- The text of a preserved number is one number, whose value it is. -/
theorem Number.isPreserved_iff {n : Number} :
    n.IsPreserved ↔ ∃ m, readNumeral n.write = some (m, []) ∧ m.value? = some n := by
  have htext : (Json.number n).text.toList = n.write := String.toList_ofList
  have hspace : ∀ c ∈ n.write, isSpace c = false := fun c hc => Number.isSpace_eq_false hc
  unfold IsPreserved
  constructor
  · intro h
    obtain ⟨w, hw, h⟩ := Option.bind_eq_some_iff.1 h
    obtain ⟨v, hv, h⟩ := Option.bind_eq_some_iff.1 h
    obtain rfl := number_of_mergeKeys_eq (Option.some.inj h)
    obtain ⟨m, rfl, hm⟩ := number_of_value?_eq hv
    obtain ⟨rest, hprefix, hrest⟩ := Written.readPrefix_of_parse hw
    have hnumeral := Written.readNumeral_of_reads (Written.reads_of_readPrefix hprefix)
    rw [htext, skipSpace_eq_self hspace] at hnumeral
    -- the rest stands in the number, so it is empty unless there is a blank in it
    obtain ⟨hsuffix, -⟩ := readNumeral_append (r := []) (by simp [EndsValue]) hnumeral
    rw [skipSpace_eq_self fun c hc => hspace c (hsuffix.mem hc)] at hrest
    exact ⟨m, hrest ▸ hnumeral, hm⟩
  · rintro ⟨m, hread, hm⟩
    obtain ⟨t, h, ht⟩ := htext ▸ Written.reads_numeral hread
    rw [parse, Written.parse, Written.readPrefix, h]
    simp [ht, skipSpace, Written.value?, hm, mergeKeys]

theorem Number.IsPreserved.numeral {n : Number} (h : n.IsPreserved) :
    readNumeral n.write = some (n.numeral, []) ∧ n.numeral.value? = some n := by
  obtain ⟨m, hread, hm⟩ := Number.isPreserved_iff.1 h
  have hn : n.numeral = m := by rw [Number.numeral, hread]; rfl
  exact hn ▸ ⟨hread, hm⟩

theorem toDigits_ne_zero_cons {n : ℕ} (h : 0 < n) (r : List Char) : Nat.toDigits 10 n ≠ '0' :: r := by
  induction n using Nat.strongRecOn generalizing r with
  | ind n ih =>
    by_cases hn : n < 10
    · rw [Nat.toDigits_of_lt_base hn]
      intro heq
      have := Nat.digitChar_eq_zero.1 (List.cons.inj heq).1
      omega
    · rw [Nat.toDigits_of_base_le (by decide) (by omega)]
      obtain ⟨c, s, hs⟩ := List.exists_cons_of_ne_nil (Nat.toDigits_ne_nil (n := n / 10) (b := 10))
      rw [hs]
      rintro ⟨⟩
      exact ih (n / 10) (by omega) (by omega) s hs

theorem readDigits_toDigits (n : ℕ) :
    readDigits (Nat.toDigits 10 n) = some (Nat.toDigits 10 n, []) := by
  have hdigits : ∀ c ∈ Nat.toDigits 10 n, c.isDigit := fun _ hc => isDigit_of_mem_toDigits hc
  rw [readDigits, List.takeWhile_eq_self_iff.2 hdigits, List.dropWhile_eq_nil_iff.2 hdigits,
    if_neg Nat.toDigits_ne_nil]

theorem readWhole_toDigits (n : ℕ) :
    readWhole (Nat.toDigits 10 n) = some (Nat.toDigits 10 n, []) := by
  rcases Nat.eq_zero_or_pos n with rfl | hn
  · rfl
  · rw [readWhole]
    · exact readDigits_toDigits n
    · exact toDigits_ne_zero_cons hn

theorem readNumeral_writeInt (n : Int) :
    readNumeral (writeInt n) =
      some (⟨decide (n < 0), Nat.toDigits 10 n.natAbs, none, none⟩, []) := by
  have hmagnitude : ∀ negative, readMagnitude negative (Nat.toDigits 10 n.natAbs) =
      some (⟨negative, Nat.toDigits 10 n.natAbs, none, none⟩, []) := by
    intro negative
    rw [readMagnitude, readWhole_toDigits]
    rfl
  unfold writeInt
  split
  · next hn => rw [readNumeral_minus, hmagnitude, decide_eq_true hn]
  · next hn =>
    have hdigit : ∀ t, Nat.toDigits 10 n.natAbs ≠ '-' :: t := by
      intro t ht
      have hmem : '-' ∈ Nat.toDigits 10 n.natAbs := ht ▸ List.mem_cons_self
      exact absurd (isDigit_of_mem_toDigits hmem) (by decide)
    rw [readNumeral_of_ne hdigit, hmagnitude, decide_eq_false hn]

theorem value?_digits {negative : Bool} {m : ℕ}
    (h : if negative then 0 < m ∧ m ≤ Nat.pow 2 63 else m < Nat.pow 2 64) :
    Numeral.value? ⟨negative, Nat.toDigits 10 m, none, none⟩ =
      some (.integer (if negative then -m else m)) := by
  have hdigits : digitsValue (Nat.toDigits 10 m) = m := Nat.ofDigitChars_ten_toDigits
  cases negative <;> simp_all [Numeral.value?]

/-- Integers from `-2 ^ 63` to `2 ^ 64 - 1` are preserved. -/
theorem Number.isPreserved_integer {n : Int} (hlow : -(Nat.pow 2 63 : Int) ≤ n)
    (hhigh : n < Nat.pow 2 64) : (Number.integer n).IsPreserved := by
  refine Number.isPreserved_iff.2 ⟨_, readNumeral_writeInt n, ?_⟩
  have hrange : if decide (n < 0) then 0 < n.natAbs ∧ n.natAbs ≤ Nat.pow 2 63
      else n.natAbs < Nat.pow 2 64 := by
    simp only [decide_eq_true_eq]
    split <;> omega
  have hvalue : (if decide (n < 0) then -(n.natAbs : Int) else n.natAbs) = n := by
    simp only [decide_eq_true_eq]
    split <;> omega
  rw [value?_digits hrange, hvalue]

-- the double -1.5
example : (Number.double
    ⟨true, 1023 * Double.blockSize + Double.blockSize / 2, by decide⟩).IsPreserved := by
  refine Number.isPreserved_iff.2 ⟨⟨true, ['1'], some ['5'], none⟩, ?_, ?_⟩ <;> decide +kernel

-- the double nearest to 449.49106478873813 is not preserved: its text is read as the next double
example :
    Numeral.value? ⟨false, ['4', '4', '9'],
        some ['4', '9', '1', '0', '6', '4', '7', '8', '8', '7', '3', '8', '1', '3'], none⟩ =
      (Double.ofDecimal false 4494910647887382 (-13)).map .double ∧
    Double.ofDecimal false 4494910647887382 (-13) ≠
      Double.ofDecimal false 44949106478873813 (-14) := by
  decide +kernel

/-! ### Whole values -/

theorem numbersReadBack_number {n : Number} (h : n.IsPreserved) : NumbersReadBack (.number n) :=
  fun _ hr => Written.reads_numeral (readNumeral_append hr h.numeral.1).2

mutual

/-- The numbers in a value. -/
def numbers : Json → List Number
  | .number n => [n]
  | .array items => numbersItems items
  | .object fields => numbersFields fields
  | _ => []

/-- The numbers in items. -/
def numbersItems : List Json → List Number
  | [] => []
  | v :: items => numbers v ++ numbersItems items

/-- The numbers in the values of fields. -/
def numbersFields : List (String × Json) → List Number
  | [] => []
  | (_, v) :: fields => numbers v ++ numbersFields fields

end

mutual

theorem numbersReadBack_of_preserved (v : Json) (h : ∀ n ∈ v.numbers, n.IsPreserved) :
    NumbersReadBack v := by
  cases v with
  | number n => exact numbersReadBack_number (h n (List.mem_singleton_self n))
  | array items => exact numbersReadBackItems_of_preserved items h
  | object fields => exact numbersReadBackFields_of_preserved fields h
  | null | bool | string => trivial

theorem numbersReadBackItems_of_preserved (items : List Json)
    (h : ∀ n ∈ numbersItems items, n.IsPreserved) : NumbersReadBackItems items := by
  cases items with
  | nil => trivial
  | cons v items =>
    rw [numbersItems, List.forall_mem_append] at h
    exact ⟨numbersReadBack_of_preserved v h.1, numbersReadBackItems_of_preserved items h.2⟩

theorem numbersReadBackFields_of_preserved (fields : List (String × Json))
    (h : ∀ n ∈ numbersFields fields, n.IsPreserved) : NumbersReadBackFields fields := by
  cases fields with
  | nil => trivial
  | cons f fields =>
    obtain ⟨k, v⟩ := f
    rw [numbersFields, List.forall_mem_append] at h
    exact ⟨numbersReadBack_of_preserved v h.1, numbersReadBackFields_of_preserved fields h.2⟩

end

mutual

/-- A printed value is the value again if there is room for what is nested in it, and none else. -/
theorem value?_written (v : Json) (h : ∀ n ∈ v.numbers, n.IsPreserved) (room : ℕ) :
    v.written.value? room = if v.depth ≤ room then some v else none := by
  cases v with
  | null | bool => simp [written, Written.value?, depth]
  | number n =>
    have hn := h n (List.mem_singleton_self n)
    simp [written, Written.value?, depth, hn.numeral.2]
  | string s => simp [written, Written.value?, depth, textOf?_writtenString]
  | array items =>
    rw [written, depth]
    cases room with
    | zero => simp [Written.value?]
    | succ room =>
      rw [Written.value?, itemValues?_written items h room]
      split <;> simp_all
  | object fields =>
    rw [written, depth]
    cases room with
    | zero => simp [Written.value?]
    | succ room =>
      rw [Written.value?, fieldValues?_written fields h room]
      split <;> simp_all

theorem itemValues?_written (items : List Json) (h : ∀ n ∈ numbersItems items, n.IsPreserved)
    (room : ℕ) : Written.itemValues? room (writtenItems items) =
      if depthItems items ≤ room then some items else none := by
  cases items with
  | nil => simp [writtenItems, Written.itemValues?, depthItems]
  | cons v items =>
    rw [numbersItems, List.forall_mem_append] at h
    rw [writtenItems, Written.itemValues?, value?_written v h.1, itemValues?_written items h.2]
    simp only [depthItems, Nat.max_le]
    by_cases hv : v.depth ≤ room <;> by_cases hitems : depthItems items ≤ room <;>
      simp [hv, hitems]

theorem fieldValues?_written (fields : List (String × Json))
    (h : ∀ n ∈ numbersFields fields, n.IsPreserved) (room : ℕ) :
    Written.fieldValues? room (writtenFields fields) =
      if depthFields fields ≤ room then some fields else none := by
  cases fields with
  | nil => simp [writtenFields, Written.fieldValues?, depthFields]
  | cons f fields =>
    obtain ⟨k, v⟩ := f
    rw [numbersFields, List.forall_mem_append] at h
    rw [writtenFields, Written.fieldValues?, value?_written v h.1, fieldValues?_written fields h.2,
      textOf?_writtenString]
    simp only [depthFields, Nat.max_le]
    by_cases hv : v.depth ≤ room <;> by_cases hfields : depthFields fields ≤ room <;>
      simp [hv, hfields]

end

/-- The text of a value is read as that value if no more than 127 containers are nested in it. -/
theorem exists_parse_text {v : Json} (h : ∀ n ∈ v.numbers, n.IsPreserved) (hdepth : v.depth ≤ 127) :
    ∃ w, Written.parse v.text = some w ∧ w.value? nestingLimit = some v :=
  ⟨v.written, Written.parse_text v (numbersReadBack_of_preserved v h),
    (value?_written v h nestingLimit).trans (if_pos hdepth)⟩

theorem eq_of_text_eq {v v' : Json} (h : ∀ n ∈ v.numbers, n.IsPreserved) (hdepth : v.depth ≤ 127)
    (h' : ∀ n ∈ v'.numbers, n.IsPreserved) (hdepth' : v'.depth ≤ 127) (htext : v.text = v'.text) :
    v = v' := by
  obtain ⟨w, hw, hv⟩ := exists_parse_text h hdepth
  obtain ⟨w', hw', hv'⟩ := exists_parse_text h' hdepth'
  rw [htext, hw'] at hw
  cases hw
  exact Option.some.inj (hv.symm.trans hv')

end Json

end NodeInventory
