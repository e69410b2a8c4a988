import NodeInventory.Json.Basic
import NodeInventory.Text

/-!
# JSON as it is written

The grammar of JSON texts, apart from the meaning of their parts.

* `Written` is a value as it stands in a text: strings as characters and `\u` units, numbers as
  digits.
* `readPieces`, `readNumeral` and `readScalar` take a string's content, a number or a value without
  parts from the front of a text, and leave a shorter rest.
* `pieceText?` is the text of a string, whose surrogates have to pair; `Numeral.value?` the value of
  a number, which has to be in range.
-/

namespace NodeInventory

namespace Json

/-- A part of a string: a character, written as itself or by a letter, or a UTF-16 unit. -/
inductive Piece where
  | char (c : Char)
  | unit (u : Nat)
deriving DecidableEq, Repr

/-- A number as it is written; the exponent is its sign and its digits. -/
structure Numeral where
  negative : Bool
  whole : List Char
  fraction : Option (List Char)
  exponent : Option (Bool × List Char)
deriving DecidableEq, Repr

/-- A JSON value as it is written. -/
inductive Written where
  | null
  | bool (b : Bool)
  | number (n : Numeral)
  | string (pieces : List Piece)
  | array (items : List Written)
  | object (fields : List (List Piece × Written))
deriving Inhabited

/-! ### Strings -/

/-- The number that four hexadecimal digits spell. -/
def hex4? (a b c d : Char) : Option Nat :=
  match Text.Percent.hexValue? a, Text.Percent.hexValue? b, Text.Percent.hexValue? c,
      Text.Percent.hexValue? d with
  | some a, some b, some c, some d => some (((a * 16 + b) * 16 + c) * 16 + d)
  | _, _, _, _ => none

/-- The character that a letter after a backslash stands for. -/
def escape? : Char → Option Char
  | '"' => some '"'
  | '\\' => some '\\'
  | '/' => some '/'
  | 'b' => some '\x08'
  | 'f' => some '\x0c'
  | 'n' => some '\n'
  | 'r' => some '\r'
  | 't' => some '\t'
  | _ => none

/-- The pieces up to the closing quote, and the text after it. -/
def readPieces : List Char → Option (List Piece × List Char)
  | [] => none
  | '"' :: rest => some ([], rest)
  | '\\' :: 'u' :: a :: b :: c :: d :: rest =>
    match hex4? a b c d, readPieces rest with
    | some u, some (pieces, rest) => some (.unit u :: pieces, rest)
    | _, _ => none
  | '\\' :: e :: rest =>
    match escape? e, readPieces rest with
    | some c, some (pieces, rest) => some (.char c :: pieces, rest)
    | _, _ => none
  | c :: rest =>
    if c < ' ' ∨ c = '\\' then none
    else match readPieces rest with
      | some (pieces, rest) => some (.char c :: pieces, rest)
      | none => none

/-- The text of a string: a unit of the upper surrogate half joins the unit of the lower half that
follows it, and neither stands alone. -/
def pieceText? : List Piece → Option (List Char)
  | [] => some []
  | .char c :: pieces => (pieceText? pieces).map (c :: ·)
  | .unit u :: pieces =>
    if u < 0xD800 ∨ 0xE000 ≤ u then (pieceText? pieces).map (Char.ofNat u :: ·)
    else match pieces with
      | .unit v :: pieces =>
        if u < 0xDC00 ∧ 0xDC00 ≤ v ∧ v < 0xE000 then
          (pieceText? pieces).map (Char.ofNat (0x10000 + (u - 0xD800) * 0x400 + (v - 0xDC00)) :: ·)
        else none
      | _ => none

/-! ### Numbers -/

/-- The number that decimal digits spell. -/
def digitsValue (ds : List Char) : Nat := Nat.ofDigitChars 10 ds 0

/-- At least one digit, and the text after the last one. -/
def readDigits (s : List Char) : Option (List Char × List Char) :=
  if s.takeWhile Char.isDigit = [] then none
  else some (s.takeWhile Char.isDigit, s.dropWhile Char.isDigit)

/-- The digits before the point; a zero stands alone. -/
def readWhole : List Char → Option (List Char × List Char)
  | '0' :: rest => some (['0'], rest)
  | s => readDigits s

/-- The digits after a point, if there is a point. -/
def readFraction : List Char → Option (Option (List Char) × List Char)
  | '.' :: rest => (readDigits rest).map fun (ds, rest) => (some ds, rest)
  | s => some (none, s)

/-- The sign and the digits of an exponent, if there is an `e`. -/
def readExponent : List Char → Option (Option (Bool × List Char) × List Char)
  | c :: rest =>
    if c = 'e' ∨ c = 'E' then
      let (negative, rest) := match rest with
        | '-' :: rest => (true, rest)
        | '+' :: rest => (false, rest)
        | rest => (false, rest)
      (readDigits rest).map fun (ds, rest) => (some (negative, ds), rest)
    else some (none, c :: rest)
  | [] => some (none, [])

/-- A number at the front of a text. -/
def readNumeral (s : List Char) : Option (Numeral × List Char) := do
  let (negative, s) := match s with
    | '-' :: rest => (true, rest)
    | s => (false, s)
  let (whole, s) ← readWhole s
  let (fraction, s) ← readFraction s
  let (exponent, s) ← readExponent s
  return (⟨negative, whole, fraction, exponent⟩, s)

/-- Digits are put behind a number as long as it stays below `2 ^ 64`; the number, and how many of
them are left. -/
def takeDigits (n : Nat) : List Char → Nat × Nat
  | [] => (n, 0)
  | c :: ds =>
    let m := Nat.ofDigitChars 10 [c] n
    if m < Nat.pow 2 64 then takeDigits m ds else (n, ds.length + 1)

/-- A number as a significand below `2 ^ 64` and a scale. The digits that have no place in the
significand count as zeros if they stand before the point, and are left out behind it. -/
def Numeral.scientific (n : Numeral) : Nat × Int :=
  let fraction := n.fraction.getD []
  let whole := takeDigits 0 n.whole
  let all := takeDigits whole.1 fraction
  let exponent : Int := match n.exponent with
    | none => 0
    | some (true, ds) => -(digitsValue ds : Int)
    | some (false, ds) => digitsValue ds
  (all.1, exponent + whole.2 - (fraction.length - all.2 : Nat))

/-- The value of a number. Digits alone make an integer if it lies between `-2 ^ 63` and
`2 ^ 64 - 1` and is not a negative zero; all else is a double, which has to be finite. -/
def Numeral.value? (n : Numeral) : Option Number :=
  let digits := digitsValue n.whole
  let isInteger := n.fraction.isNone && n.exponent.isNone &&
    (if n.negative then 0 < digits && digits ≤ Nat.pow 2 63 else digits < Nat.pow 2 64)
  if isInteger then some (.integer (if n.negative then -digits else digits))
  else (Double.ofScientific n.negative n.scientific.1 n.scientific.2).map .double

/-! ### Blanks and words -/

/-- The blanks between the parts of a text. -/
def isSpace (c : Char) : Bool := c = ' ' || c = '\t' || c = '\n' || c = '\r'

/-- A text without its leading blanks. -/
def skipSpace (s : List Char) : List Char := s.dropWhile isSpace

/-- The text after a word that it begins with. -/
def afterWord? : (word s : List Char) → Option (List Char)
  | [], s => some s
  | _ :: _, [] => none
  | w :: word, c :: s => if w = c then afterWord? word s else none

/-- A value that is neither a string nor a container, at the front of a text. -/
def readScalar (s : List Char) : Option (Written × List Char) :=
  match afterWord? ['n', 'u', 'l', 'l'] s, afterWord? ['t', 'r', 'u', 'e'] s,
      afterWord? ['f', 'a', 'l', 's', 'e'] s with
  | some rest, _, _ => some (.null, rest)
  | _, some rest, _ => some (.bool true, rest)
  | _, _, some rest => some (.bool false, rest)
  | _, _, _ => (readNumeral s).map fun (n, rest) => (.number n, rest)

/-! ### Every step makes the rest shorter -/

theorem length_skipSpace_le (s : List Char) : (skipSpace s).length ≤ s.length :=
  (List.dropWhile_suffix _).length_le

theorem length_lt_of_skipSpace {s rest : List Char} {c : Char} (h : skipSpace s = c :: rest) :
    rest.length < s.length := by
  have := length_skipSpace_le s
  rw [h, List.length_cons] at this
  omega

theorem length_lt_of_readPieces {s rest : List Char} {pieces : List Piece}
    (h : readPieces s = some (pieces, rest)) : rest.length < s.length := by
  fun_induction readPieces s generalizing pieces rest with
  | case1 | case4 | case6 | case7 | case9 => simp at h
  | case2 r => simp_all
  | case3 | case5 | case8 =>
    rename_i ih
    simp only [Option.some.injEq, Prod.mk.injEq] at h
    have := ih ‹_›
    simp only [List.length_cons, ← h.2]
    omega

theorem length_lt_of_readDigits {s rest ds : List Char} (h : readDigits s = some (ds, rest)) :
    rest.length < s.length := by
  unfold readDigits at h
  split at h
  · cases h
  · rename_i hne
    simp only [Option.some.injEq, Prod.mk.injEq] at h
    have hs := congrArg List.length (List.takeWhile_append_dropWhile (p := Char.isDigit) (l := s))
    rw [List.length_append, h.2] at hs
    have := List.length_pos_iff.2 hne
    omega

theorem length_lt_of_readWhole {s rest ds : List Char} (h : readWhole s = some (ds, rest)) :
    rest.length < s.length := by
  unfold readWhole at h
  split at h
  · simp only [Option.some.injEq, Prod.mk.injEq] at h
    simp [h.2]
  · exact length_lt_of_readDigits h

theorem length_le_of_readFraction {s rest : List Char} {ds : Option (List Char)}
    (h : readFraction s = some (ds, rest)) : rest.length ≤ s.length := by
  unfold readFraction at h
  split at h
  · obtain ⟨⟨ds', rest'⟩, hd, he⟩ := Option.map_eq_some_iff.1 h
    have := length_lt_of_readDigits hd
    simp only [Prod.mk.injEq] at he
    simp only [List.length_cons, ← he.2]
    omega
  · simp_all

theorem length_le_of_readExponent {s rest : List Char} {e : Option (Bool × List Char)}
    (h : readExponent s = some (e, rest)) : rest.length ≤ s.length := by
  unfold readExponent at h
  split at h
  · rename_i c r
    split at h
    · obtain ⟨⟨ds, rest'⟩, hd, he⟩ := Option.map_eq_some_iff.1 h
      have := length_lt_of_readDigits hd
      simp only [Prod.mk.injEq] at he
      rw [← he.2]
      split at this <;> simp_all <;> omega
    · simp_all
  · simp_all

theorem length_lt_of_readNumeral {s rest : List Char} {n : Numeral}
    (h : readNumeral s = some (n, rest)) : rest.length < s.length := by
  simp only [readNumeral, Option.bind_eq_bind, Option.bind_eq_some_iff, Option.pure_def,
    Option.some.injEq, Prod.mk.injEq, Prod.exists] at h
  obtain ⟨w, r₁, hw, f, r₂, hf, e, r₃, he, -, rfl⟩ := h
  have h1 := length_lt_of_readWhole hw
  have h2 := length_le_of_readFraction hf
  have h3 := length_le_of_readExponent he
  split at h1 <;> simp only [List.length_cons] at h1 ⊢ <;> omega

theorem length_of_afterWord? {word s rest : List Char} (h : afterWord? word s = some rest) :
    s.length = word.length + rest.length := by
  induction word generalizing s with
  | nil => simp_all [afterWord?]
  | cons w word ih =>
    cases s with
    | nil => simp [afterWord?] at h
    | cons c s =>
      rw [afterWord?] at h
      split at h
      · have := ih h
        simp only [List.length_cons]
        omega
      · cases h

theorem length_lt_of_readScalar {s rest : List Char} {v : Written}
    (h : readScalar s = some (v, rest)) : rest.length < s.length := by
  unfold readScalar at h
  split at h
  iterate 3
    have := length_of_afterWord? ‹afterWord? _ s = some _›
    simp_all
  obtain ⟨⟨n, r⟩, hn, he⟩ := Option.map_eq_some_iff.1 h
  simp only [Prod.mk.injEq] at he
  exact he.2 ▸ length_lt_of_readNumeral hn

end Json

end NodeInventory
