import NodeInventory.Json.Double
import NodeInventory.Text

/-!
# TOML values

The values of TOML texts (`Value`), what dotted keys and headers do to tables, and the words that
stand for numbers, dates and truth values (`scalar?`).
-/

namespace NodeInventory

/-!
## Tables and their entries

A `Value` is what stands behind a key of a TOML text. Tables keep their entries in the order in
which they were first mentioned, and remember how they were written, because that decides what may
still be added to them.

* `assign` puts a value under a dotted key.
* `descend` goes to the table that a header names; `openTable` and `openElement` are what the two
  kinds of header do there.

All of them fail where the text says a thing twice or goes through a value that is no table.
-/

namespace Toml

/-- How a table was written. -/
inductive Origin where
  /-- In braces: it is complete. -/
  | closed
  /-- Under a header of its own. -/
  | header
  /-- Only as a part of the headers of other tables. -/
  | implied
  /-- As a part of dotted keys. -/
  | dotted
deriving DecidableEq, Repr

/-- A TOML value. Floating-point numbers, dates and times are kept as they are written. -/
inductive Value where
  | string (s : String)
  | integer (n : Int)
  | boolean (b : Bool)
  | float (written : String)
  | moment (written : String)
  | array (items : List Value)
  | table (origin : Origin) (entries : List (String × Value))
  /-- Tables under headers in double brackets. -/
  | tables (elements : List (List (String × Value)))
deriving Inhabited

/-- The entries of a table. -/
abbrev Entries := List (String × Value)

/-- A key with dots: its first part and the others. -/
structure Key where
  first : String
  more : List String
deriving DecidableEq, Repr

/-- The parts of a key. -/
def Key.parts (k : Key) : List String := k.first :: k.more

namespace Entries

/-- The value of a key. -/
def find? (key : String) : Entries → Option Value
  | [] => none
  | (k, v) :: entries => if k = key then some v else find? key entries

/-- Changes the value of a key in its place; a new key comes last. -/
def alter (key : String) (f : Option Value → Option Value) : Entries → Option Entries
  | [] => (f none).map fun v => [(key, v)]
  | (k, v) :: entries =>
    if k = key then (f (some v)).map fun w => (k, w) :: entries
    else (alter key f entries).map ((k, v) :: ·)

/-- The entries without that of a key. -/
def erase (key : String) (entries : Entries) : Entries := entries.filter fun e => e.1 ≠ key

end Entries

/-- Changes the last element. -/
def onLast (f : Entries → Option Entries) : List Entries → Option (List Entries)
  | [] => none
  | [last] => (f last).map fun last => [last]
  | element :: elements => (onLast f elements).map (element :: ·)

/-! ### Dotted keys -/

/-- Puts a value under a key whose parts are `key` and `more`. The tables on the way are made, or
are there from other dotted keys; others are only passed through, so that the value itself comes
into a table of dotted keys. -/
def assign (v : Value) (key : String) : List String → Entries → Option Entries
  | [], entries => if (entries.find? key).isSome then none else some (entries ++ [(key, v)])
  | next :: more, entries =>
    entries.alter key fun
      | none => (assign v next more []).map (.table .dotted ·)
      | some (.table .dotted inner) => (assign v next more inner).map (.table .dotted ·)
      | some (.table .implied inner) =>
        if more = [] then none else (assign v next more inner).map (.table .implied ·)
      | some (.tables elements) =>
        if more = [] then none else (onLast (assign v next more) elements).map .tables
      | some _ => none

/-- Puts a value under a key. -/
def Entries.assign (entries : Entries) (key : Key) (v : Value) : Option Entries :=
  Toml.assign v key.first key.more entries

/-- The entries that keys and values make. -/
def Entries.ofPairs? (pairs : List (Key × Value)) : Option Entries :=
  pairs.foldlM (fun entries (key, v) => entries.assign key v) []

/-! ### Headers -/

/-- Changes the entries of the table at the end of a path. A table on the way is made if it is not
there, and of an array of tables the last one is meant. -/
def descend (f : Entries → Option Entries) : List String → Entries → Option Entries
  | [], entries => f entries
  | key :: path, entries =>
    entries.alter key fun
      | none => (descend f path []).map (.table .implied ·)
      | some (.table .closed _) => none
      | some (.table origin inner) => (descend f path inner).map (.table origin ·)
      | some (.tables elements) => (onLast (descend f path) elements).map .tables
      | some _ => none

/-- Begins a table; it may be there as an implied one, which comes last now. -/
def openTable (key : String) (entries : Entries) : Option Entries :=
  match entries.find? key with
  | none => some (entries ++ [(key, .table .header [])])
  | some (.table .implied inner) => some (entries.erase key ++ [(key, .table .header inner)])
  | some _ => none

/-- Begins a further element of an array of tables. -/
def openElement (key : String) (entries : Entries) : Option Entries :=
  entries.alter key fun
    | none => some (.tables [[]])
    | some (.tables elements) => some (.tables (elements ++ [[]]))
    | some _ => none

end Toml

/-!
## Numbers, dates and truth values in TOML

`scalar?` is the value of a word without quotes, such as `0x1F90`, `-1.5e3`, `true` or
`1979-05-27T07:32:00Z`.

* Underscores may stand between digits. A decimal number has no leading zeros, an integer fits 64
  bits with a sign, and a positive floating-point number must not be too large for a double.
* Dates are those of the calendar; a minute may have a second numbered 60.
-/

namespace Toml

/-- A character that words consist of. -/
def isWordChar (c : Char) : Bool :=
  c.isAlphanum || c = '_' || c = '+' || c = '-' || c = '.' || c = ':'

/-! ### Numbers -/

/-- Digits of some kind without the underscores between them. -/
def ungroup? (isDigit : Char → Bool) : List Char → Option (List Char)
  | [] => none
  | [c] => if isDigit c then some [c] else none
  | c :: '_' :: s => if isDigit c then (ungroup? isDigit s).map (c :: ·) else none
  | c :: d :: s => if isDigit c then (ungroup? isDigit (d :: s)).map (c :: ·) else none

/-- The number that digits spell to a base. -/
def digitsToNat (base : Nat) (ds : List Char) : Nat :=
  ds.foldl (fun n d => n * base + (Text.Percent.hexValue? d).getD 0) 0

/-- A digit to a base of at most sixteen. -/
def isDigitTo (base : Nat) (c : Char) : Bool :=
  match Text.Percent.hexValue? c with
  | some d => d < base
  | none => false

/-- The natural number that grouped digits spell to a base. -/
def natural? (base : Nat) (s : List Char) : Option Nat :=
  (ungroup? (isDigitTo base) s).map (digitsToNat base)

/-- A sign that may stand at the front: whether it is a minus, and the text after it. -/
def signed : List Char → Bool × List Char
  | '+' :: s => (false, s)
  | '-' :: s => (true, s)
  | s => (false, s)

/-- The digits of a decimal number before the point: a zero stands alone. -/
def wholeDigits? (s : List Char) : Option (List Char) :=
  match ungroup? Char.isDigit s with
  | some ('0' :: _ :: _) => none
  | ds => ds

/-- The integer that a word spells. -/
def integer? (word : List Char) : Option Int :=
  match word with
  | '0' :: 'x' :: s => fits false (natural? 16 s)
  | '0' :: 'o' :: s => fits false (natural? 8 s)
  | '0' :: 'b' :: s => fits false (natural? 2 s)
  | _ =>
    let (negative, s) := signed word
    fits negative ((wholeDigits? s).map (digitsToNat 10))
where
  /-- The integer of a sign and a magnitude, if it fits 64 bits. -/
  fits (negative : Bool) (n? : Option Nat) : Option Int := do
    let n ← n?
    if negative then if n ≤ Nat.pow 2 63 then some (-n) else none
    else if n < Nat.pow 2 63 then some n else none

/-- A mark of an exponent. -/
def isExponentMark (c : Char) : Bool := c = 'e' || c = 'E'

/-- The digits of a fraction, if there is a point at the front of the text. -/
def fractionDigits? : List Char → Option (List Char)
  | [] => some []
  | '.' :: s => ungroup? Char.isDigit s
  | _ => none

/-- The exponent, if there is a mark at the front of the text. -/
def exponent? : List Char → Option Int
  | [] => some 0
  | _ :: s =>
    let (negative, s) := signed s
    (ungroup? Char.isDigit s).map fun ds =>
      if negative then -(digitsToNat 10 ds : Int) else digitsToNat 10 ds

/-- The word is a number with a fraction, an exponent or both, and not too large. -/
def isDecimal (word : List Char) : Bool :=
  let (negative, s) := signed word
  let coefficient := s.takeWhile fun c => !isExponentMark c
  let tail := s.dropWhile fun c => !isExponentMark c
  let whole := coefficient.takeWhile (· ≠ '.')
  let fraction := coefficient.dropWhile (· ≠ '.')
  match wholeDigits? whole, fractionDigits? fraction, exponent? tail with
  | some ws, some fs, some e =>
    !(fraction.isEmpty && tail.isEmpty) &&
      (negative ||
        (Double.ofDecimal false (digitsToNat 10 (ws ++ fs)) (e - fs.length)).isSome)
  | _, _, _ => false

/-- The word is infinity or not a number, with or without a sign. -/
def isSpecialFloat (word : List Char) : Bool :=
  let s := (signed word).2
  s = ['i', 'n', 'f'] || s = ['n', 'a', 'n']

/-! ### Dates and times -/

/-- The number of two digits, if it lies in a range. -/
def two? (low high : Nat) (a b : Char) : Option Nat :=
  if a.isDigit && b.isDigit then
    let n := digitsToNat 10 [a, b]
    if low ≤ n ∧ n ≤ high then some n else none
  else none

/-- The number of days in a month. -/
def daysIn (year month : Nat) : Nat :=
  if month = 2 then
    if year % 4 = 0 ∧ (year % 100 ≠ 0 ∨ year % 400 = 0) then 29 else 28
  else if month = 4 ∨ month = 6 ∨ month = 9 ∨ month = 11 then 30
  else 31

/-- The text after the date at its front. -/
def afterDate? : List Char → Option (List Char)
  | y1 :: y2 :: y3 :: y4 :: '-' :: m1 :: m2 :: '-' :: d1 :: d2 :: rest => do
    let century ← two? 0 99 y1 y2
    let year ← two? 0 99 y3 y4
    let month ← two? 1 12 m1 m2
    let _ ← two? 1 (daysIn (century * 100 + year) month) d1 d2
    return rest
  | _ => none

/-- The text after the time of day at its front. -/
def afterTime? : List Char → Option (List Char)
  | h1 :: h2 :: ':' :: m1 :: m2 :: ':' :: s1 :: s2 :: rest => do
    let _ ← two? 0 23 h1 h2
    let _ ← two? 0 59 m1 m2
    let _ ← two? 0 60 s1 s2
    match rest with
    | '.' :: c :: s => if c.isDigit then some (s.dropWhile Char.isDigit) else none
    | rest => some rest
  | _ => none

/-- The text says how far local time is from universal time, or nothing. -/
def isOffset : List Char → Bool
  | [] | ['Z'] | ['z'] => true
  | [sign, h1, h2, ':', m1, m2] =>
    (sign = '+' || sign = '-') && (two? 0 23 h1 h2).isSome && (two? 0 59 m1 m2).isSome
  | _ => false

/-- The text is a date. -/
def isDate (s : List Char) : Bool := afterDate? s = some []

/-- The text is a time of day with or without an offset. -/
def isTimeWithOffset (s : List Char) : Bool :=
  match afterTime? s with
  | some rest => isOffset rest
  | none => false

/-- The text is a date, a time of day, or a date, a `T` and a time of day. -/
def isMoment (s : List Char) : Bool :=
  isDate s || afterTime? s = some [] ||
    match afterDate? s with
    | some (c :: time) => (c = 'T' || c = 't') && isTimeWithOffset time
    | _ => false

/-! ### Words -/

/-- The value of a word. -/
def scalar? (word : List Char) : Option Value :=
  if word = ['t', 'r', 'u', 'e'] then some (.boolean true)
  else if word = ['f', 'a', 'l', 's', 'e'] then some (.boolean false)
  else match integer? word with
    | some n => some (.integer n)
    | none =>
      if isDecimal word || isSpecialFloat word then some (.float (String.ofList word))
      else if isMoment word then some (.moment (String.ofList word))
      else none

/-- A value without quotes or brackets at the front of a text. A date and a time of day may have one
space between them. -/
def readScalar (s : List Char) : Option (Value × List Char) :=
  let word := s.takeWhile isWordChar
  let rest := s.dropWhile isWordChar
  let time := rest.tail.takeWhile isWordChar
  if isDate word && rest.head? = some ' ' && isTimeWithOffset time then
    some (.moment (String.ofList (word ++ ' ' :: time)), rest.tail.dropWhile isWordChar)
  else if word = [] then none
  else (scalar? word).map (·, rest)

theorem length_lt_of_readScalar {s rest : List Char} {v : Value}
    (h : readScalar s = some (v, rest)) : rest.length < s.length := by
  have hs := congrArg List.length (List.takeWhile_append_dropWhile (p := isWordChar) (l := s))
  rw [List.length_append] at hs
  simp only [readScalar] at h
  split at h
  · rename_i hd
    simp only [Option.some.injEq, Prod.mk.injEq] at h
    have ht := (List.dropWhile_suffix (l := (s.dropWhile isWordChar).tail) isWordChar).length_le
    have hne : s.dropWhile isWordChar ≠ [] := by
      intro hnil
      simp [hnil] at hd
    have := List.length_pos_iff.2 hne
    rw [List.length_tail, h.2] at ht
    omega
  · split at h
    · cases h
    · rename_i hne
      obtain ⟨v', -, he⟩ := Option.map_eq_some_iff.1 h
      simp only [Prod.mk.injEq] at he
      have := List.length_pos_iff.2 hne
      rw [← he.2]
      omega

end Toml

end NodeInventory
