import NodeInventory.Filter.Basic
import NodeInventory.Text

/-!
# Filters as text

`Filter.parse` reads texts such as `type=File&!(title~^/tmp|title~^/var)`: `&` binds tighter than
`|`, `!` negates what follows it, and parentheses group. Around a text and around the two words of a
comparison blanks are cut; the second word is percent-decoded.

* The parsers take what stands at the front of a text and leave a shorter rest; an operator counts
  only where the rest begins with it.
* `Fault` is what can be wrong with a text. It holds the rest of the text at the point in question,
  from which `Fault.message` tells the position in bytes.
-/

namespace NodeInventory

namespace Filter

open Text

/-! ### Words and signs -/

/-- The characters that end a word. -/
def isSpecial (c : Char) : Bool :=
  c = '&' || c = '|' || c = '!' || c = '(' || c = ')' || c = '=' || c = '<' || c = '>' || c = '~'

/-- The word at the front of a text, without the blanks around it. -/
def word (s : List Char) : List Char := trim (s.takeWhile fun c => !isSpecial c)

/-- The text after the word at its front. -/
def afterWord (s : List Char) : List Char := s.dropWhile fun c => !isSpecial c

/-- The sign at the front of a text, the longest possible, and the text after it. -/
def readSign : List Char → Option (Sign × List Char)
  | '!' :: '=' :: rest => some (.notEqual, rest)
  | '<' :: '=' :: rest => some (.lessOrEqual, rest)
  | '>' :: '=' :: rest => some (.greaterOrEqual, rest)
  | '=' :: rest => some (.equal, rest)
  | '<' :: rest => some (.less, rest)
  | '>' :: rest => some (.greater, rest)
  | '~' :: rest => some (.matching, rest)
  | _ => none

/-- The text after the closing parenthesis at its front. -/
def afterClosing? : List Char → Option (List Char)
  | ')' :: rest => some rest
  | _ => none

theorem length_afterWord_le (s : List Char) : (afterWord s).length ≤ s.length :=
  (List.dropWhile_suffix _).length_le

theorem length_lt_of_readSign {s rest : List Char} {sign : Sign}
    (h : readSign s = some (sign, rest)) : rest.length < s.length := by
  unfold readSign at h
  split at h <;> cases h <;> simp only [List.length_cons] <;> omega

theorem length_lt_of_afterClosing? {s rest : List Char} (h : afterClosing? s = some rest) :
    rest.length < s.length := by
  unfold afterClosing? at h
  split at h <;> cases h
  exact Nat.lt_succ_self _

/-! ### Faults -/

/-- What is wrong with a text; `rest` is what had not been read. -/
inductive Fault where
  /-- A filter ends before the text does. -/
  | unexpected (rest : List Char)
  /-- A parenthesis is not closed where the filter in it ends. -/
  | unclosed (rest : List Char)
  /-- A comparison begins without a column. -/
  | noColumn (rest : List Char)
  /-- No sign follows a column. -/
  | noSign (rest : List Char)
  /-- The value of a comparison decodes to bytes that are not UTF-8. -/
  | undecodable (raw : List Char) (fault : Utf8.Fault)
deriving DecidableEq, Repr

/-- The position in bytes at which `rest` begins in `input`. -/
def position (input rest : List Char) : Nat := Utf8.size input - Utf8.size rest

/-- The wording of a fault in a text. -/
def Fault.message (input : List Char) (fault : Fault) : String :=
  let text := String.ofList input
  let place (rest : List Char) : String := s!"at position {position input rest} in {text}"
  match fault with
  | .unexpected rest => "unexpected '" ++ String.ofList rest ++ "' " ++ place rest
  | .unclosed rest => "missing ')' " ++ place rest
  | .noColumn rest => "expected column " ++ place rest
  | .noSign rest => "expected comparison sign " ++ place rest
  | .undecodable raw fault =>
    "invalid percent-encoding in " ++ String.ofList raw ++ ": " ++ fault.message

/-! ### The grammar, from the front of a text -/

/-- What is left of `s` when at least one character has been read. -/
abbrev Rest (s : List Char) := { r : List Char // r.length < s.length }

/-- A column, a sign and a value. -/
def readComparison (s : List Char) : Except Fault (Filter × Rest s) :=
  if word s = [] then .error (.noColumn (afterWord s))
  else match h : readSign (afterWord s) with
    | none => .error (.noSign (afterWord s))
    | some (sign, t) =>
      match Percent.decode (word t) with
      | .error fault => .error (.undecodable (word t) fault)
      | .ok value =>
        .ok (.comparison sign (String.ofList (word s)) (.string (String.ofList value)),
          ⟨afterWord t, Nat.lt_of_le_of_lt (length_afterWord_le t)
            (Nat.lt_of_lt_of_le (length_lt_of_readSign h) (length_afterWord_le s))⟩)

/-- One filter stands for itself, several are joined. -/
def join (op : Connective) (f : Filter) : List Filter → Filter
  | [] => f
  | fs => .chain op (f :: fs)

mutual

/-- Conjunctions joined by `|`. -/
def readOr (s : List Char) : Except Fault (Filter × Rest s) :=
  match readAnd s with
  | .error fault => .error fault
  | .ok (f, ⟨t, ht⟩) =>
    match readMoreOr t with
    | .error fault => .error fault
    | .ok (fs, ⟨r, hr⟩) => .ok (join .or f fs, ⟨r, Nat.lt_of_le_of_lt hr ht⟩)
termination_by (s.length, 4)

/-- Any further conjunctions, each after a `|`. -/
def readMoreOr (s : List Char) :
    Except Fault (List Filter × { r : List Char // r.length ≤ s.length }) :=
  match s with
  | '|' :: t =>
    match readAnd t with
    | .error fault => .error fault
    | .ok (f, ⟨u, hu⟩) =>
      match readMoreOr u with
      | .error fault => .error fault
      | .ok (fs, ⟨r, hr⟩) =>
        .ok (f :: fs, ⟨r, Nat.le_succ_of_le (Nat.le_of_lt (Nat.lt_of_le_of_lt hr hu))⟩)
  | s => .ok ([], ⟨s, Nat.le_refl _⟩)
termination_by (s.length, 3)

/-- Terms joined by `&`. -/
def readAnd (s : List Char) : Except Fault (Filter × Rest s) :=
  match readTerm s with
  | .error fault => .error fault
  | .ok (f, ⟨t, ht⟩) =>
    match readMoreAnd t with
    | .error fault => .error fault
    | .ok (fs, ⟨r, hr⟩) => .ok (join .and f fs, ⟨r, Nat.lt_of_le_of_lt hr ht⟩)
termination_by (s.length, 2)

/-- Any further terms, each after a `&`. -/
def readMoreAnd (s : List Char) :
    Except Fault (List Filter × { r : List Char // r.length ≤ s.length }) :=
  match s with
  | '&' :: t =>
    match readTerm t with
    | .error fault => .error fault
    | .ok (f, ⟨u, hu⟩) =>
      match readMoreAnd u with
      | .error fault => .error fault
      | .ok (fs, ⟨r, hr⟩) =>
        .ok (f :: fs, ⟨r, Nat.le_succ_of_le (Nat.le_of_lt (Nat.lt_of_le_of_lt hr hu))⟩)
  | s => .ok ([], ⟨s, Nat.le_refl _⟩)
termination_by (s.length, 1)

/-- A negated term, a filter in parentheses, or a comparison. -/
def readTerm (s : List Char) : Except Fault (Filter × Rest s) :=
  match s with
  | '!' :: t =>
    match readTerm t with
    | .error fault => .error fault
    | .ok (f, ⟨r, hr⟩) => .ok (f.negate, ⟨r, Nat.lt_succ_of_lt hr⟩)
  | '(' :: t =>
    match readOr t with
    | .error fault => .error fault
    | .ok (f, ⟨u, hu⟩) =>
      match hc : afterClosing? u with
      | some r => .ok (f, ⟨r, Nat.lt_succ_of_lt (Nat.lt_trans (length_lt_of_afterClosing? hc) hu)⟩)
      | none => .error (.unclosed u)
  | s => readComparison s
termination_by (s.length, 0)

end

/-- The filter that a text without blanks at its ends writes. -/
def readAll (input : List Char) : Except Fault Filter :=
  match readOr input with
  | .error fault => .error fault
  | .ok (f, ⟨[], _⟩) => .ok f
  | .ok (_, ⟨rest, _⟩) => .error (.unexpected rest)

/-- The filter that a text writes. -/
def parse (s : String) : Except QueryError Filter :=
  let input := trim s.toList
  match readAll input with
  | .ok f => .ok f
  | .error fault => .error (.unreadableFilter (fault.message input))

end Filter

end NodeInventory
