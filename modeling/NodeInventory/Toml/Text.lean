import NodeInventory.Text

/-!
# Blanks, comments and strings in TOML

Every reader takes what stands at the front of a text and leaves the rest.

* `endLine?` takes what may stand behind a statement: a comment, and the end of the line.
* `skipFiller` skips what may stand between the items of an array.
* `readQuoted` reads a string of one line, `readString` one of the four forms of strings. Line
  ends in a string are read as line feeds.
-/

namespace NodeInventory

namespace Toml

/-- A blank within a line. -/
def isBlank (c : Char) : Bool := c = ' ' || c = '\t'

/-- A text without its leading blanks. -/
def skipBlank (s : List Char) : List Char := s.dropWhile isBlank

/-- The text after the line end at its front. -/
def afterNewline? : List Char → Option (List Char)
  | '\n' :: s => some s
  | '\r' :: '\n' :: s => some s
  | _ => none

/-- A character that is no control character other than the tab. -/
def isPlain (c : Char) : Bool := c = '\t' || (' ' ≤ c && c ≠ '\x7f')

/-- The text after a comment that may stand at its front. -/
def skipComment : List Char → List Char
  | '#' :: s => s.dropWhile isPlain
  | s => s

/-- The text of the next line, if this one holds nothing but blanks and a comment. -/
def endLine? (s : List Char) : Option (List Char) :=
  match skipComment (skipBlank s) with
  | [] => some []
  | rest => afterNewline? rest

theorem length_skipBlank_le (s : List Char) : (skipBlank s).length ≤ s.length :=
  (List.dropWhile_suffix _).length_le

theorem length_le_of_skipBlank {s rest : List Char} (h : skipBlank s = rest) :
    rest.length ≤ s.length := by
  rw [← h]
  exact length_skipBlank_le s

theorem length_lt_of_skipBlank {s rest : List Char} {c : Char} (h : skipBlank s = c :: rest) :
    rest.length < s.length := by
  have := length_skipBlank_le s
  rwa [h] at this

theorem length_lt_of_afterNewline? {s rest : List Char} (h : afterNewline? s = some rest) :
    rest.length < s.length := by
  unfold afterNewline? at h
  split at h <;> cases h <;> simp only [List.length_cons] <;> omega

theorem length_skipComment_le (s : List Char) : (skipComment s).length ≤ s.length := by
  unfold skipComment
  split
  · exact Nat.le_succ_of_le (List.dropWhile_suffix _).length_le
  · exact Nat.le_refl _

theorem length_le_of_endLine? {s rest : List Char} (h : endLine? s = some rest) :
    rest.length ≤ s.length := by
  have h1 := length_skipBlank_le s
  have h2 := length_skipComment_le (skipBlank s)
  unfold endLine? at h
  split at h
  · cases h
    exact Nat.zero_le _
  · have := length_lt_of_afterNewline? h
    omega

theorem length_lt_of_endLine? {s rest : List Char} (h : endLine? s = some rest) (hs : s ≠ []) :
    rest.length < s.length := by
  have h1 := length_skipBlank_le s
  have h2 := length_skipComment_le (skipBlank s)
  unfold endLine? at h
  split at h
  · cases h
    exact List.length_pos_iff.2 hs
  · have := length_lt_of_afterNewline? h
    omega

/-- The text after blanks, line ends and comments. -/
def skipFiller (s : List Char) : List Char :=
  match s with
  | [] => []
  | c :: t =>
    if isBlank c then skipFiller t
    else if c = '#' then skipFiller (t.dropWhile isPlain)
    else match _h : afterNewline? (c :: t) with
      | some rest => skipFiller rest
      | none => c :: t
termination_by s.length
decreasing_by
  · simp
  · exact Nat.lt_succ_of_le (List.dropWhile_suffix _).length_le
  · exact length_lt_of_afterNewline? _h

theorem length_skipFiller_le (s : List Char) : (skipFiller s).length ≤ s.length := by
  fun_induction skipFiller s with
  | case1 => exact Nat.le_refl _
  | case2 c t _ ih => exact Nat.le_succ_of_le ih
  | case3 t _ ih =>
    exact Nat.le_succ_of_le (Nat.le_trans ih (List.dropWhile_suffix _).length_le)
  | case4 =>
    rename_i h ih
    exact Nat.le_trans ih (Nat.le_of_lt (length_lt_of_afterNewline? h))
  | case5 => exact Nat.le_refl _

theorem length_le_of_skipFiller {s rest : List Char} (h : skipFiller s = rest) :
    rest.length ≤ s.length := by
  rw [← h]
  exact length_skipFiller_le s

theorem length_lt_of_skipFiller {s rest : List Char} {c : Char} (h : skipFiller s = c :: rest) :
    rest.length < s.length := by
  have := length_skipFiller_le s
  rwa [h] at this

/-! ### Escapes -/

/-- The character with a number, if it is one. -/
def charOf? (n : Nat) : Option Char := if n.isValidChar then some (Char.ofNat n) else none

/-- The character that so many hexadecimal digits stand for, and the text after them. -/
def readCode (digits : Nat) (s : List Char) : Option (Char × List Char) := do
  let values ← (s.take digits).mapM Text.Percent.hexValue?
  if values.length = digits then
    let c ← charOf? (values.foldl (fun n d => n * 16 + d) 0)
    return (c, s.drop digits)
  else none

/-- The character that a letter after a backslash stands for. -/
def escape? : Char → Option Char
  | 'b' => some '\x08'
  | 't' => some '\t'
  | 'n' => some '\n'
  | 'f' => some '\x0c'
  | 'r' => some '\r'
  | '"' => some '"'
  | '\\' => some '\\'
  | _ => none

/-- The character that the text after a backslash stands for. -/
def readEscape : List Char → Option (Char × List Char)
  | 'u' :: s => readCode 4 s
  | 'U' :: s => readCode 8 s
  | e :: s => (escape? e).map (·, s)
  | [] => none

theorem length_le_of_readCode {n : Nat} {s rest : List Char} {c : Char}
    (h : readCode n s = some (c, rest)) : rest.length ≤ s.length := by
  simp only [readCode, Option.bind_eq_bind, Option.bind_eq_some_iff, Option.pure_def] at h
  obtain ⟨values, -, h⟩ := h
  split at h
  · simp only [Option.bind_eq_some_iff, Option.some.injEq, Prod.mk.injEq] at h
    obtain ⟨c, -, -, rfl⟩ := h
    simp
  · cases h

theorem length_lt_of_readEscape {s rest : List Char} {c : Char}
    (h : readEscape s = some (c, rest)) : rest.length < s.length := by
  unfold readEscape at h
  split at h
  · exact Nat.lt_succ_of_le (length_le_of_readCode h)
  · exact Nat.lt_succ_of_le (length_le_of_readCode h)
  · simp only [Option.map_eq_some_iff, Prod.mk.injEq] at h
    obtain ⟨c, -, -, rfl⟩ := h
    simp
  · cases h

/-! ### Strings of one line -/

/-- The apostrophe, which encloses strings without escapes. -/
def apostrophe : Char := '\x27'

/-- The text up to the closing quote, escapes undone, and the text after it. -/
def readBasic (s : List Char) : Option (List Char × List Char) :=
  match s with
  | [] => none
  | c :: t =>
    if c = '"' then some ([], t)
    else if c = '\\' then
      match _h : readEscape t with
      | none => none
      | some (e, rest) => (readBasic rest).map fun (cs, rest) => (e :: cs, rest)
    else if isPlain c then (readBasic t).map fun (cs, rest) => (c :: cs, rest)
    else none
termination_by s.length
decreasing_by
  · exact Nat.lt_succ_of_lt (length_lt_of_readEscape _h)
  · simp

/-- The text up to the closing apostrophe, and the text after it. -/
def readLiteral : List Char → Option (List Char × List Char)
  | [] => none
  | c :: s =>
    if c = apostrophe then some ([], s)
    else if isPlain c then (readLiteral s).map fun (cs, rest) => (c :: cs, rest)
    else none

/-- A string of one line. -/
def readQuoted : List Char → Option (List Char × List Char)
  | [] => none
  | c :: s =>
    if c = '"' then readBasic s else if c = apostrophe then readLiteral s else none

theorem length_lt_of_readBasic {s rest cs : List Char} (h : readBasic s = some (cs, rest)) :
    rest.length < s.length := by
  fun_induction readBasic s generalizing cs rest with
  | case1 | case3 | case6 => simp at h
  | case2 t => simp_all
  | case4 =>
    rename_i ih
    obtain ⟨⟨cs', rest'⟩, hr, hp⟩ := Option.map_eq_some_iff.1 h
    simp only [Prod.mk.injEq] at hp
    have := ih hr
    have := length_lt_of_readEscape ‹readEscape _ = some _›
    simp only [List.length_cons, ← hp.2]
    omega
  | case5 =>
    rename_i ih
    obtain ⟨⟨cs', rest'⟩, hr, hp⟩ := Option.map_eq_some_iff.1 h
    simp only [Prod.mk.injEq] at hp
    have := ih hr
    simp only [List.length_cons, ← hp.2]
    omega

theorem length_lt_of_readLiteral {s rest cs : List Char} (h : readLiteral s = some (cs, rest)) :
    rest.length < s.length := by
  induction s generalizing cs rest with
  | nil => simp [readLiteral] at h
  | cons c s ih =>
    rw [readLiteral] at h
    split at h
    · simp_all
    · split at h
      · obtain ⟨⟨cs', rest'⟩, hr, hp⟩ := Option.map_eq_some_iff.1 h
        simp only [Prod.mk.injEq] at hp
        have := ih hr
        simp only [List.length_cons, ← hp.2]
        omega
      · cases h

theorem length_lt_of_readQuoted {s rest cs : List Char} (h : readQuoted s = some (cs, rest)) :
    rest.length < s.length := by
  cases s with
  | nil => simp [readQuoted] at h
  | cons c s =>
    rw [readQuoted] at h
    split at h
    · exact Nat.lt_succ_of_lt (length_lt_of_readBasic h)
    · split at h
      · exact Nat.lt_succ_of_lt (length_lt_of_readLiteral h)
      · cases h

/-! ### Strings of many lines -/

/-- The mark that encloses a string with escapes, or one without them. -/
def mark (escapes : Bool) : Char := if escapes then '"' else apostrophe

/-- The text after a run of marks that closes a string of many lines. The last three of the run
close it, of at most five; those before belong to the string. -/
def closeLong? (m : Char) (s : List Char) : Option (List Char × List Char) :=
  let run := min (s.takeWhile (· = m)).length 5
  if run < 3 then none else some (List.replicate (run - 3) m, s.drop run)

/-- A text without the blanks and the line ends at its front. -/
def skipLines : List Char → List Char
  | '\r' :: '\n' :: s => skipLines s
  | c :: s => if isBlank c || c = '\n' then skipLines s else c :: s
  | [] => []

/-- The text after a backslash that joins its line with what follows the next blanks. -/
def afterJoin? (s : List Char) : Option (List Char) :=
  (afterNewline? (skipBlank s)).map skipLines

theorem length_lt_of_closeLong? {m : Char} {s cs rest : List Char}
    (h : closeLong? m s = some (cs, rest)) : rest.length < s.length := by
  have hs := (List.takeWhile_prefix (l := s) (· = m)).length_le
  simp only [closeLong?] at h
  split at h
  · cases h
  · simp only [Option.some.injEq, Prod.mk.injEq] at h
    rw [← h.2, List.length_drop]
    omega

theorem length_skipLines_le (s : List Char) : (skipLines s).length ≤ s.length := by
  fun_induction skipLines s with
  | case1 s ih => exact Nat.le_succ_of_le (Nat.le_succ_of_le ih)
  | case2 c s _ _ ih => exact Nat.le_succ_of_le ih
  | case3 | case4 => exact Nat.le_refl _

theorem length_lt_of_afterJoin? {s rest : List Char} (h : afterJoin? s = some rest) :
    rest.length < s.length := by
  obtain ⟨t, ht, rfl⟩ := Option.map_eq_some_iff.1 h
  have := length_lt_of_afterNewline? ht
  have := length_skipBlank_le s
  have := length_skipLines_le t
  omega

/-- The text up to the three closing marks, and the text after them. -/
def readLong (escapes : Bool) (s : List Char) : Option (List Char × List Char) :=
  match s with
  | [] => none
  | c :: t =>
    match closeLong? (mark escapes) (c :: t) with
    | some result => some result
    | none =>
      if escapes ∧ c = '\\' then
        match _hj : afterJoin? t with
        | some rest => readLong escapes rest
        | none =>
          match _he : readEscape t with
          | none => none
          | some (e, rest) => (readLong escapes rest).map fun (cs, rest) => (e :: cs, rest)
      else match _hn : afterNewline? (c :: t) with
        | some rest => (readLong escapes rest).map fun (cs, rest) => ('\n' :: cs, rest)
        | none =>
          if isPlain c then (readLong escapes t).map fun (cs, rest) => (c :: cs, rest)
          else none
termination_by s.length
decreasing_by
  · exact Nat.lt_succ_of_lt (length_lt_of_afterJoin? _hj)
  · exact Nat.lt_succ_of_lt (length_lt_of_readEscape _he)
  · exact length_lt_of_afterNewline? _hn
  · simp

/-- A text without the line end that may stand at its front. -/
def dropNewline (s : List Char) : List Char := (afterNewline? s).getD s

/-- A string of one of the four forms. -/
def readString (s : List Char) : Option (List Char × List Char) :=
  match s with
  | a :: b :: c :: t =>
    if a = '"' ∧ b = '"' ∧ c = '"' then readLong true (dropNewline t)
    else if a = apostrophe ∧ b = apostrophe ∧ c = apostrophe then
      readLong false (dropNewline t)
    else readQuoted s
  | _ => readQuoted s

theorem length_lt_of_readLong {escapes : Bool} {s rest cs : List Char}
    (h : readLong escapes s = some (cs, rest)) : rest.length < s.length := by
  fun_induction readLong escapes s generalizing cs rest with
  | case1 | case4 | case8 => simp at h
  | case2 c t result hc =>
    cases h
    exact length_lt_of_closeLong? hc
  | case3 =>
    rename_i hj ih
    have := ih h
    have := length_lt_of_afterJoin? hj
    simp only [List.length_cons]
    omega
  | case5 =>
    rename_i he ih
    obtain ⟨⟨cs', rest'⟩, hr, hp⟩ := Option.map_eq_some_iff.1 h
    simp only [Prod.mk.injEq] at hp
    have := ih hr
    have := length_lt_of_readEscape he
    simp only [List.length_cons, ← hp.2]
    omega
  | case6 =>
    rename_i hn ih
    obtain ⟨⟨cs', rest'⟩, hr, hp⟩ := Option.map_eq_some_iff.1 h
    simp only [Prod.mk.injEq] at hp
    have := ih hr
    have := length_lt_of_afterNewline? hn
    rw [← hp.2]
    omega
  | case7 =>
    rename_i ih
    obtain ⟨⟨cs', rest'⟩, hr, hp⟩ := Option.map_eq_some_iff.1 h
    simp only [Prod.mk.injEq] at hp
    have := ih hr
    simp only [List.length_cons, ← hp.2]
    omega

theorem length_dropNewline_le (s : List Char) : (dropNewline s).length ≤ s.length := by
  unfold dropNewline
  cases h : afterNewline? s with
  | none => exact Nat.le_refl _
  | some t => exact Nat.le_of_lt (length_lt_of_afterNewline? h)

theorem length_lt_of_readString {s rest cs : List Char} (h : readString s = some (cs, rest)) :
    rest.length < s.length := by
  unfold readString at h
  split at h
  · rename_i a b c t
    have ht := length_dropNewline_le t
    split at h
    · have := length_lt_of_readLong h
      simp only [List.length_cons]
      omega
    · split at h
      · have := length_lt_of_readLong h
        simp only [List.length_cons]
        omega
      · exact length_lt_of_readQuoted h
  · exact length_lt_of_readQuoted h

end Toml

end NodeInventory
