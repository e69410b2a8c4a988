import NodeInventory.Proofs.Filter.Grammar
import NodeInventory.Proofs.Text.BytePosition

/-!
# Reading filters with a cursor

The readers of filters, once more as a cursor does it that counts the bytes before it: the cursor
looks at single bytes, goes on byte by byte through a word, and cuts words and signs out of the text
by their positions.  A slice between positions that are out of order, behind the end of the text or
inside a character would break it off (`Outcome.broken`), and a token that is no sign would be an
error of its own kind.  Neither happens.

* `Filter.Cursor.parse` : the filter that a text writes, read with a cursor;
* `Filter.Cursor.wordEnd_append`, `Filter.Cursor.takeSign_of_some` : the search for the end of a
  word, byte by byte, ends where its characters do, and every token that is tried is that of a sign;
* `Filter.Cursor.agrees_readTerm` : the cursor's reader of terms agrees with that of characters, by
  induction on the length of what is left;
* `Filter.Cursor.reading_isSafe` : the cursor never breaks off, moves forward in every reader that
  succeeds, and reads as `Filter.parse` does.
-/

namespace NodeInventory

namespace Filter

open Text

namespace Cursor

/-! ### Outcomes -/

/-- What reading with a cursor comes to. -/
inductive Outcome (α : Type) where
  | done (a : α)
  | failed (error : QueryError)
  /-- A slice was asked for that does not exist. -/
  | broken

namespace Outcome

/-- Goes on with what has been read. -/
def bind {α β : Type} (x : Outcome α) (next : α → Outcome β) : Outcome β :=
  match x with
  | done a => next a
  | failed error => failed error
  | broken => broken

instance : Monad Outcome where
  pure := done
  bind := bind

/-- A slice, if it exists. -/
def ofSlice {α : Type} : Option α → Outcome α
  | some a => done a
  | none => broken

/-- The outcome of a computation that cannot break off. -/
def ofExcept {α : Type} : Except QueryError α → Outcome α
  | .ok a => done a
  | .error error => failed error

/-- The outcome with the cursor's position as a number alone. -/
def forget {α : Type} {P : ℕ → Prop} : Outcome (α × { q : ℕ // P q }) → Outcome (α × ℕ)
  | done (a, q) => done (a, q.1)
  | failed error => failed error
  | broken => broken

end Outcome

/-! ### Bytes, words and signs -/

variable (input : List Char)

/-- The bytes that end a word. -/
def specialBytes : List UInt8 := [0x26, 0x7C, 0x21, 0x28, 0x29, 0x3D, 0x3C, 0x3E, 0x7E]

/-- Where an error is, in words. -/
def place (pos : ℕ) : String :=
  let text := String.ofList input
  s!"at position {pos} in {text}"

/-- The first position from `pos` on where a word ends. -/
def wordEnd (pos : ℕ) : ℕ :=
  match h : Utf8.byteAt? input pos with
  | some b => if b ∈ specialBytes then pos else wordEnd (pos + 1)
  | none => pos
termination_by Utf8.size input - pos
decreasing_by
  have := Utf8.lt_size_of_byteAt? h
  omega

/-- The word at the cursor, without the blanks around it, and the position after it. -/
def takeWord (pos : ℕ) : Outcome (List Char × ℕ) := do
  let w ← Outcome.ofSlice (Utf8.slice? input pos (wordEnd input pos))
  return (trim w, wordEnd input pos)

/-- The tokens that are tried as signs, one after the other. -/
def signTokens : List String := ["!=", "<=", ">=", "=", "<", ">", "~"]

/-- The sign at the cursor, and the position after it. -/
def takeSign (pos : ℕ) : Outcome (Sign × ℕ) := do
  let rest ← Outcome.ofSlice (Utf8.slice? input pos (Utf8.size input))
  match signTokens.find? fun token => token.toList.isPrefixOf rest with
  | some token =>
    let sign ← Outcome.ofExcept (Sign.ofToken token)
    return (sign, pos + Utf8.size token.toList)
  | none => .failed (.unreadableFilter ("expected comparison sign " ++ place input pos))

/-- A column, a sign and a value. -/
def parseComparison (pos : ℕ) : Outcome (Filter × ℕ) := do
  let (column, pos) ← takeWord input pos
  if column = [] then .failed (.unreadableFilter ("expected column " ++ place input pos))
  else
    let (sign, pos) ← takeSign input pos
    let (raw, pos) ← takeWord input pos
    match Percent.decode raw with
    | .ok value =>
      return (.comparison sign (String.ofList column) (.string (String.ofList value)), pos)
    | .error fault => .failed (.unreadableFilter
        ("invalid percent-encoding in " ++ String.ofList raw ++ ": " ++ fault.message))

/-! ### The cursor goes forward -/

theorem le_wordEnd (pos : ℕ) : pos ≤ wordEnd input pos := by
  fun_induction wordEnd input pos with
  | case1 => exact Nat.le_refl _
  | case2 pos b h hb ih => exact Nat.le_of_succ_le ih
  | case3 => exact Nat.le_refl _

variable {input}

theorem bind_eq_done_iff {α β : Type} {x : Outcome α} {next : α → Outcome β} {b : β} :
    x >>= next = .done b ↔ ∃ a, x = .done a ∧ next a = .done b := by
  cases x <;> simp [Bind.bind, Outcome.bind]

theorem pure_eq_done_iff {α : Type} {a b : α} : (pure a : Outcome α) = .done b ↔ a = b := by
  simp [Pure.pure]

theorem le_of_takeWord {pos q : ℕ} {w : List Char} (h : takeWord input pos = .done (w, q)) :
    pos ≤ q := by
  obtain ⟨_, -, hw⟩ := bind_eq_done_iff.1 h
  obtain ⟨rfl, rfl⟩ := Prod.mk.inj (pure_eq_done_iff.1 hw)
  exact le_wordEnd input pos

theorem lt_of_takeSign {pos q : ℕ} {sign : Sign} (h : takeSign input pos = .done (sign, q)) :
    pos < q := by
  obtain ⟨rest, -, h⟩ := bind_eq_done_iff.1 h
  split at h
  · next token htoken =>
    obtain ⟨_, -, h⟩ := bind_eq_done_iff.1 h
    obtain ⟨rfl, rfl⟩ := Prod.mk.inj (pure_eq_done_iff.1 h)
    have hpos : ∀ token ∈ signTokens, 0 < Utf8.size token.toList := by decide
    exact Nat.lt_add_of_pos_right (hpos token (List.mem_of_find?_eq_some htoken))
  · cases h

theorem lt_of_parseComparison {pos q : ℕ} {f : Filter}
    (h : parseComparison input pos = .done (f, q)) : pos < q := by
  obtain ⟨⟨column, p₁⟩, hcolumn, h⟩ := bind_eq_done_iff.1 h
  dsimp only at h
  split at h
  · cases h
  · obtain ⟨⟨sign, p₂⟩, hsign, h⟩ := bind_eq_done_iff.1 h
    obtain ⟨⟨raw, p₃⟩, hraw, h⟩ := bind_eq_done_iff.1 h
    dsimp only at h
    split at h
    · obtain ⟨rfl, rfl⟩ := Prod.mk.inj (pure_eq_done_iff.1 h)
      have h₁ := le_of_takeWord hcolumn
      have h₂ := lt_of_takeSign hsign
      have h₃ := le_of_takeWord hraw
      omega
    · cases h

variable (input)

/-! ### The grammar, from the cursor on -/

/-- The positions after a cursor that has read something. -/
abbrev After (pos : ℕ) := { q : ℕ // pos < q }

mutual

/-- Conjunctions joined by `|`. -/
def parseOr (pos : ℕ) : Outcome (Filter × After pos) := do
  let (f, ⟨q, hq⟩) ← parseAnd pos
  let (fs, ⟨r, hr⟩) ← parseMoreOr q
  return (join .or f fs, ⟨r, Nat.lt_of_lt_of_le hq hr⟩)
termination_by 5 * (Utf8.size input - pos) + 4
decreasing_by all_goals omega

/-- Any further conjunctions, each after a `|`. -/
def parseMoreOr (pos : ℕ) : Outcome (List Filter × { q : ℕ // pos ≤ q }) :=
  if h : Utf8.byteAt? input pos = some 0x7C then do
    let (f, ⟨q, hq⟩) ← parseAnd (pos + 1)
    let (fs, ⟨r, hr⟩) ← parseMoreOr q
    return (f :: fs, ⟨r, by omega⟩)
  else return ([], ⟨pos, Nat.le_refl _⟩)
termination_by 5 * (Utf8.size input - pos) + 3
decreasing_by
  all_goals
    have := Utf8.lt_size_of_byteAt? h
    omega

/-- Terms joined by `&`. -/
def parseAnd (pos : ℕ) : Outcome (Filter × After pos) := do
  let (f, ⟨q, hq⟩) ← parseTerm pos
  let (fs, ⟨r, hr⟩) ← parseMoreAnd q
  return (join .and f fs, ⟨r, Nat.lt_of_lt_of_le hq hr⟩)
termination_by 5 * (Utf8.size input - pos) + 2
decreasing_by all_goals omega

/-- Any further terms, each after a `&`. -/
def parseMoreAnd (pos : ℕ) : Outcome (List Filter × { q : ℕ // pos ≤ q }) :=
  if h : Utf8.byteAt? input pos = some 0x26 then do
    let (f, ⟨q, hq⟩) ← parseTerm (pos + 1)
    let (fs, ⟨r, hr⟩) ← parseMoreAnd q
    return (f :: fs, ⟨r, by omega⟩)
  else return ([], ⟨pos, Nat.le_refl _⟩)
termination_by 5 * (Utf8.size input - pos) + 1
decreasing_by
  all_goals
    have := Utf8.lt_size_of_byteAt? h
    omega

/-- A negated term, a filter in parentheses, or a comparison. -/
def parseTerm (pos : ℕ) : Outcome (Filter × After pos) :=
  if h : Utf8.byteAt? input pos = some 0x21 then do
    let (f, ⟨q, hq⟩) ← parseTerm (pos + 1)
    return (f.negate, ⟨q, by omega⟩)
  else if h : Utf8.byteAt? input pos = some 0x28 then do
    let (f, ⟨q, hq⟩) ← parseOr (pos + 1)
    if Utf8.byteAt? input q = some 0x29 then return (f, ⟨q + 1, by omega⟩)
    else .failed (.unreadableFilter ("missing ')' " ++ place input q))
  else
    match h : parseComparison input pos with
    | .done (f, q) => .done (f, ⟨q, lt_of_parseComparison h⟩)
    | .failed error => .failed error
    | .broken => .broken
termination_by 5 * (Utf8.size input - pos)
decreasing_by
  all_goals
    have := Utf8.lt_size_of_byteAt? h
    omega

end

/-- The filter that a text writes. -/
def parse (s : String) : Outcome Filter := do
  let input := trim s.toList
  let (f, ⟨pos, _⟩) ← parseOr input 0
  if pos < Utf8.size input then
    let rest ← Outcome.ofSlice (Utf8.slice? input pos (Utf8.size input))
    .failed (.unreadableFilter
      ("unexpected '" ++ String.ofList rest ++ "' " ++ place input pos))
  else return f

variable {input}

/-! ### Words -/

theorem mem_specialBytes_iff {c : Char} {b : UInt8} (hb : b ∈ String.utf8EncodeChar c) :
    b ∈ specialBytes ↔ c ∈ syntaxChars := by
  have hchars : (specialBytes.all fun b =>
      b.toNat < 0x80 && syntaxChars.contains (Char.ofNat b.toNat)) = true := by decide
  have hbytes : (syntaxChars.all fun c =>
      (String.utf8EncodeChar c).all fun b => specialBytes.contains b) = true := by decide
  constructor
  · intro h
    obtain ⟨hascii, hmem⟩ : b.toNat < 0x80 ∧ Char.ofNat b.toNat ∈ syntaxChars := by
      simpa using List.all_eq_true.1 hchars b h
    rwa [Utf8.utf8EncodeChar_of_mem hb hascii]
  · intro h
    simpa using List.all_eq_true.1 (List.all_eq_true.1 hbytes c h) b hb

theorem wordEnd_of_byteAt? {pos : ℕ} {b : UInt8} (h : Utf8.byteAt? input pos = some b) :
    wordEnd input pos = if b ∈ specialBytes then pos else wordEnd input (pos + 1) := by
  rw [wordEnd.eq_def]
  split
  · next b' h' =>
    obtain rfl : b = b' := Option.some.inj (h.symm.trans h')
    rfl
  · next h' => rw [h] at h'; cases h'

theorem wordEnd_of_none {pos : ℕ} (h : Utf8.byteAt? input pos = none) :
    wordEnd input pos = pos := by
  rw [wordEnd.eq_def]
  split
  · next h' => rw [h] at h'; cases h'
  · rfl

theorem wordEnd_add {pos n : ℕ}
    (h : ∀ k < n, ∃ b, Utf8.byteAt? input (pos + k) = some b ∧ b ∉ specialBytes) :
    wordEnd input pos = wordEnd input (pos + n) := by
  induction n with
  | zero => rfl
  | succ n ih =>
    obtain ⟨b, hb, hspecial⟩ := h n (Nat.lt_succ_self n)
    rw [ih fun k hk => h k (Nat.lt_succ_of_lt hk), wordEnd_of_byteAt? hb, if_neg hspecial]
    rfl

/-- The search for the end of a word, byte by byte, ends where the characters of the word do. -/
theorem wordEnd_append (p r : List Char) :
    wordEnd (p ++ r) (Utf8.size p) =
      Utf8.size p + Utf8.size (r.takeWhile fun c => !isSpecial c) := by
  induction r generalizing p with
  | nil =>
    have hend : Utf8.byteAt? (p ++ []) (Utf8.size p) = none := by
      rw [Utf8.byteAt?_size]
      rfl
    rw [wordEnd_of_none hend]
    rfl
  | cons c r ih =>
    have hbytes : ∀ k (hk : k < (String.utf8EncodeChar c).length),
        Utf8.byteAt? (p ++ c :: r) (Utf8.size p + k) = some (String.utf8EncodeChar c)[k] := by
      intro k hk
      rw [Utf8.byteAt?_append, Utf8.byteAt?, Utf8.encode_cons, List.getElem?_append_left hk,
        List.getElem?_eq_getElem hk]
    by_cases hc : c ∈ syntaxChars
    · have hpos : 0 < (String.utf8EncodeChar c).length := by
        rw [String.length_utf8EncodeChar]
        exact c.utf8Size_pos
      have hfirst := hbytes 0 hpos
      rw [Nat.add_zero] at hfirst
      rw [wordEnd_of_byteAt? hfirst,
        if_pos ((mem_specialBytes_iff (List.getElem_mem hpos)).2 hc),
        List.takeWhile_cons_of_neg (by simp [(isSpecial_iff c).2 hc])]
      rfl
    · have hskip : ∀ k < c.utf8Size, ∃ b, Utf8.byteAt? (p ++ c :: r) (Utf8.size p + k) = some b ∧
          b ∉ specialBytes := by
        intro k hk
        rw [← String.length_utf8EncodeChar] at hk
        exact ⟨_, hbytes k hk, mt (mem_specialBytes_iff (List.getElem_mem hk)).1 hc⟩
      have hstep := ih (p ++ [c])
      rw [List.append_assoc, List.singleton_append, Utf8.size_append] at hstep
      rw [wordEnd_add hskip, List.takeWhile_cons_of_pos (by simpa [← isSpecial_iff] using hc)]
      refine hstep.trans ?_
      simp only [Utf8.size]
      omega

/-! ### Positions of what is left -/

theorem position_append (p s : List Char) : position (p ++ s) s = Utf8.size p := by
  rw [position, Utf8.size_append, Nat.add_sub_cancel]

theorem position_add {s t : List Char} (h : t ++ s <:+ input) :
    position input s = position input (t ++ s) + Utf8.size t := by
  obtain ⟨p, rfl⟩ := h
  rw [position_append, ← List.append_assoc, position_append, Utf8.size_append]

theorem position_cons {c : Char} {s : List Char} (h : c :: s <:+ input) (hc : c.utf8Size = 1) :
    position input s = position input (c :: s) + 1 := by
  rw [position_add (t := [c]) h, Utf8.size, hc]
  rfl

theorem byteAt?_position_iff {s : List Char} {b : UInt8} (h : s <:+ input) (hascii : b.toNat < 0x80) :
    Utf8.byteAt? input (position input s) = some b ↔ s.head? = some (Char.ofNat b.toNat) := by
  obtain ⟨p, rfl⟩ := h
  rw [position_append]
  exact Utf8.byteAt?_eq_some_iff_of_ascii hascii

theorem slice?_position {s : List Char} (h : s <:+ input) :
    Utf8.slice? input (position input s) (Utf8.size input) = some s := by
  obtain ⟨p, rfl⟩ := h
  rw [position_append]
  exact Utf8.slice?_size p s

theorem takeWord_position {s : List Char} (h : s <:+ input) :
    takeWord input (position input s) = .done (word s, position input (afterWord s)) := by
  have hs : (s.takeWhile fun c => !isSpecial c) ++ afterWord s = s :=
    List.takeWhile_append_dropWhile
  have hsuffix : (s.takeWhile fun c => !isSpecial c) ++ afterWord s <:+ input := hs.symm ▸ h
  have hafter := position_add hsuffix
  rw [hs] at hafter
  obtain ⟨p, rfl⟩ := h
  have hslice := Utf8.slice?_append p (s.takeWhile fun c => !isSpecial c) (afterWord s)
  rw [hs] at hslice
  rw [hafter, position_append, takeWord, wordEnd_append, hslice]
  rfl

/-! ### Signs -/

theorem readSign_token_append_ne_none (sign : Sign) (t : List Char) :
    readSign (sign.token.toList ++ t) ≠ none := by
  cases sign <;> simp only [Sign.token] <;> unfold readSign <;> split <;> simp_all

theorem find?_signTokens {s t : List Char} {sign : Sign} (h : readSign s = some (sign, t)) :
    (signTokens.find? fun token => token.toList.isPrefixOf s) = some sign.token := by
  unfold readSign at h
  split at h <;> cases h
  case h_5.refl hnot | h_6.refl hnot =>
    have hne : ['='].isPrefixOf t = false := by
      cases t with
      | nil => rfl
      | cons d t =>
        have hd : '=' ≠ d := fun hd => hnot t (by rw [hd])
        simp [List.isPrefixOf, hd]
    simp [signTokens, Sign.token, hne]
  all_goals rfl

theorem find?_signTokens_eq_none {s : List Char} (h : readSign s = none) :
    (signTokens.find? fun token => token.toList.isPrefixOf s) = none := by
  rw [List.find?_eq_none]
  intro token htoken hprefix
  obtain ⟨t, rfl⟩ := List.isPrefixOf_iff_prefix.1 hprefix
  have hsign : ∀ token ∈ signTokens, ∃ sign ∈ Sign.all, token = sign.token := by decide
  obtain ⟨sign, -, rfl⟩ := hsign token htoken
  exact readSign_token_append_ne_none sign t h

theorem takeSign_of_some {s t : List Char} {sign : Sign} (hs : s <:+ input)
    (h : readSign s = some (sign, t)) :
    takeSign input (position input s) = .done (sign, position input t) := by
  have happend := eq_token_append_of_readSign h
  have hposition := position_add (happend ▸ hs)
  rw [← happend] at hposition
  rw [takeSign, slice?_position hs]
  dsimp only [Outcome.ofSlice, Bind.bind, Outcome.bind]
  rw [find?_signTokens h]
  dsimp only
  rw [Sign.ofToken_token, hposition]
  rfl

theorem takeSign_of_none {s : List Char} (hs : s <:+ input) (h : readSign s = none) :
    takeSign input (position input s) =
      .failed (.unreadableFilter (Fault.message input (.noSign s))) := by
  rw [takeSign, slice?_position hs]
  dsimp only [Outcome.ofSlice, Bind.bind, Outcome.bind]
  rw [find?_signTokens_eq_none h]
  rfl

/-! ### What a reader of characters returns, as an outcome -/

/-- What a reader of characters returns, with the position of what is left and the error in words.
-/
def Outcome.ofReader (input : List Char) {α : Type} {P : List Char → Prop} :
    Except Fault (α × { r : List Char // P r }) → Outcome (α × ℕ)
  | .ok (a, r) => .done (a, position input r.1)
  | .error fault => .failed (.unreadableFilter (fault.message input))

theorem parseComparison_position {s : List Char} (hs : s <:+ input) :
    parseComparison input (position input s) = .ofReader input (readComparison s) := by
  have hafter : afterWord s <:+ input := (List.dropWhile_suffix _).trans hs
  unfold parseComparison
  rw [takeWord_position hs]
  dsimp only [Bind.bind, Outcome.bind]
  by_cases hword : word s = []
  · rw [readComparison, if_pos hword, if_pos hword]
    rfl
  rw [readComparison, if_neg hword, if_neg hword]
  symm
  split
  · next hsign =>
    rw [takeSign_of_none hafter hsign]
    rfl
  · next sign t hsign =>
    have ht : t <:+ input := by
      refine List.IsSuffix.trans ?_ hafter
      rw [eq_token_append_of_readSign hsign]
      exact List.suffix_append _ _
    rw [takeSign_of_some hafter hsign]
    dsimp only
    rw [takeWord_position ht]
    dsimp only
    cases Percent.decode (word t) <;> rfl

theorem eq_failed_of_forget {α : Type} {P : ℕ → Prop} {x : Outcome (α × { q : ℕ // P q })}
    {error : QueryError} (h : x.forget = .failed error) : x = .failed error := by
  cases x with
  | done a => cases h
  | failed e => exact congrArg _ (Outcome.failed.inj h)
  | broken => cases h

theorem eq_done_of_forget {α : Type} {P : ℕ → Prop} {x : Outcome (α × { q : ℕ // P q })} {a : α}
    {q : ℕ} (h : x.forget = .done (a, q)) : ∃ hq, x = .done (a, ⟨q, hq⟩) := by
  cases x with
  | done b =>
    obtain ⟨rfl, rfl⟩ := Prod.mk.inj (Outcome.done.inj h)
    exact ⟨b.2.2, rfl⟩
  | failed e => cases h
  | broken => cases h

/-- If the readers of a first filter agree, and those of more of them where the first one ends, so
do the readers of both together. -/
theorem forget_first_more {β : Type} {s : List Char} {pos : ℕ} {P : List Char → Prop} {Q : ℕ → Prop}
    {x : Except Fault (Filter × Rest s)} {y : Outcome (Filter × After pos)}
    {more : (t : List Char) → Except Fault (List Filter × { r : List Char // r.length ≤ t.length })}
    {parseMore : (q : ℕ) → Outcome (List Filter × { r : ℕ // q ≤ r })}
    (combine : Filter → List Filter → β)
    {hP : ∀ {t r : List Char}, t.length < s.length → r.length ≤ t.length → P r}
    (hQ : ∀ {q r : ℕ}, pos < q → q ≤ r → Q r) :
    y.forget = .ofReader input x →
    (∀ f t, Yields x f t → (parseMore (position input t)).forget = .ofReader input (more t)) →
    Outcome.forget (P := Q)
        (do
          let (f, ⟨q, hq⟩) ← y
          let (fs, ⟨r, hr⟩) ← parseMore q
          return (combine f fs, ⟨r, hQ hq hr⟩)) =
      .ofReader input (P := P)
        (match x with
          | .error fault => .error fault
          | .ok (f, ⟨t, ht⟩) =>
            match more t with
            | .error fault => .error fault
            | .ok (fs, ⟨r, hr⟩) => .ok (combine f fs, ⟨r, hP ht hr⟩)) := by
  intro hx hmore
  rcases x with fault | ⟨f, t, ht⟩
  · rw [eq_failed_of_forget hx]
    rfl
  · obtain ⟨hq, rfl⟩ := eq_done_of_forget hx
    have hnext := hmore f t ⟨⟨t, ht⟩, rfl, rfl⟩
    dsimp only [Bind.bind, Outcome.bind]
    rcases hfs : more t with fault | ⟨fs, r, hr⟩
    · rw [hfs] at hnext
      rw [eq_failed_of_forget hnext]
      rfl
    · rw [hfs] at hnext
      obtain ⟨hq', hdone⟩ := eq_done_of_forget hnext
      rw [hdone]
      rfl

/-! ### The readers agree -/

/-- The reader of characters and that of the cursor come to the same on texts shorter than `n` that
are left of the input. -/
def Agrees (input : List Char) (n : ℕ) (read : (s : List Char) → Except Fault (Filter × Rest s))
    (parse : (pos : ℕ) → Outcome (Filter × After pos)) : Prop :=
  ∀ s, s <:+ input → s.length < n →
    (parse (position input s)).forget = .ofReader input (read s)

/-- If the readers of the items agree, so do the readers of further items; `hstop` and `hstep` say
what these do. -/
theorem Agrees.more {n : ℕ} {c : Char} {D : List Char → Filter → Prop}
    {read : (s : List Char) → Except Fault (Filter × Rest s)}
    {parse : (pos : ℕ) → Outcome (Filter × After pos)}
    {more : (t : List Char) → Except Fault (List Filter × { r : List Char // r.length ≤ t.length })}
    {parseMore : (q : ℕ) → Outcome (List Filter × { r : ℕ // q ≤ r })}
    (hread : Agrees input n read parse) (hsound : Sound n read D)
    (hstop : ∀ s, s <:+ input → s.head? ≠ some c →
      (parseMore (position input s)).forget = .ofReader input (more s))
    (hstep : ∀ s, c :: s <:+ input →
      (parse (position input s)).forget = .ofReader input (read s) →
      (∀ f t, Yields (read s) f t →
        (parseMore (position input t)).forget = .ofReader input (more t)) →
      (parseMore (position input (c :: s))).forget = .ofReader input (more (c :: s)))
    {s : List Char} (hs : s <:+ input) (hn : s.length < n) :
    (parseMore (position input s)).forget = .ofReader input (more s) := by
  induction s using (measure List.length).wf.induction with
  | h s ih =>
    by_cases hc : s.head? = some c
    · obtain ⟨u, rfl⟩ := List.head?_eq_some_iff.1 hc
      have hu : u <:+ input := (List.suffix_cons c u).trans hs
      rw [List.length_cons] at hn
      refine hstep u hs (hread u hu (by omega)) fun f t hf => ?_
      obtain ⟨p, rfl, -⟩ := hsound u f t (by omega) hf
      rw [List.length_append] at hn
      have hlength : t.length < (c :: (p ++ t)).length := by
        rw [List.length_cons, List.length_append]
        omega
      exact ih t hlength ((List.suffix_append p t).trans hu) (by omega)
    · exact hstop s hs hc

theorem Agrees.conjunction {n : ℕ} (h : Agrees input n readTerm (parseTerm input)) :
    Agrees input n readAnd (parseAnd input) := by
  have hsound := sound_readTerm n
  intro s hs hn
  rw [parseAnd.eq_def, readAnd.eq_def]
  refine forget_first_more (join .and) Nat.lt_of_lt_of_le (h s hs hn) fun f t hf => ?_
  obtain ⟨p, rfl, -⟩ := hsound s f t hn hf
  rw [List.length_append] at hn
  refine h.more (c := '&') hsound (fun s hs hc => ?_) (fun s hs hread hmore => ?_)
    ((List.suffix_append p t).trans hs) (by omega)
  · have hbyte := mt (byteAt?_position_iff (b := 0x26) hs (by decide)).1 hc
    rw [parseMoreAnd.eq_def, dif_neg hbyte, readMoreAnd_of_head hc]
    rfl
  · have hbyte := (byteAt?_position_iff (b := 0x26) hs (by decide)).2 rfl
    rw [position_cons hs (by decide)] at hread
    rw [parseMoreAnd.eq_def, dif_pos hbyte, readMoreAnd]
    exact forget_first_more List.cons (fun h h' => by omega) hread hmore

theorem Agrees.expr {n : ℕ} (h : Agrees input n readAnd (parseAnd input)) :
    Agrees input n readOr (parseOr input) := by
  have hsound := (sound_readTerm n).conjunction
  intro s hs hn
  rw [parseOr.eq_def, readOr.eq_def]
  refine forget_first_more (join .or) Nat.lt_of_lt_of_le (h s hs hn) fun f t hf => ?_
  obtain ⟨p, rfl, -⟩ := hsound s f t hn hf
  rw [List.length_append] at hn
  refine h.more (c := '|') hsound (fun s hs hc => ?_) (fun s hs hread hmore => ?_)
    ((List.suffix_append p t).trans hs) (by omega)
  · have hbyte := mt (byteAt?_position_iff (b := 0x7C) hs (by decide)).1 hc
    rw [parseMoreOr.eq_def, dif_neg hbyte, readMoreOr_of_head hc]
    rfl
  · have hbyte := (byteAt?_position_iff (b := 0x7C) hs (by decide)).2 rfl
    rw [position_cons hs (by decide)] at hread
    rw [parseMoreOr.eq_def, dif_pos hbyte, readMoreOr]
    exact forget_first_more List.cons (fun h h' => by omega) hread hmore

theorem forget_parseTerm_negation {s : List Char} (hs : '!' :: s <:+ input)
    (h : (parseTerm input (position input s)).forget = .ofReader input (readTerm s)) :
    (parseTerm input (position input ('!' :: s))).forget =
      .ofReader input (readTerm ('!' :: s)) := by
  have hbyte := (byteAt?_position_iff (b := 0x21) hs (by decide)).2 rfl
  rw [position_cons hs (by decide)] at h
  conv_lhs => rw [parseTerm, dif_pos hbyte]
  conv_rhs => rw [readTerm]
  rcases hread : readTerm s with fault | ⟨f, t, ht⟩
  · rw [hread] at h
    rw [eq_failed_of_forget h]
    rfl
  · rw [hread] at h
    obtain ⟨hq, hdone⟩ := eq_done_of_forget h
    rw [hdone]
    rfl

theorem forget_parseTerm_parentheses {s : List Char} (hs : '(' :: s <:+ input)
    (h : (parseOr input (position input s)).forget = .ofReader input (readOr s)) :
    (parseTerm input (position input ('(' :: s))).forget =
      .ofReader input (readTerm ('(' :: s)) := by
  have hnot := mt (byteAt?_position_iff (b := 0x21) hs (by decide)).1 (by simp)
  have hbyte := (byteAt?_position_iff (b := 0x28) hs (by decide)).2 rfl
  rw [position_cons hs (by decide)] at h
  conv_lhs => rw [parseTerm, dif_neg hnot, dif_pos hbyte]
  conv_rhs => rw [readTerm]
  rcases hread : readOr s with fault | ⟨f, t, ht⟩
  · rw [hread] at h
    rw [eq_failed_of_forget h]
    rfl
  · rw [hread] at h
    obtain ⟨hq, hdone⟩ := eq_done_of_forget h
    have htail : t <:+ input := by
      obtain ⟨p, hp, -⟩ := isExpr_of_yields ⟨⟨t, ht⟩, hread, rfl⟩
      exact List.IsSuffix.trans ⟨p, hp.symm⟩ ((List.suffix_cons _ _).trans hs)
    have hclosing := byteAt?_position_iff (b := 0x29) htail (by decide)
    rw [hdone]
    dsimp only [Bind.bind, Outcome.bind]
    symm
    split
    · next r hr =>
      rw [afterClosing?_eq_some_iff] at hr
      subst hr
      rw [if_pos (hclosing.2 rfl)]
      exact congrArg _ (congrArg _ (position_cons htail (by decide)))
    · next hr =>
      have hne : t.head? ≠ some ')' := by
        intro hhead
        obtain ⟨r, rfl⟩ := List.head?_eq_some_iff.1 hhead
        cases hr
      rw [if_neg (mt hclosing.1 hne)]
      rfl

theorem agrees_readTerm (input : List Char) (n : ℕ) :
    Agrees input n readTerm (parseTerm input) := by
  induction n with
  | zero => exact fun s _ hn => absurd hn (Nat.not_lt_zero _)
  | succ n ih =>
    intro s hs hn
    by_cases hnot : s.head? = some '!'
    · obtain ⟨t, rfl⟩ := List.head?_eq_some_iff.1 hnot
      exact forget_parseTerm_negation hs
        (ih t ((List.suffix_cons _ t).trans hs) (Nat.lt_of_succ_lt_succ hn))
    by_cases hopen : s.head? = some '('
    · obtain ⟨t, rfl⟩ := List.head?_eq_some_iff.1 hopen
      exact forget_parseTerm_parentheses hs
        (ih.conjunction.expr t ((List.suffix_cons _ t).trans hs) (Nat.lt_of_succ_lt_succ hn))
    · have hnot' := mt (byteAt?_position_iff (b := 0x21) hs (by decide)).1 hnot
      have hopen' := mt (byteAt?_position_iff (b := 0x28) hs (by decide)).1 hopen
      rw [readTerm_eq_readComparison hnot hopen, ← parseComparison_position hs, parseTerm,
        dif_neg hnot', dif_neg hopen']
      split
      · next h => exact h.symm
      · next h => exact h.symm
      · next h => exact h.symm

theorem forget_parseTerm (p s : List Char) :
    (parseTerm (p ++ s) (Utf8.size p)).forget = .ofReader (p ++ s) (readTerm s) := by
  have h := agrees_readTerm (p ++ s) (s.length + 1) s (List.suffix_append p s) (Nat.lt_succ_self _)
  rwa [position_append] at h

theorem forget_parseAnd (p s : List Char) :
    (parseAnd (p ++ s) (Utf8.size p)).forget = .ofReader (p ++ s) (readAnd s) := by
  have h := (agrees_readTerm (p ++ s) (s.length + 1)).conjunction s (List.suffix_append p s)
    (Nat.lt_succ_self _)
  rwa [position_append] at h

theorem forget_parseOr (p s : List Char) :
    (parseOr (p ++ s) (Utf8.size p)).forget = .ofReader (p ++ s) (readOr s) := by
  have h := (agrees_readTerm (p ++ s) (s.length + 1)).conjunction.expr s (List.suffix_append p s)
    (Nat.lt_succ_self _)
  rwa [position_append] at h

/-! ### Safety -/

/-- Reading from `pos` does not break off: it comes to a boundary further on in the input, or finds
that the text does not follow the grammar. -/
def IsSafe (input : List Char) (pos : ℕ) : Outcome (Filter × ℕ) → Prop
  | .done (_, q) => pos < q ∧ q ≤ Utf8.size input ∧ Utf8.isBoundary input q = true
  | .failed error => ∃ reason, error = .unreadableFilter reason
  | .broken => False

/-- A reader of characters that takes what it returns from the front of the text is safe. -/
theorem isSafe_ofReader {p s : List Char} {read : (s : List Char) → Except Fault (Filter × Rest s)}
    {D : List Char → Filter → Prop} (hsound : Sound (s.length + 1) read D) :
    IsSafe (p ++ s) (Utf8.size p) (.ofReader (p ++ s) (read s)) := by
  rcases hread : read s with fault | ⟨f, t, ht⟩
  · exact ⟨_, rfl⟩
  · obtain ⟨u, rfl, -⟩ := hsound s f t (Nat.lt_succ_self _) ⟨⟨t, ht⟩, hread, rfl⟩
    have hne : u ≠ [] := by
      rintro rfl
      exact Nat.lt_irrefl _ ht
    have hpos := Utf8.size_pos hne
    have hposition : position (p ++ (u ++ t)) t = Utf8.size (p ++ u) := by
      rw [← List.append_assoc, position_append]
    rw [Outcome.ofReader, IsSafe, hposition, ← List.append_assoc]
    refine ⟨?_, ?_, Utf8.isBoundary_size _ _⟩
    · rw [Utf8.size_append]
      omega
    · rw [Utf8.size_append (p ++ u)]
      omega

theorem isSafe_readers {pos : ℕ} (hpos : Utf8.isBoundary input pos = true) :
    IsSafe input pos (parseOr input pos).forget ∧ IsSafe input pos (parseAnd input pos).forget ∧
      IsSafe input pos (parseTerm input pos).forget ∧
      IsSafe input pos (parseComparison input pos) := by
  obtain ⟨p, s, rfl, rfl⟩ := Utf8.isBoundary_iff.1 hpos
  have hterm := sound_readTerm (s.length + 1)
  have hcomparison : Sound (s.length + 1) readComparison IsTerm :=
    fun _ _ _ _ h => isTerm_of_yields_readComparison h
  have hposition := parseComparison_position (List.suffix_append p s)
  rw [position_append] at hposition
  rw [forget_parseOr, forget_parseAnd, forget_parseTerm, hposition]
  exact ⟨isSafe_ofReader hterm.conjunction.expr, isSafe_ofReader hterm.conjunction,
    isSafe_ofReader hterm, isSafe_ofReader hcomparison⟩

/-! ### The parser -/

theorem parse_eq_ofExcept (s : String) : parse s = .ofExcept (Filter.parse s) := by
  have h : (parseOr (trim s.toList) 0).forget = .ofReader (trim s.toList) (readOr (trim s.toList)) :=
    forget_parseOr [] (trim s.toList)
  rw [parse, Filter.parse, readAll]
  dsimp only [Bind.bind, Outcome.bind]
  rcases hread : readOr (trim s.toList) with fault | ⟨f, t, ht⟩
  · rw [hread] at h
    rw [eq_failed_of_forget h]
    rfl
  · obtain ⟨u, hu, -⟩ := isExpr_of_yields ⟨⟨t, ht⟩, hread, rfl⟩
    have htail : t <:+ trim s.toList := ⟨u, hu.symm⟩
    have hsize : Utf8.size (trim s.toList) = position (trim s.toList) t + Utf8.size t := by
      rw [hu, position_append, Utf8.size_append]
    rw [hread] at h
    obtain ⟨hq, hdone⟩ := eq_done_of_forget h
    rw [hdone]
    cases t with
    | nil =>
      -- nothing is left, so the cursor stands at the end
      have hend : ¬ position (trim s.toList) [] < Utf8.size (trim s.toList) :=
        Nat.not_lt.2 (Nat.le_of_eq hsize)
      dsimp only
      rw [if_neg hend]
      rfl
    | cons c t =>
      have hpos := Utf8.size_pos (List.cons_ne_nil c t)
      have hlt : position (trim s.toList) (c :: t) < Utf8.size (trim s.toList) := by omega
      dsimp only
      rw [if_pos hlt, slice?_position htail]
      rfl

/-- **Reading with a cursor never breaks off and fails in one way only.**  On every text the cursor
ends as the parser does; every failure is that of a text that does not follow the grammar; and from
every boundary of an input the readers come to a boundary further on, or to such a failure. -/
theorem reading_isSafe :
    (∀ s, parse s = .ofExcept (Filter.parse s)) ∧
      (∀ s error, Filter.parse s = .error error → ∃ reason, error = .unreadableFilter reason) ∧
      ∀ input pos, Utf8.isBoundary input pos = true →
        IsSafe input pos (parseOr input pos).forget ∧ IsSafe input pos (parseAnd input pos).forget ∧
          IsSafe input pos (parseTerm input pos).forget ∧
          IsSafe input pos (parseComparison input pos) := by
  refine ⟨parse_eq_ofExcept, fun s error h => ?_, fun input pos => isSafe_readers⟩
  rw [Filter.parse] at h
  split at h
  · cases h
  · exact ⟨_, (Except.error.inj h).symm⟩

/-- No sign follows the letter of two bytes; from the `b` on, which is the fifth byte, there is a
comparison. -/
theorem reading_isSafe_accent :
    (∃ reason, Filter.parse "é|(b=2" = .error (.unreadableFilter reason) ∧
      parse "é|(b=2" = .failed (.unreadableFilter reason)) ∧
    Utf8.isBoundary "é|(b=2".toList 4 = true ∧
    IsSafe "é|(b=2".toList 4 (parseOr "é|(b=2".toList 4).forget := by
  have hread : readAll (trim "é|(b=2".toList) = .error (.noSign "|(b=2".toList) := by cbv
  have herror : ∃ error, Filter.parse "é|(b=2" = .error error := by
    rw [Filter.parse, hread]
    exact ⟨_, rfl⟩
  obtain ⟨error, herror⟩ := herror
  obtain ⟨reason, rfl⟩ := reading_isSafe.2.1 _ _ herror
  have hboundary : Utf8.isBoundary "é|(b=2".toList 4 = true := by decide
  refine ⟨⟨reason, herror, ?_⟩, hboundary, (reading_isSafe.2.2 _ _ hboundary).1⟩
  rw [reading_isSafe.1, herror]
  rfl

end Cursor

end Filter

end NodeInventory
