import NodeInventory.Filter.Parser
import NodeInventory.Proofs.Text.Utf8

/-!
# The grammar of filters

The texts that write a filter, as a grammar over characters that does not mention the parser:

    expr        := conjunction ('|' conjunction)*
    conjunction := term ('&' term)*
    term        := '!' term | '(' expr ')' | word sign word

`Filter.parse` accepts exactly the texts that derive a filter once the blanks around them are cut.

* `Filter.IsExpr` : a text derives a filter;
* `Filter.yields_readAnd_iff` and the like : what each reader returns, by the readers it calls;
* `Filter.sound_readTerm`, `Filter.complete_readTerm` : what the reader of terms takes derives what
  it returns, and it takes derived texts whole if a character that ends a term follows
  (`Filter.Stops`). Both go by the length of the text, each level of the grammar following from the
  one below it at the same length;
* `Filter.parse_eq_ok_iff_isExpr` : the parser accepts exactly the grammar, which is unambiguous.
-/

namespace NodeInventory

namespace Filter

open Text

/-! ### Derivations -/

/-- The characters that the syntax uses. -/
def syntaxChars : List Char := ['&', '|', '!', '(', ')', '=', '<', '>', '~']

/-- A word has no character that the syntax uses. -/
def IsWord (w : List Char) : Prop := ∀ c ∈ w, c ∉ syntaxChars

instance (w : List Char) : Decidable (IsWord w) :=
  List.decidableBAll (· ∉ syntaxChars) w

/-- The filters of a list under a connective; one filter stands for itself. -/
def collapse (op : Connective) : List Filter → Filter
  | [f] => f
  | fs => .chain op fs

/-- One item or more, with the character between them. -/
inductive Separated (c : Char) (P : List Char → Filter → Prop) : List Char → List Filter → Prop
  | one {s : List Char} {f : Filter} (h : P s f) : Separated c P s [f]
  | more {s t : List Char} {f : Filter} {fs : List Filter} (h : P s f) (hs : Separated c P t fs) :
      Separated c P (s ++ c :: t) (f :: fs)

mutual

/-- A negated term, a filter in parentheses, or a comparison. -/
inductive IsTerm : List Char → Filter → Prop
  | negation {s : List Char} {f : Filter} (h : IsTerm s f) : IsTerm ('!' :: s) (.chain .not [f])
  | parentheses {s : List Char} {f : Filter} (h : IsExpr s f) : IsTerm ('(' :: (s ++ [')'])) f
  | comparison {w w' v : List Char} {sign : Sign} (hw : IsWord w) (hw' : IsWord w')
      (hcolumn : trim w ≠ []) (hvalue : Percent.decodeBytes (trim w') = Utf8.encode v) :
      IsTerm (w ++ (sign.token.toList ++ w'))
        (.comparison sign (String.ofList (trim w)) (.string (String.ofList v)))

/-- Terms joined by `&`. -/
inductive IsConjunction : List Char → Filter → Prop
  | mk {s : List Char} {fs : List Filter} (h : Separated '&' IsTerm s fs) :
      IsConjunction s (collapse .and fs)

/-- Conjunctions joined by `|`. -/
inductive IsExpr : List Char → Filter → Prop
  | mk {s : List Char} {fs : List Filter} (h : Separated '|' IsConjunction s fs) :
      IsExpr s (collapse .or fs)

end

/-! ### Words and signs at the front -/

/-- Nothing is left, or it begins with one of the characters. -/
def Stops (cs r : List Char) : Prop := ∀ c ∈ r.head?, c ∈ cs

/-- What ends a term. -/
def termEnds : List Char := ['&', '|', ')']

/-- What ends a conjunction. -/
def conjunctionEnds : List Char := ['|', ')']

/-- What ends a whole filter. -/
def exprEnds : List Char := [')']

theorem stops_nil (cs : List Char) : Stops cs [] := by simp [Stops]

theorem stops_cons {cs r : List Char} {c : Char} (h : c ∈ cs) : Stops cs (c :: r) := by
  simpa [Stops] using h

theorem Stops.mono {cs ds r : List Char} (h : Stops cs r) (hsub : cs ⊆ ds) : Stops ds r :=
  fun c hc => hsub (h c hc)

theorem Stops.head_ne {cs r : List Char} {c : Char} (h : Stops cs r) (hc : c ∉ cs) :
    r.head? ≠ some c := by
  intro hr
  exact hc (h c hr)

theorem isSpecial_iff (c : Char) : isSpecial c = true ↔ c ∈ syntaxChars := by
  simp [isSpecial, syntaxChars, or_assoc]

theorem isWord_takeWhile (s : List Char) : IsWord (s.takeWhile fun c => !isSpecial c) := by
  intro c hc
  have := List.all_eq_true.1 (List.all_takeWhile (p := fun c => !isSpecial c) (l := s)) c hc
  simpa [← isSpecial_iff] using this

theorem takeWhile_append_of_isWord {w r : List Char} (hw : IsWord w) (hr : Stops syntaxChars r) :
    ((w ++ r).takeWhile fun c => !isSpecial c) = w := by
  have hall : ∀ c ∈ w, (!isSpecial c) = true := fun c hc => by
    simpa [← isSpecial_iff] using hw c hc
  rw [List.takeWhile_append_of_pos hall]
  cases r with
  | nil => simp
  | cons d r =>
    have hd : isSpecial d = true := (isSpecial_iff d).2 (hr d rfl)
    simp [hd]

theorem afterWord_append_of_isWord {w r : List Char} (hw : IsWord w) (hr : Stops syntaxChars r) :
    afterWord (w ++ r) = r := by
  have h := List.takeWhile_append_dropWhile (p := fun c => !isSpecial c) (l := w ++ r)
  rw [takeWhile_append_of_isWord hw hr] at h
  exact List.append_cancel_left h

theorem word_append_of_isWord {w r : List Char} (hw : IsWord w) (hr : Stops syntaxChars r) :
    word (w ++ r) = trim w := by
  rw [word, takeWhile_append_of_isWord hw hr]

theorem eq_token_append_of_readSign {s t : List Char} {sign : Sign}
    (h : readSign s = some (sign, t)) : s = sign.token.toList ++ t := by
  unfold readSign at h
  split at h <;> cases h <;> rfl

theorem readSign_token_append {sign : Sign} {t : List Char} (h : t.head? ≠ some '=') :
    readSign (sign.token.toList ++ t) = some (sign, t) := by
  cases t with
  | nil => cases sign <;> rfl
  | cons c t =>
    have hc : c ≠ '=' := by simpa using h
    cases sign <;> simp [Sign.token, readSign, hc]

/-! ### What the readers return -/

/-- A reader returns `a` and leaves `r`. -/
def Yields {α : Type} {P : List Char → Prop} (x : Except Fault (α × { r : List Char // P r }))
    (a : α) (r : List Char) : Prop :=
  ∃ t, x = .ok (a, t) ∧ t.1 = r

theorem Yields.spec {α : Type} {P : List Char → Prop}
    {x : Except Fault (α × { r : List Char // P r })} {a : α} {r : List Char}
    (h : Yields x a r) : P r := by
  obtain ⟨t, -, rfl⟩ := h
  exact t.2

theorem Yields.unique {α : Type} {P : List Char → Prop}
    {x : Except Fault (α × { r : List Char // P r })} {a b : α} {r t : List Char}
    (h : Yields x a r) (h' : Yields x b t) : a = b := by
  obtain ⟨_, h, -⟩ := h
  obtain ⟨_, h', -⟩ := h'
  rw [h] at h'
  cases h'
  rfl

theorem join_eq_collapse (op : Connective) (f : Filter) (fs : List Filter) :
    join op f fs = collapse op (f :: fs) := by
  cases fs <;> rfl

theorem yields_readComparison_iff {s r : List Char} {f : Filter} :
    Yields (readComparison s) f r ↔ ∃ sign t v, word s ≠ [] ∧
      readSign (afterWord s) = some (sign, t) ∧ Percent.decode (word t) = .ok v ∧
      f = .comparison sign (String.ofList (word s)) (.string (String.ofList v)) ∧
      r = afterWord t := by
  unfold readComparison Yields
  constructor
  · rintro ⟨_, h, rfl⟩
    split at h
    · cases h
    · next hword =>
      split at h
      · cases h
      · next sign t hsign =>
        split at h
        · cases h
        · next v hv =>
          cases h
          exact ⟨sign, t, v, hword, hsign, hv, rfl, rfl⟩
  · rintro ⟨sign, t, v, hword, hsign, hv, rfl, rfl⟩
    rw [if_neg hword]
    split
    · next hnone => rw [hsign] at hnone; cases hnone
    · next sign' t' hsome =>
      obtain ⟨rfl, rfl⟩ : sign = sign' ∧ t = t' := by simpa [hsign] using hsome
      simp only [hv]
      exact ⟨_, rfl, rfl⟩

theorem yields_readTerm_negation_iff {s r : List Char} {f : Filter} :
    Yields (readTerm ('!' :: s)) f r ↔ ∃ g, Yields (readTerm s) g r ∧ f = g.negate := by
  unfold Yields
  conv_lhs => rw [readTerm]
  constructor
  · rintro ⟨_, h, rfl⟩
    split at h
    · cases h
    · next g t ht hg =>
      cases h
      exact ⟨g, ⟨_, hg, rfl⟩, rfl⟩
  · rintro ⟨g, ⟨_, hg, rfl⟩, rfl⟩
    simp only [hg]
    exact ⟨_, rfl, rfl⟩

theorem afterClosing?_eq_some_iff {s r : List Char} : afterClosing? s = some r ↔ s = ')' :: r := by
  constructor
  · intro h
    unfold afterClosing? at h
    split at h <;> cases h
    rfl
  · rintro rfl
    rfl

theorem yields_readTerm_parentheses_iff {s r : List Char} {f : Filter} :
    Yields (readTerm ('(' :: s)) f r ↔ Yields (readOr s) f (')' :: r) := by
  unfold Yields
  conv_lhs => rw [readTerm]
  constructor
  · rintro ⟨_, h, rfl⟩
    split at h
    · cases h
    · next g t ht hg =>
      split at h
      · next r' hclose =>
        cases h
        exact ⟨_, hg, afterClosing?_eq_some_iff.1 hclose⟩
      · cases h
  · rintro ⟨⟨t, ht⟩, hg, rfl⟩
    simp only [hg]
    exact ⟨_, rfl, rfl⟩

/-- A text that begins with neither `!` nor `(` is read as a comparison. -/
theorem readTerm_eq_readComparison {s : List Char} (hnot : s.head? ≠ some '!')
    (hopen : s.head? ≠ some '(') : readTerm s = readComparison s := by
  rw [readTerm.eq_def]
  split
  · exact absurd rfl hnot
  · exact absurd rfl hopen
  · rfl

/-- A first filter and more of them after it, put together by `combine`: this is how the readers
of both connectives go on. -/
theorem yields_first_more_iff {β : Type} {s r : List Char} {P : List Char → Prop}
    {x : Except Fault (Filter × Rest s)}
    {more : (t : List Char) → Except Fault (List Filter × { r : List Char // r.length ≤ t.length })}
    {combine : Filter → List Filter → β} {b : β}
    {hP : ∀ {t r : List Char}, t.length < s.length → r.length ≤ t.length → P r} :
    Yields (P := P)
        (match x with
          | .error fault => .error fault
          | .ok (f, ⟨t, ht⟩) =>
            match more t with
            | .error fault => .error fault
            | .ok (fs, ⟨r, hr⟩) => .ok (combine f fs, ⟨r, hP ht hr⟩)) b r ↔
      ∃ f t fs, Yields x f t ∧ Yields (more t) fs r ∧ b = combine f fs := by
  constructor
  · rintro ⟨_, h, rfl⟩
    split at h
    · cases h
    · next f t ht =>
      split at h
      · cases h
      · next fs r hr hfs =>
        cases h
        exact ⟨f, t, fs, ⟨_, rfl, rfl⟩, ⟨_, hfs, rfl⟩, rfl⟩
  · rintro ⟨f, _, fs, ⟨⟨t, ht⟩, rfl, rfl⟩, ⟨_, hfs, rfl⟩, rfl⟩
    simp only [hfs]
    exact ⟨_, rfl, rfl⟩

theorem yields_readAnd_iff {s r : List Char} {f : Filter} :
    Yields (readAnd s) f r ↔ ∃ g t gs, Yields (readTerm s) g t ∧ Yields (readMoreAnd t) gs r ∧
      f = join .and g gs := by
  rw [readAnd.eq_def]
  exact yields_first_more_iff

theorem yields_readOr_iff {s r : List Char} {f : Filter} :
    Yields (readOr s) f r ↔ ∃ g t gs, Yields (readAnd s) g t ∧ Yields (readMoreOr t) gs r ∧
      f = join .or g gs := by
  rw [readOr.eq_def]
  exact yields_first_more_iff

theorem yields_readMoreAnd_cons_iff {s r : List Char} {fs : List Filter} :
    Yields (readMoreAnd ('&' :: s)) fs r ↔ ∃ g t gs, Yields (readTerm s) g t ∧
      Yields (readMoreAnd t) gs r ∧ fs = g :: gs := by
  rw [readMoreAnd.eq_def]
  exact yields_first_more_iff

theorem yields_readMoreOr_cons_iff {s r : List Char} {fs : List Filter} :
    Yields (readMoreOr ('|' :: s)) fs r ↔ ∃ g t gs, Yields (readAnd s) g t ∧
      Yields (readMoreOr t) gs r ∧ fs = g :: gs := by
  rw [readMoreOr.eq_def]
  exact yields_first_more_iff

theorem readMoreAnd_of_head {s : List Char} (h : s.head? ≠ some '&') :
    readMoreAnd s = .ok ([], ⟨s, Nat.le_refl _⟩) := by
  rw [readMoreAnd.eq_def]
  split
  · exact absurd rfl h
  · rfl

theorem readMoreOr_of_head {s : List Char} (h : s.head? ≠ some '|') :
    readMoreOr s = .ok ([], ⟨s, Nat.le_refl _⟩) := by
  rw [readMoreOr.eq_def]
  split
  · exact absurd rfl h
  · rfl

/-! ### What a reader takes derives what it returns -/

theorem isTerm_of_yields_readComparison {s r : List Char} {f : Filter}
    (h : Yields (readComparison s) f r) : ∃ p, s = p ++ r ∧ IsTerm p f := by
  obtain ⟨sign, t, v, hword, hsign, hv, rfl, rfl⟩ := yields_readComparison_iff.1 h
  have hs : s = (s.takeWhile fun c => !isSpecial c) ++ afterWord s :=
    List.takeWhile_append_dropWhile.symm
  have ht : t = (t.takeWhile fun c => !isSpecial c) ++ afterWord t :=
    List.takeWhile_append_dropWhile.symm
  refine ⟨_, ?_, .comparison (isWord_takeWhile s) (isWord_takeWhile t) hword
    (Utf8.decode_eq_ok_iff.1 hv)⟩
  rw [List.append_assoc, List.append_assoc, ← ht, ← eq_token_append_of_readSign hsign, ← hs]

/-- What the reader takes from the front of a text shorter than `n` derives what it returns. -/
def Sound (n : ℕ) (read : (s : List Char) → Except Fault (Filter × Rest s))
    (P : List Char → Filter → Prop) : Prop :=
  ∀ s f r, s.length < n → Yields (read s) f r → ∃ p, s = p ++ r ∧ P p f

/-- If the reader of the items is sound, what it and the reader of further items take is a list of
items; `hmore` says what the latter does. -/
theorem Sound.separated {n : ℕ} {c : Char} {P : List Char → Filter → Prop}
    {read : (s : List Char) → Except Fault (Filter × Rest s)}
    {more : (s : List Char) → Except Fault (List Filter × { r : List Char // r.length ≤ s.length })}
    (hread : Sound n read P)
    (hstop : ∀ s, s.head? ≠ some c → more s = .ok ([], ⟨s, Nat.le_refl _⟩))
    (hmore : ∀ s fs r, Yields (more (c :: s)) fs r → ∃ g t gs, Yields (read s) g t ∧
      Yields (more t) gs r ∧ fs = g :: gs)
    {s t r : List Char} {f : Filter} {fs : List Filter} (hs : s.length < n)
    (hf : Yields (read s) f t) (hfs : Yields (more t) fs r) :
    ∃ p, s = p ++ r ∧ Separated c P p (f :: fs) := by
  induction hk : s.length using Nat.strongRecOn generalizing s t f fs with
  | ind k ih =>
    obtain ⟨p, hp, hP⟩ := hread s f t hs hf
    -- the list goes on behind a `c` and nowhere else
    by_cases ht : t.head? = some c
    · obtain ⟨u, rfl⟩ := List.head?_eq_some_iff.1 ht
      obtain ⟨g, v, gs, hg, hgs, rfl⟩ := hmore u fs r hfs
      have hu : u.length < s.length := Nat.lt_of_succ_lt hf.spec
      obtain ⟨q, rfl, hq⟩ := ih u.length (hk ▸ hu) (Nat.lt_trans hu hs) hg hgs rfl
      exact ⟨p ++ c :: q, by simp [hp], .more hP hq⟩
    · rw [hstop t ht] at hfs
      obtain ⟨_, h, rfl⟩ := hfs
      cases h
      exact ⟨p, hp, .one hP⟩

theorem Sound.conjunction {n : ℕ} (h : Sound n readTerm IsTerm) :
    Sound n readAnd IsConjunction := by
  intro s f r hs hread
  obtain ⟨g, t, gs, hg, hgs, rfl⟩ := yields_readAnd_iff.1 hread
  obtain ⟨p, hp, hsep⟩ := h.separated (fun _ => readMoreAnd_of_head)
    (fun _ _ _ => yields_readMoreAnd_cons_iff.1) hs hg hgs
  exact ⟨p, hp, join_eq_collapse .. ▸ .mk hsep⟩

theorem Sound.expr {n : ℕ} (h : Sound n readAnd IsConjunction) : Sound n readOr IsExpr := by
  intro s f r hs hread
  obtain ⟨g, t, gs, hg, hgs, rfl⟩ := yields_readOr_iff.1 hread
  obtain ⟨p, hp, hsep⟩ := h.separated (fun _ => readMoreOr_of_head)
    (fun _ _ _ => yields_readMoreOr_cons_iff.1) hs hg hgs
  exact ⟨p, hp, join_eq_collapse .. ▸ .mk hsep⟩

theorem sound_readTerm (n : ℕ) : Sound n readTerm IsTerm := by
  induction n with
  | zero => exact fun s f r hs => absurd hs (Nat.not_lt_zero _)
  | succ n ih =>
    intro s f r hs h
    -- what stands behind a `!` or a `(` is shorter than `n`
    by_cases hnot : s.head? = some '!'
    · obtain ⟨t, rfl⟩ := List.head?_eq_some_iff.1 hnot
      obtain ⟨g, hg, rfl⟩ := yields_readTerm_negation_iff.1 h
      obtain ⟨p, rfl, hp⟩ := ih t g r (Nat.lt_of_succ_lt_succ hs) hg
      exact ⟨'!' :: p, rfl, .negation hp⟩
    · by_cases hopen : s.head? = some '('
      · obtain ⟨t, rfl⟩ := List.head?_eq_some_iff.1 hopen
        obtain ⟨p, rfl, hp⟩ := ih.conjunction.expr t f _ (Nat.lt_of_succ_lt_succ hs)
          (yields_readTerm_parentheses_iff.1 h)
        exact ⟨'(' :: (p ++ [')']), by simp, .parentheses hp⟩
      · rw [readTerm_eq_readComparison hnot hopen] at h
        exact isTerm_of_yields_readComparison h

theorem isExpr_of_yields {s r : List Char} {f : Filter} (h : Yields (readOr s) f r) :
    ∃ p, s = p ++ r ∧ IsExpr p f :=
  (sound_readTerm (s.length + 1)).conjunction.expr s f r (Nat.lt_succ_self _) h

/-! ### A reader takes derived texts whole -/

/-- What a derived text shorter than `n` derives is what the reader returns for it, whatever
follows that begins with one of `ends`. -/
def Complete (n : ℕ) (read : (s : List Char) → Except Fault (Filter × Rest s))
    (P : List Char → Filter → Prop) (ends : List Char) : Prop :=
  ∀ p f r, p.length < n → P p f → Stops ends r → Yields (read (p ++ r)) f r

/-- If the reader of the items is complete, so are it and the reader of further items on lists of
items; `hmore` says what the latter does. -/
theorem Complete.separated {n : ℕ} {c : Char} {P : List Char → Filter → Prop}
    {read : (s : List Char) → Except Fault (Filter × Rest s)}
    {more : (s : List Char) → Except Fault (List Filter × { r : List Char // r.length ≤ s.length })}
    {ends : List Char} (hread : Complete n read P ends) (hc : c ∈ ends)
    (hstop : ∀ s, s.head? ≠ some c → more s = .ok ([], ⟨s, Nat.le_refl _⟩))
    (hmore : ∀ s g t gs r, Yields (read s) g t → Yields (more t) gs r →
      Yields (more (c :: s)) (g :: gs) r)
    {p r : List Char} {fs : List Filter} (hp : p.length < n) (h : Separated c P p fs)
    (hr : Stops (ends.erase c) r) (hne : r.head? ≠ some c) :
    ∃ f t gs, fs = f :: gs ∧ Yields (read (p ++ r)) f t ∧ Yields (more t) gs r := by
  induction h with
  | @one s f h =>
    refine ⟨f, r, [], rfl, hread s f r hp h (hr.mono (List.erase_subset ..)), ?_⟩
    exact ⟨_, hstop r hne, rfl⟩
  | @more s t f fs h _ ih =>
    simp only [List.length_append, List.length_cons] at hp
    -- the first item ends at the `c` behind it, and the others are read from there on
    obtain ⟨g, u, gs, rfl, hg, hgs⟩ := ih (by omega)
    have hf := hread s f (c :: (t ++ r)) (by omega) h (stops_cons hc)
    have happend : s ++ c :: t ++ r = s ++ c :: (t ++ r) := by simp
    rw [happend]
    exact ⟨f, _, g :: gs, rfl, hf, hmore _ _ _ _ _ hg hgs⟩

theorem Complete.conjunction {n : ℕ} (h : Complete n readTerm IsTerm termEnds) :
    Complete n readAnd IsConjunction conjunctionEnds := by
  intro p f r hp hf hr
  cases hf with
  | mk hsep =>
    obtain ⟨g, t, gs, rfl, hg, hgs⟩ := h.separated (by decide) (fun _ => readMoreAnd_of_head)
      (fun _ _ _ _ _ hg hgs => yields_readMoreAnd_cons_iff.2 ⟨_, _, _, hg, hgs, rfl⟩) hp hsep hr
      (hr.head_ne (by decide))
    exact yields_readAnd_iff.2 ⟨g, t, gs, hg, hgs, (join_eq_collapse ..).symm⟩

theorem Complete.expr {n : ℕ} (h : Complete n readAnd IsConjunction conjunctionEnds) :
    Complete n readOr IsExpr exprEnds := by
  intro p f r hp hf hr
  cases hf with
  | mk hsep =>
    obtain ⟨g, t, gs, rfl, hg, hgs⟩ := h.separated (by decide) (fun _ => readMoreOr_of_head)
      (fun _ _ _ _ _ hg hgs => yields_readMoreOr_cons_iff.2 ⟨_, _, _, hg, hgs, rfl⟩) hp hsep hr
      (hr.head_ne (by decide))
    exact yields_readOr_iff.2 ⟨g, t, gs, hg, hgs, (join_eq_collapse ..).symm⟩

theorem head_ne_of_isWord {w s : List Char} {c : Char} (hw : IsWord w) (hcolumn : trim w ≠ [])
    (hc : c ∈ syntaxChars) : (w ++ s).head? ≠ some c := by
  cases w with
  | nil => exact absurd rfl hcolumn
  | cons d w =>
    intro h
    obtain rfl : d = c := by simpa using h
    exact hw d List.mem_cons_self hc

theorem yields_readComparison {w w' v r : List Char} {sign : Sign} (hw : IsWord w) (hw' : IsWord w')
    (hcolumn : trim w ≠ []) (hvalue : Percent.decodeBytes (trim w') = Utf8.encode v)
    (hr : Stops syntaxChars r) (hr' : r.head? ≠ some '=') :
    Yields (readComparison (w ++ (sign.token.toList ++ (w' ++ r))))
      (.comparison sign (String.ofList (trim w)) (.string (String.ofList v))) r := by
  have hsign : Stops syntaxChars (sign.token.toList ++ (w' ++ r)) := by
    cases sign <;> exact stops_cons (by decide)
  -- a second word, or what follows an empty one, does not make a `<` into a `<=`
  have hne : (w' ++ r).head? ≠ some '=' := by
    cases w' with
    | nil => exact hr'
    | cons d w' =>
      intro h
      obtain rfl : d = '=' := by simpa using h
      exact hw' _ List.mem_cons_self (by decide)
  refine yields_readComparison_iff.2 ⟨sign, w' ++ r, v, ?_, ?_, ?_, ?_, ?_⟩
  · rwa [word_append_of_isWord hw hsign]
  · rw [afterWord_append_of_isWord hw hsign, readSign_token_append hne]
  · rw [word_append_of_isWord hw' hr]
    exact Utf8.decode_eq_ok_iff.2 hvalue
  · rw [word_append_of_isWord hw hsign]
  · rw [afterWord_append_of_isWord hw' hr]

theorem complete_readTerm (n : ℕ) : Complete n readTerm IsTerm termEnds := by
  induction n with
  | zero => exact fun p f r hp => absurd hp (Nat.not_lt_zero _)
  | succ n ih =>
    intro p f r hp hf hr
    cases hf with
    | @negation s f h =>
      exact yields_readTerm_negation_iff.2 ⟨f, ih s f r (Nat.lt_of_succ_lt_succ hp) h hr, rfl⟩
    | @parentheses s f h =>
      -- the filter inside is shorter by its parentheses, and ends at the closing one
      have hs : s.length < n := by
        simp only [List.length_cons, List.length_append] at hp
        omega
      have hread := ih.conjunction.expr s f (')' :: r) hs h (stops_cons (by decide))
      have happend : '(' :: (s ++ [')']) ++ r = '(' :: (s ++ ')' :: r) := by simp
      rw [happend]
      exact yields_readTerm_parentheses_iff.2 hread
    | @comparison w w' v sign hw hw' hcolumn hvalue =>
      have happend : w ++ (sign.token.toList ++ w') ++ r =
          w ++ (sign.token.toList ++ (w' ++ r)) := by simp
      rw [happend, readTerm_eq_readComparison (head_ne_of_isWord hw hcolumn (by decide))
        (head_ne_of_isWord hw hcolumn (by decide))]
      exact yields_readComparison hw hw' hcolumn hvalue (hr.mono (by decide)) (hr.head_ne (by decide))

theorem yields_of_isExpr {p r : List Char} {f : Filter} (h : IsExpr p f) (hr : Stops exprEnds r) :
    Yields (readOr (p ++ r)) f r :=
  (complete_readTerm (p.length + 1)).conjunction.expr p f r (Nat.lt_succ_self _) h hr

/-! ### The parser and its grammar -/

theorem yields_readOr_nil_iff {s : List Char} {f : Filter} :
    Yields (readOr s) f [] ↔ IsExpr s f := by
  constructor
  · intro h
    obtain ⟨p, rfl, hp⟩ := isExpr_of_yields h
    rwa [List.append_nil]
  · intro h
    have := yields_of_isExpr h (stops_nil _)
    rwa [List.append_nil] at this

theorem parse_eq_ok_iff_yields {s : String} {f : Filter} :
    parse s = .ok f ↔ Yields (readOr (trim s.toList)) f [] := by
  have hall : readAll (trim s.toList) = .ok f ↔ Yields (readOr (trim s.toList)) f [] := by
    unfold readAll Yields
    constructor
    · intro h
      split at h
      · cases h
      · next g _ hg =>
        cases h
        exact ⟨_, hg, rfl⟩
      · cases h
    · rintro ⟨⟨_, hr⟩, hg, rfl⟩
      simp only [hg]
  rw [← hall, parse]
  cases readAll (trim s.toList) <;> simp

theorem parse_eq_ok_iff {s : String} {f : Filter} : parse s = .ok f ↔ IsExpr (trim s.toList) f :=
  parse_eq_ok_iff_yields.trans yields_readOr_nil_iff

theorem parse_eq_error_of_yields {s : String} {f : Filter} {c : Char} {r : List Char}
    (h : Yields (readOr (trim s.toList)) f (c :: r)) :
    parse s =
      .error (.unreadableFilter (Fault.message (trim s.toList) (.unexpected (c :: r)))) := by
  obtain ⟨⟨t, ht⟩, hread, rfl⟩ := h
  rw [parse, readAll, hread]

/-- The parser accepts a text with a filter exactly when the text, its outer blanks cut, derives the
filter in the grammar; and a text derives at most one filter. -/
theorem parse_eq_ok_iff_isExpr :
    (∀ (s : String) (f : Filter), parse s = .ok f ↔ IsExpr (trim s.toList) f) ∧
      ∀ (t : List Char) (f g : Filter), IsExpr t f → IsExpr t g → f = g := by
  refine ⟨fun s f => parse_eq_ok_iff_yields.trans yields_readOr_nil_iff, fun t f g hf hg => ?_⟩
  exact (yields_readOr_nil_iff.2 hf).unique (yields_readOr_nil_iff.2 hg)

/-- A comparison and a negated one, with blanks and percent-encoding. -/
theorem parse_or_negation :
    parse " os = linux|!os<%6D " = .ok (.chain .or [.comparison .equal "os" (.string "linux"),
      .chain .not [.comparison .less "os" (.string "m")]]) ∧
    ∀ f, IsExpr "os = linux|!os<%6D".toList f →
      f = .chain .or [.comparison .equal "os" (.string "linux"),
        .chain .not [.comparison .less "os" (.string "m")]] := by
  have hlinux := @IsTerm.comparison "os ".toList " linux".toList "linux".toList .equal
    (by decide) (by decide) (by decide) (by decide)
  have hos := @IsTerm.comparison "os".toList "%6D".toList "m".toList .less
    (by decide) (by decide) (by decide) (by decide)
  have h := IsExpr.mk (.more (.mk (.one hlinux)) (.one (.mk (.one (.negation hos)))))
  have htext : ("os ".toList ++ (Sign.equal.token.toList ++ " linux".toList)) ++
      '|' :: '!' :: ("os".toList ++ (Sign.less.token.toList ++ "%6D".toList)) =
      "os = linux|!os<%6D".toList := by decide
  have htrim : trim " os = linux|!os<%6D ".toList = "os = linux|!os<%6D".toList := by decide
  rw [htext] at h
  exact ⟨(parse_eq_ok_iff_isExpr.1 _ _).2 (htrim ▸ h),
    fun f hf => parse_eq_ok_iff_isExpr.2 _ _ _ hf h⟩

end Filter

end NodeInventory
