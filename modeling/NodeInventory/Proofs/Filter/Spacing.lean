import NodeInventory.Proofs.Filter.Derivation

/-!
# Blanks next to operators

Blanks are cut from the words of a comparison and from the ends of a whole text, and are nowhere
skipped otherwise.  Next to an operator they belong to a word, and do not matter, unless another
operator or a parenthesis stands on the other side: there no word is read, and the text is refused.

* `Filter.locates_isTerm` : at each position of a term stands one of its comparisons, or there are
  operators and parentheses on both sides; by induction on the length of the term;
* `Filter.IsComparison.insert_blanks` : a comparison stays the same if blanks are put next to its
  sign or at its ends;
* `Filter.IsComparison.not_blank_alone` : and no part of a comparison is blank between operators;
* `Filter.parse_insert_blanks` : what the parser returns for a text into which blanks are put next
  to an operator, a parenthesis or a sign.
-/

namespace NodeInventory

namespace Filter

open Text

/-! ### Positions -/

/-- The operators and parentheses that stand between comparisons. -/
def joints : List Char := ['&', '|', '!', '(', ')']

/-- An operator, a parenthesis or a sign stands on one side of a position. -/
def TouchesSyntax (s t : List Char) : Prop :=
  s.getLast?.any (· ∈ syntaxChars) ∨ t.head?.any (· ∈ syntaxChars)

/-- A position is inside a sign of two characters. -/
def SplitsSign (s t : List Char) : Prop :=
  s.getLast?.any (· ∈ ['!', '<', '>']) ∧ t.head? = some '='

/-- An operator or a parenthesis stands on either side of a position. -/
def BetweenJoints (s t : List Char) : Prop :=
  s.getLast?.any (· ∈ joints) ∧ t.head?.any (· ∈ joints)

instance (s t : List Char) : Decidable (TouchesSyntax s t) := inferInstanceAs (Decidable (_ ∨ _))

instance (s t : List Char) : Decidable (SplitsSign s t) := inferInstanceAs (Decidable (_ ∧ _))

instance (s t : List Char) : Decidable (BetweenJoints s t) := inferInstanceAs (Decidable (_ ∧ _))

/-- The character before a position. A text counts as if it stood in parentheses. -/
def before (s : List Char) : Char := s.getLast?.getD '('

/-- The character after a position. -/
def after (t : List Char) : Char := t.head?.getD ')'

theorem joints_subset_syntaxChars : joints ⊆ syntaxChars := by decide

theorem isBlank_of_mem_joints {c : Char} (hc : c ∈ joints) : isBlank c = false :=
  isBlank_of_mem_syntaxChars (joints_subset_syntaxChars hc)

theorem before_append_of_ne_nil {s : List Char} (hs : s ≠ []) (a : List Char) :
    before (a ++ s) = before s := by
  rw [before, before, List.getLast?_append_of_ne_nil _ hs]

theorem after_append_of_ne_nil {t : List Char} (ht : t ≠ []) (z : List Char) :
    after (t ++ z) = after t := by
  rw [after, after, List.head?_append_of_ne_nil _ ht]

theorem before_mem_of_append {cs a s : List Char} (hcs : '(' ∈ cs) (h : before (a ++ s) ∈ cs) :
    before s ∈ cs := by
  cases s with
  | nil => exact hcs
  | cons c s => rwa [before_append_of_ne_nil (List.cons_ne_nil c s)] at h

theorem after_mem_of_append {cs t z : List Char} (hcs : ')' ∈ cs) (h : after (t ++ z) ∈ cs) :
    after t ∈ cs := by
  cases t with
  | nil => exact hcs
  | cons c t => exact h

theorem before_append_mem {a s : List Char} (ha : before a ∈ joints) (hs : before s ∈ joints) :
    before (a ++ s) ∈ joints := by
  cases s with
  | nil => rwa [List.append_nil]
  | cons c s => rwa [before_append_of_ne_nil (List.cons_ne_nil c s)]

theorem after_append_mem {t z : List Char} (ht : after t ∈ joints) (hz : after z ∈ joints) :
    after (t ++ z) ∈ joints := by
  cases t with
  | nil => exact hz
  | cons c t => exact ht

/-! ### Comparisons at a position -/

/-- A comparison of two words. -/
inductive IsComparison : List Char → Filter → Prop
  | mk {w w' v : List Char} {sign : Sign} (hw : IsWord w) (hw' : IsWord w') (hcolumn : trim w ≠ [])
      (hvalue : Percent.decodeBytes (trim w') = Utf8.encode v) :
      IsComparison (w ++ (sign.token.toList ++ w'))
        (.comparison sign (String.ofList (trim w)) (.string (String.ofList v)))

/-- A position is inside a comparison, or at one of its ends. The whole text has the property `Q`
with every comparison of the same filter in the place of this one. -/
inductive AtComparison (Q : List Char → Prop) : List Char → List Char → Prop
  | mk {a s t z : List Char} {f : Filter} (ha : before a ∈ joints) (hz : after z ∈ joints)
      (h : IsComparison (s ++ t) f) (hQ : ∀ u, IsComparison u f → Q (a ++ (u ++ z))) :
      AtComparison Q (a ++ s) (t ++ z)

/-- A position of a text with the property `Q` is in a comparison, or between operators and
parentheses. -/
def Located (Q : List Char → Prop) (s t : List Char) : Prop :=
  (before s ∈ joints ∧ after t ∈ joints) ∨ AtComparison Q s t

theorem Located.within {Q R : List Char → Prop} {a s t z : List Char} (h : Located Q s t)
    (ha : before a ∈ joints) (hz : after z ∈ joints) (hQ : ∀ u, Q u → R (a ++ (u ++ z))) :
    Located R (a ++ s) (t ++ z) := by
  rcases h with ⟨hs, ht⟩ | h
  · exact .inl ⟨before_append_mem ha hs, after_append_mem ht hz⟩
  · cases h with
    | @mk a' s t z' f ha' hz' h hR =>
      right
      rw [← List.append_assoc, List.append_assoc t]
      refine .mk (before_append_mem ha ha') (after_append_mem hz' hz) h fun u hu => ?_
      have hplace := hQ _ (hR u hu)
      simpa only [List.append_assoc] using hplace

theorem Located.imp {Q R : List Char → Prop} {s t : List Char} (h : Located Q s t)
    (hQ : ∀ u, Q u → R u) : Located R s t := by
  have hwithin := h.within (a := []) (z := []) (R := R) (by decide) (by decide)
    fun u hu => by simpa using hQ u hu
  rwa [List.nil_append, List.append_nil] at hwithin

theorem Located.of_isComparison {Q : List Char → Prop} {s t : List Char} {f : Filter}
    (h : IsComparison (s ++ t) f) (hQ : ∀ u, IsComparison u f → Q u) : Located Q s t := by
  have hat := AtComparison.mk (a := []) (z := []) (Q := Q) (by decide) (by decide) h
    fun u hu => by simpa using hQ u hu
  rw [List.nil_append, List.append_nil] at hat
  exact .inr hat

theorem IsComparison.isTerm {u : List Char} {f : Filter} (h : IsComparison u f) : IsTerm u f := by
  cases h with
  | mk hw hw' hcolumn hvalue => exact .comparison hw hw' hcolumn hvalue

/-! ### Every position -/

/-- Each position of a text shorter than `n` with the property is located. -/
def Locates {α : Type} (n : ℕ) (P : List Char → α → Prop) : Prop :=
  ∀ s t x, (s ++ t).length < n → P (s ++ t) x → Located (fun u => P u x) s t

/-- A position in a list of items is one in an item: next to a separator it is at the end of one. -/
theorem Locates.separated {n : ℕ} {c : Char} {P : List Char → Filter → Prop} (hP : Locates n P)
    (hc : c ∈ joints) : Locates n (Separated c P) := by
  intro s t fs hn h
  generalize hu : s ++ t = u at hn h
  induction h generalizing s t with
  | @one u f h =>
    subst hu
    exact (hP s t f hn h).imp fun _ => .one
  | @more p q f fs h hs ih =>
    -- where an item ends, another one may stand in its place before the others
    have hitem : ∀ s' t', s' ++ t' = p →
        Located (fun u => Separated c P u (f :: fs)) s' (t' ++ c :: q) := by
      rintro s' t' rfl
      have hlength : (s' ++ t').length < n := by
        rw [List.length_append, List.length_cons] at hn
        omega
      have hitem := hP s' t' f hlength h
      exact hitem.within (a := []) (by decide) (by exact hc) fun _ hu => .more hu hs
    rcases List.append_eq_append_iff.1 hu with ⟨y, rfl, rfl⟩ | ⟨x, rfl, hx⟩
    · exact hitem s y rfl
    · cases x with
      | nil =>
        obtain rfl : t = c :: q := hx.symm
        simpa using hitem p [] (List.append_nil p)
      | cons d x =>
        obtain ⟨rfl, rfl⟩ : c = d ∧ q = x ++ t := by simpa using hx
        have hlength : (x ++ t).length < n := by
          rw [List.length_append, List.length_cons] at hn
          omega
        have hrest := ih x t rfl hlength
        have hlast : before (p ++ [c]) ∈ joints := by
          rwa [before_append_of_ne_nil (List.cons_ne_nil c [])]
        have hwithin := hrest.within (a := p ++ [c]) (z := []) hlast (by decide)
          (R := fun u => Separated c P u (f :: fs)) fun u hu => by simpa using Separated.more h hu
        simpa using hwithin

theorem Locates.conjunction {n : ℕ} (h : Locates n IsTerm) : Locates n IsConjunction := by
  intro s t f hn hf
  generalize hu : s ++ t = u at hf
  cases hf with
  | mk hsep =>
    subst hu
    exact (h.separated (by decide) s t _ hn hsep).imp fun _ => .mk

theorem Locates.expr {n : ℕ} (h : Locates n IsConjunction) : Locates n IsExpr := by
  intro s t f hn hf
  generalize hu : s ++ t = u at hf
  cases hf with
  | mk hsep =>
    subst hu
    exact (h.separated (by decide) s t _ hn hsep).imp fun _ => .mk

theorem locates_isTerm (n : ℕ) : Locates n IsTerm := by
  induction n with
  | zero => exact fun s t f hn => absurd hn (Nat.not_lt_zero _)
  | succ n ih =>
    intro s t f hn hf
    generalize hu : s ++ t = u at hn hf
    cases hf with
    | @negation u f h =>
      cases s with
      | nil =>
        obtain rfl : t = '!' :: u := hu
        exact .inl ⟨by decide, by exact (by decide : '!' ∈ joints)⟩
      | cons d s =>
        obtain ⟨rfl, rfl⟩ : d = '!' ∧ s ++ t = u := by simpa using hu
        have hwithin := (ih s t f (Nat.lt_of_succ_lt_succ hn) h).within (a := ['!']) (z := [])
          (R := fun u => IsTerm u (.chain .not [f])) (by decide) (by decide)
          fun u hu => by simpa using IsTerm.negation hu
        simpa using hwithin
    | @parentheses u f h =>
      cases s with
      | nil =>
        obtain rfl : t = '(' :: (u ++ [')']) := hu
        exact .inl ⟨by decide, by exact (by decide : '(' ∈ joints)⟩
      | cons d s =>
        obtain ⟨rfl, hinner⟩ : d = '(' ∧ s ++ t = u ++ [')'] := by simpa using hu
        clear hu
        rcases List.eq_nil_or_concat' t with rfl | ⟨t, e, rfl⟩
        · -- behind the closing parenthesis
          obtain rfl : s = u ++ [')'] := by simpa using hinner
          left
          rw [← List.cons_append, before_append_of_ne_nil (List.cons_ne_nil _ _)]
          decide
        · rw [← List.append_assoc] at hinner
          obtain ⟨rfl, hlast⟩ := List.append_inj' hinner rfl
          obtain rfl : e = ')' := by simpa using hlast
          have hlength : (s ++ t).length < n := by
            simp only [List.length_cons, List.length_append] at hn ⊢
            omega
          exact (ih.conjunction.expr s t f hlength h).within (a := ['(']) (by decide) (by decide)
            fun u hu => .parentheses hu
    | @comparison w w' v sign hw hw' hcolumn hvalue =>
      have h : IsComparison (s ++ t) _ := hu.symm ▸ IsComparison.mk hw hw' hcolumn hvalue
      exact .of_isComparison h fun _ => IsComparison.isTerm

/-! ### Positions in a comparison -/

theorem before_mem {s : List Char} (hs : s ≠ []) : before s ∈ s := by
  rw [before, List.getLast?_eq_some_getLast hs]
  exact List.getLast_mem hs

theorem after_mem {t : List Char} (ht : t ≠ []) : after t ∈ t := by
  rw [after, List.head?_eq_some_head ht]
  exact List.head_mem ht

theorem split_token {sign : Sign} {x y : List Char} (hx : x ≠ []) (hy : y ≠ [])
    (h : sign.token.toList = x ++ y) : before x ∈ ['!', '<', '>'] ∧ after y = '=' := by
  obtain ⟨c, x, rfl⟩ := List.exists_cons_of_ne_nil hx
  obtain ⟨d, y, rfl⟩ := List.exists_cons_of_ne_nil hy
  cases x with
  | nil =>
    cases sign <;> simp [Sign.token] at h
    -- the signs of two characters are left
    all_goals
      obtain ⟨rfl, rfl, -⟩ := h
      exact ⟨by simp [before], rfl⟩
  | cons e x => cases sign <;> simp_all [Sign.token]

theorem append_append_cases {s t w k w' : List Char} (h : s ++ t = w ++ (k ++ w')) :
    (∃ x, w = s ++ x ∧ t = x ++ (k ++ w')) ∨
      (∃ x y, x ≠ [] ∧ y ≠ [] ∧ k = x ++ y ∧ s = w ++ x ∧ t = y ++ w') ∨
      ∃ y, s = w ++ (k ++ y) ∧ w' = y ++ t := by
  rcases List.append_eq_append_iff.1 h with ⟨x, rfl, rfl⟩ | ⟨x, rfl, hx⟩
  · exact .inl ⟨x, rfl, rfl⟩
  · rcases List.append_eq_append_iff.1 hx with ⟨y, rfl, rfl⟩ | ⟨y, rfl, rfl⟩
    · exact .inr (.inr ⟨y, rfl, rfl⟩)
    · rcases eq_or_ne x [] with rfl | hx
      · exact .inl ⟨[], by simp, by simp⟩
      · rcases eq_or_ne y [] with rfl | hy
        · exact .inr (.inr ⟨[], by simp, by simp⟩)
        · exact .inr (.inl ⟨x, y, hx, hy, rfl, rfl, rfl⟩)

theorem IsWord.eq_nil_or_eq_nil {x y : List Char} (hw : IsWord (x ++ y))
    (h : before x ∈ syntaxChars ∨ after y ∈ syntaxChars) : x = [] ∨ y = [] := by
  by_contra! hne
  rcases h with h | h
  · exact hw _ (List.mem_append_left y (before_mem hne.1)) h
  · exact hw _ (List.mem_append_right x (after_mem hne.2)) h

theorem isWord_insert_blanks {x b y : List Char} (hb : AllBlank b) (hw : IsWord (x ++ y)) :
    IsWord (x ++ (b ++ y)) :=
  (hw.subset (List.subset_append_left x y)).append
    ((isWord_of_allBlank hb).append (hw.subset (List.subset_append_right x y)))

theorem trim_insert_blanks {x b y : List Char} (hb : AllBlank b) (h : x = [] ∨ y = []) :
    trim (x ++ (b ++ y)) = trim (x ++ y) := by
  rcases h with rfl | rfl
  · exact trim_blank_append hb y
  · rw [List.append_nil, List.append_nil, trim_append_blank hb]

/-- Blanks next to the sign of a comparison, or at its ends, belong to its words. -/
theorem IsComparison.insert_blanks {s t b : List Char} {f : Filter} (hb : AllBlank b)
    (h : IsComparison (s ++ t) f) (htouch : before s ∈ syntaxChars ∨ after t ∈ syntaxChars)
    (hsign : ¬ (before s ∈ ['!', '<', '>'] ∧ after t = '=')) : IsComparison (s ++ (b ++ t)) f := by
  generalize hu : s ++ t = u at h
  cases h with
  | @mk w w' v sign hw hw' hcolumn hvalue =>
    rcases append_append_cases hu with ⟨x, rfl, rfl⟩ | ⟨x, y, hx, hy, htoken, rfl, rfl⟩ |
      ⟨y, rfl, rfl⟩
    · -- in the column
      have hends : s = [] ∨ x = [] := by
        rcases eq_or_ne x [] with hx | hx
        · exact .inr hx
        · rw [after_append_of_ne_nil hx] at htouch
          exact hw.eq_nil_or_eq_nil htouch
      rw [← trim_insert_blanks hb hends] at hcolumn ⊢
      have hcomparison : IsComparison (s ++ (b ++ x) ++ (sign.token.toList ++ w')) _ :=
        .mk (isWord_insert_blanks hb hw) hw' hcolumn hvalue
      simpa only [List.append_assoc] using hcomparison
    · -- inside the sign
      rw [before_append_of_ne_nil hx, after_append_of_ne_nil hy] at hsign
      exact absurd (split_token hx hy htoken) hsign
    · -- in the value
      have hends : y = [] ∨ t = [] := by
        rcases eq_or_ne y [] with hy | hy
        · exact .inl hy
        · rw [← List.append_assoc, before_append_of_ne_nil hy] at htouch
          exact hw'.eq_nil_or_eq_nil htouch
      rw [← trim_insert_blanks hb hends] at hvalue
      have hcomparison : IsComparison (w ++ (sign.token.toList ++ (y ++ (b ++ t)))) _ :=
        .mk hw (isWord_insert_blanks hb hw') hcolumn hvalue
      simpa only [List.append_assoc] using hcomparison

theorem before_token_notMem (sign : Sign) : before sign.token.toList ∉ joints := by
  cases sign <;> decide

theorem token_ne_nil (sign : Sign) : sign.token.toList ≠ [] := by
  cases sign <;> decide

/-- No part of a comparison is blank between operators or parentheses. -/
theorem IsComparison.not_blank_alone {s t b : List Char} {f : Filter} (hb : AllBlank b)
    (hne : b ≠ []) (h : IsComparison (s ++ (b ++ t)) f) :
    ¬ (before s ∈ joints ∧ after t ∈ joints) := by
  rintro ⟨hs, ht⟩
  have hs' := joints_subset_syntaxChars hs
  have ht' := joints_subset_syntaxChars ht
  generalize hu : s ++ (b ++ t) = u at h
  cases h with
  | @mk w w' v sign hw hw' hcolumn hvalue =>
    rcases append_append_cases hu with ⟨x, rfl, hx⟩ | ⟨x, y, hx, hy, htoken, rfl, hx'⟩ |
      ⟨y, rfl, rfl⟩
    · -- in the column, which would be blank
      obtain rfl : s = [] := by
        by_contra hnil
        exact hw _ (List.mem_append_left x (before_mem hnil)) hs'
      have hblank : AllBlank x := by
        rcases List.append_eq_append_iff.1 hx with ⟨y, rfl, rfl⟩ | ⟨y, rfl, -⟩
        · rcases eq_or_ne y [] with rfl | hy
          · rwa [List.append_nil]
          · rw [after_append_of_ne_nil hy] at ht'
            exact absurd ht' (hw _ (List.mem_append_right b (after_mem hy)))
        · exact fun c hc => hb c (List.mem_append_left y hc)
      have htrim := trim_blank_append hblank []
      rw [List.append_nil] at htrim
      exact hcolumn htrim
    · -- inside the sign, before a `=`
      have hequal : after b = '=' := by
        rw [← after_append_of_ne_nil hne t, hx', after_append_of_ne_nil hy]
        exact (split_token hx hy htoken).2
      have hblank := hb _ (after_mem hne)
      rw [hequal] at hblank
      exact absurd hblank (by decide)
    · -- in the value, behind the sign or behind a character of the value
      rcases eq_or_ne y [] with rfl | hy
      · rw [List.append_nil, before_append_of_ne_nil (token_ne_nil sign)] at hs
        exact before_token_notMem sign hs
      · rw [← List.append_assoc, before_append_of_ne_nil hy] at hs'
        exact hw' _ (List.mem_append_left _ (before_mem hy)) hs'

/-! ### Positions in a whole filter -/

theorem IsExpr.located {s t : List Char} {f : Filter} (h : IsExpr (s ++ t) f) :
    Located (fun u => IsExpr u f) s t :=
  (locates_isTerm ((s ++ t).length + 1)).conjunction.expr s t f (Nat.lt_succ_self _) h

theorem IsExpr.insert_blanks {s t b : List Char} {f : Filter} (hb : AllBlank b)
    (h : IsExpr (s ++ t) f) (htouch : before s ∈ syntaxChars ∨ after t ∈ syntaxChars)
    (hsign : ¬ (before s ∈ ['!', '<', '>'] ∧ after t = '='))
    (hjoints : ¬ (before s ∈ joints ∧ after t ∈ joints)) : IsExpr (s ++ (b ++ t)) f := by
  cases h.located.resolve_left hjoints with
  | @mk a s t z g ha hz hg hf =>
    have htouch' : before s ∈ syntaxChars ∨ after t ∈ syntaxChars :=
      htouch.imp (before_mem_of_append (by decide)) (after_mem_of_append (by decide))
    have hsign' : ¬ (before s ∈ ['!', '<', '>'] ∧ after t = '=') := by
      rintro ⟨hs, ht⟩
      have hsne : s ≠ [] := by
        rintro rfl
        exact absurd hs (by decide)
      have htne : t ≠ [] := by
        rintro rfl
        exact absurd ht (by decide)
      rw [before_append_of_ne_nil hsne, after_append_of_ne_nil htne] at hsign
      exact hsign ⟨hs, ht⟩
    simpa only [List.append_assoc] using hf _ (hg.insert_blanks hb htouch' hsign')

theorem IsExpr.not_blank_alone {s t b : List Char} {f : Filter} (hb : AllBlank b) (hne : b ≠ [])
    (h : IsExpr (s ++ (b ++ t)) f) : ¬ (before s ∈ joints ∧ after t ∈ joints) := by
  rintro ⟨hs, ht⟩
  -- the first of the blanks is no joint
  have hblank : ∀ c ∈ b, c ∉ joints := fun c hc hmem => by
    simpa [isBlank_of_mem_joints hmem] using hb c hc
  have hafter : after (b ++ t) ∉ joints := by
    rw [after_append_of_ne_nil hne]
    exact hblank _ (after_mem hne)
  have hat := h.located.resolve_left fun hjoints => hafter hjoints.2
  generalize hr : b ++ t = r at hat
  cases hat with
  | @mk a s x z g ha hz hg hf =>
    -- so the comparison goes on beyond them
    obtain ⟨y, rfl, rfl⟩ : ∃ y, x = b ++ y ∧ t = y ++ z := by
      rcases List.append_eq_append_iff.1 hr with ⟨y, hx, ht⟩ | ⟨y, rfl, rfl⟩
      · exact ⟨y, hx, ht⟩
      · rcases eq_or_ne y [] with rfl | hy
        · exact ⟨[], by simp, rfl⟩
        · rw [after_append_of_ne_nil hy] at hz
          exact absurd hz (hblank _ (List.mem_append_right x (after_mem hy)))
    exact hg.not_blank_alone hb hne
      ⟨before_mem_of_append (by decide) hs, after_mem_of_append (by decide) ht⟩

/-! ### Blanks in the middle of a text -/

theorem before_trimStart {s : List Char} (hs : ¬ AllBlank s) :
    s.getLast? = some (before (trimStart s)) := by
  obtain ⟨a, ha, hsplit⟩ := exists_append_trimStart s
  have hne : trimStart s ≠ [] := fun h => hs (trimStart_eq_nil_iff.1 h)
  conv_lhs => rw [hsplit, List.getLast?_append_of_ne_nil _ hne]
  rw [before, List.getLast?_eq_some_getLast hne]
  rfl

theorem after_trimEnd {t : List Char} (ht : ¬ AllBlank t) :
    t.head? = some (after (trimEnd t)) := by
  obtain ⟨b, hb, hsplit⟩ := exists_append_trimEnd t
  have hne : trimEnd t ≠ [] := fun h => ht (trimEnd_eq_nil_iff.1 h)
  conv_lhs => rw [hsplit, List.head?_append_of_ne_nil _ hne]
  rw [after, List.head?_eq_some_head hne]
  rfl

/-- Blanks after blanks at the front of a text, or before blanks at its end, are cut with them. -/
theorem trim_insert_blanks_of_allBlank {s t b : List Char} (hb : AllBlank b)
    (h : AllBlank s ∨ AllBlank t) : trim (s ++ (b ++ t)) = trim (s ++ t) := by
  rcases h with hs | ht
  · rw [trim_blank_append hs, trim_blank_append hb, trim_blank_append hs]
  · rw [trim_append_blank ht, ← List.append_assoc, trim_append_blank ht, trim_append_blank hb]

/-! ### The parser -/

theorem exists_parse_eq_error {s : String} (h : ∀ f, parse s ≠ .ok f) :
    ∃ message, parse s = .error (.unreadableFilter message) := by
  cases hread : readAll (trim s.toList) with
  | ok f => exact absurd (by rw [parse, hread]) (h f)
  | error fault => exact ⟨_, by rw [parse, hread]⟩

theorem not_allBlank_of_betweenJoints {s t : List Char} (h : BetweenJoints s t) :
    ¬ AllBlank s ∧ ¬ AllBlank t := by
  obtain ⟨hs, ht⟩ := h
  obtain ⟨c, hc, hcj⟩ := (Option.any_eq_true _ _).1 hs
  obtain ⟨d, hd, hdj⟩ := (Option.any_eq_true _ _).1 ht
  constructor
  · intro hs
    simpa [isBlank_of_mem_joints (of_decide_eq_true hcj)] using hs c (List.mem_of_getLast? hc)
  · intro ht
    simpa [isBlank_of_mem_joints (of_decide_eq_true hdj)] using ht d (List.mem_of_head? hd)

/-- Blanks put into a text next to an operator, a parenthesis or a sign do not change what is read,
except between two operators or parentheses, where the text is refused. -/
theorem parse_insert_blanks {s b t : List Char} {f : Filter} (hb : AllBlank b)
    (h : parse (String.ofList (s ++ t)) = .ok f) (htouch : TouchesSyntax s t)
    (hsign : ¬ SplitsSign s t) :
    (¬ BetweenJoints s t → parse (String.ofList (s ++ (b ++ t))) = .ok f) ∧
      (BetweenJoints s t → b ≠ [] →
        ∃ message, parse (String.ofList (s ++ (b ++ t))) = .error (.unreadableFilter message)) := by
  rw [parse_eq_ok_iff, String.toList_ofList] at h
  constructor
  · intro hjoints
    rw [parse_eq_ok_iff, String.toList_ofList]
    by_cases hblank : AllBlank s ∨ AllBlank t
    · rwa [trim_insert_blanks_of_allBlank hb hblank]
    · rw [not_or] at hblank
      obtain ⟨hs, ht⟩ := hblank
      simp only [TouchesSyntax, SplitsSign, BetweenJoints, before_trimStart hs, after_trimEnd ht,
        Option.any_some, decide_eq_true_eq, Option.some.injEq] at htouch hsign hjoints
      have hexpr := trim_append_append hs ht [] ▸ h
      rw [trim_append_append hs ht]
      exact hexpr.insert_blanks hb htouch hsign hjoints
  · intro hjoints hne
    obtain ⟨hs, ht⟩ := not_allBlank_of_betweenJoints hjoints
    simp only [BetweenJoints, before_trimStart hs, after_trimEnd ht, Option.any_some,
      decide_eq_true_eq] at hjoints
    refine exists_parse_eq_error fun g hg => ?_
    rw [parse_eq_ok_iff, String.toList_ofList, trim_append_append hs ht] at hg
    exact hg.not_blank_alone hb hne hjoints

/-- Blanks before a sign and before a parenthesis. -/
theorem parse_insert_blanks_inequality :
    parse "a=1|(b \t!=2)" = .ok (.chain .or [.comparison .equal "a" (.string "1"),
      .comparison .notEqual "b" (.string "2")]) ∧
    ∃ message, parse "a=1| \t(b!=2)" = .error (.unreadableFilter message) := by
  have ha := @IsTerm.comparison ['a'] ['1'] ['1'] .equal (by decide) (by decide) (by decide)
    (by decide)
  have hb := @IsTerm.comparison ['b'] ['2'] ['2'] .notEqual (by decide) (by decide) (by decide)
    (by decide)
  have htext : parse "a=1|(b!=2)" = .ok (.chain .or [.comparison .equal "a" (.string "1"),
      .comparison .notEqual "b" (.string "2")]) :=
    parse_eq_ok_iff.2 (.mk (.more (.mk (.one ha)) (.one (.mk (.one (.parentheses hb.isExpr))))))
  have hspace : AllBlank [' ', '\t'] := by simp [AllBlank, isBlank]
  have hsign := parse_insert_blanks (s := "a=1|(b".toList) (t := "!=2)".toList) hspace htext
    (by decide) (by decide)
  have hopen := parse_insert_blanks (s := "a=1|".toList) (t := "(b!=2)".toList) hspace htext
    (by decide) (by decide)
  exact ⟨hsign.1 (by decide), hopen.2 (by decide) (by decide)⟩

/-- A blank between a parenthesis and an operator is not read over. -/
theorem parse_blank_before_and :
    parse "(a=1)&b=2" = .ok (.chain .and [.comparison .equal "a" (.string "1"),
      .comparison .equal "b" (.string "2")]) ∧ AllBlank [' '] ∧
    ∀ f, parse "(a=1) &b=2" ≠ .ok f := by
  have ha := @IsTerm.comparison ['a'] ['1'] ['1'] .equal (by decide) (by decide) (by decide)
    (by decide)
  have hb := @IsTerm.comparison ['b'] ['2'] ['2'] .equal (by decide) (by decide) (by decide)
    (by decide)
  have hspace : AllBlank [' '] := by simp [AllBlank, isBlank]
  refine ⟨parse_eq_ok_iff.2 (.mk (.one (.mk (.more (.parentheses ha.isExpr) (.one hb))))), hspace,
    fun f hf => ?_⟩
  have htrim : trim "(a=1) &b=2".toList = "(a=1)".toList ++ ([' '] ++ "&b=2".toList) := by decide
  rw [parse_eq_ok_iff, htrim] at hf
  exact hf.not_blank_alone hspace (by decide) (by decide)

end Filter

end NodeInventory
