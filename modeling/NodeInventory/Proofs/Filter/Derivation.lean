import NodeInventory.Proofs.Filter.Grammar
import NodeInventory.Text
import Mathlib.Data.List.Basic
import Mathlib.Data.List.TakeWhile

/-!
# Blanks and derivations

What trimming leaves of a text, and why it is still a text of the same filter.
-/

namespace NodeInventory

/-!
## Trimming

* `Text.trimStart_append_cons`, `Text.trimEnd_append_cons` : trimming goes as far as the first
  character that is not blank;
* `Text.trim_trim` : what is left cannot be trimmed further;
* `Text.trim_blank_append`, `Text.trim_append_blank` : blanks around a text do not matter.
-/

namespace Text

variable {s t a b : List Char} {c : Char}

theorem AllBlank.append (ha : AllBlank a) (hb : AllBlank b) : AllBlank (a ++ b) := by
  intro c hc
  rcases List.mem_append.1 hc with hc | hc
  · exact ha c hc
  · exact hb c hc

/-! ### How far trimming goes -/

theorem trimStart_append_cons (hc : isBlank c = false) (s t : List Char) :
    trimStart (s ++ c :: t) = trimStart s ++ c :: t := by
  induction s with
  | nil => simp [trimStart, hc]
  | cons d s ih =>
    by_cases hd : isBlank d = true
    · simpa [trimStart, hd] using ih
    · simp [trimStart, hd]

theorem trimEnd_cons (hc : isBlank c = false) (s : List Char) :
    trimEnd (c :: s) = c :: trimEnd s := by
  cases hs : trimEnd s <;> simp [trimEnd, hs, hc]

theorem trimEnd_append (ht : trimEnd t ≠ []) (s : List Char) : trimEnd (s ++ t) = s ++ trimEnd t := by
  induction s with
  | nil => rfl
  | cons d s ih =>
    rw [List.cons_append, trimEnd, ih]
    split
    · next hnil => exact absurd (List.append_eq_nil_iff.1 hnil).2 ht
    · next e r hcons => rw [List.cons_append, hcons]

theorem trimEnd_append_cons (hc : isBlank c = false) (s t : List Char) :
    trimEnd (s ++ c :: t) = s ++ c :: trimEnd t := by
  rw [trimEnd_append (by simp [trimEnd_cons hc]), trimEnd_cons hc]

theorem subset_trimStart (s : List Char) : trimStart s ⊆ s :=
  (List.dropWhile_suffix _).subset

theorem subset_trimEnd (s : List Char) : trimEnd s ⊆ s := by
  obtain ⟨b, -, hs⟩ := exists_append_trimEnd s
  intro c hc
  rw [hs]
  exact List.mem_append_left b hc

theorem subset_trim (s : List Char) : trim s ⊆ s :=
  List.Subset.trans (subset_trimEnd _) (subset_trimStart s)

theorem trimEnd_append_of_forall (ht : ∀ c ∈ t, isBlank c = false) (s : List Char) :
    trimEnd (t ++ s) = t ++ trimEnd s := by
  induction t with
  | nil => rfl
  | cons c t ih =>
    rw [List.cons_append, trimEnd_cons (ht c List.mem_cons_self),
      ih fun d hd => ht d (List.mem_cons_of_mem _ hd), List.cons_append]

theorem trim_of_forall (h : ∀ c ∈ s, isBlank c = false) : trim s = s := by
  have hstart : trimStart s = s := by
    cases s with
    | nil => rfl
    | cons d s => exact List.dropWhile_cons_of_neg (by simp [h d List.mem_cons_self])
  have hend := trimEnd_append_of_forall h []
  rw [List.append_nil] at hend
  rw [trim, hstart, hend]
  exact List.append_nil s

/-! ### Blanks around a text -/

theorem exists_append_trimStart (s : List Char) : ∃ a, AllBlank a ∧ s = a ++ trimStart s :=
  ⟨s.takeWhile isBlank, fun c hc => by simpa using List.all_eq_true.1 List.all_takeWhile c hc,
    List.takeWhile_append_dropWhile.symm⟩

theorem trim_blank_append (ha : AllBlank a) (s : List Char) : trim (a ++ s) = trim s := by
  rw [trim, trimStart_blank_append ha, trim]

theorem trim_append_blank (hb : AllBlank b) (s : List Char) : trim (s ++ b) = trim s := by
  by_cases hs : AllBlank s
  · -- then nothing is left of either
    have hboth := trim_blank_append (hs.append hb) []
    have honly := trim_blank_append hs []
    rw [List.append_nil] at hboth honly
    rw [hboth, honly]
  · obtain ⟨c, hmem, hc⟩ : ∃ c ∈ s, isBlank c = false := by
      by_contra hnone
      exact hs fun c hmem => by simpa using fun hc => hnone ⟨c, hmem, hc⟩
    obtain ⟨x, y, rfl⟩ := List.append_of_mem hmem
    have happend : x ++ c :: y ++ b = x ++ c :: (y ++ b) := by simp
    have hend := trimEnd_append_blank hb (s := trimStart x ++ c :: y)
    rw [List.append_assoc, List.cons_append] at hend
    rw [happend, trim, trim, trimStart_append_cons hc, trimStart_append_cons hc, hend]

theorem trimStart_eq_nil_iff : trimStart s = [] ↔ AllBlank s :=
  List.dropWhile_eq_nil_iff

theorem trimStart_append (hs : trimStart s ≠ []) (t : List Char) :
    trimStart (s ++ t) = trimStart s ++ t := by
  rw [trimStart] at hs ⊢
  rw [List.dropWhile_append, if_neg (by simpa using hs), trimStart]

theorem trim_append_append (hs : ¬ AllBlank s) (ht : ¬ AllBlank t) (m : List Char) :
    trim (s ++ (m ++ t)) = trimStart s ++ (m ++ trimEnd t) := by
  have hstart : trimStart s ≠ [] := fun h => hs (trimStart_eq_nil_iff.1 h)
  have hend : trimEnd t ≠ [] := fun h => ht (trimEnd_eq_nil_iff.1 h)
  rw [trim, trimStart_append hstart, ← List.append_assoc, trimEnd_append hend, List.append_assoc]

theorem trim_trimStart (s : List Char) : trim (trimStart s) = trim s := by
  obtain ⟨a, ha, hs⟩ := exists_append_trimStart s
  conv_rhs => rw [hs, trim_blank_append ha]

theorem trim_trimEnd (s : List Char) : trim (trimEnd s) = trim s := by
  obtain ⟨b, hb, hs⟩ := exists_append_trimEnd s
  conv_rhs => rw [hs, trim_append_blank hb]

theorem trim_trim (s : List Char) : trim (trim s) = trim s :=
  calc trim (trim s) = trim (trimEnd (trimStart s)) := rfl
    _ = trim (trimStart s) := trim_trimEnd _
    _ = trim s := trim_trimStart s

theorem trimStart_of_trim (h : trim s = s) : trimStart s = s := by
  have hsuffix : trimStart s <:+ s := List.dropWhile_suffix _
  obtain ⟨b, -, hs⟩ := exists_append_trimEnd (trimStart s)
  have hlength := congrArg List.length hs
  rw [List.length_append, ← trim, h] at hlength
  exact hsuffix.eq_of_length (Nat.le_antisymm hsuffix.length_le (by omega))

end Text

/-!
## Blanks around a derived text

A text that derives a filter derives it also without the blanks at its ends (`Filter.IsExpr.trim`):
they are blanks around the first word or the last one.  So the parser, which trims its text first,
accepts every text that derives a filter (`Filter.parse_of_isExpr`).
-/

namespace Filter

open Text

theorem Separated.imp {c : Char} {P Q : List Char → Filter → Prop} (h : ∀ s f, P s f → Q s f)
    {s : List Char} {fs : List Filter} (hs : Separated c P s fs) : Separated c Q s fs := by
  induction hs with
  | one hP => exact .one (h _ _ hP)
  | more hP _ ih => exact .more (h _ _ hP) ih

theorem IsTerm.isExpr {s : List Char} {f : Filter} (h : IsTerm s f) : IsExpr s f :=
  .mk (.one (.mk (.one h)))

/-! ### No blank is special -/

theorem isBlank_of_mem_syntaxChars {c : Char} (hc : c ∈ syntaxChars) : isBlank c = false := by
  have hall : (syntaxChars.all fun c => !isBlank c) = true := by decide
  simpa using List.all_eq_true.1 hall c hc

theorem isWord_of_allBlank {w : List Char} (h : AllBlank w) : IsWord w := by
  intro c hc hspecial
  simpa [isBlank_of_mem_syntaxChars hspecial] using h c hc

theorem IsWord.append {v w : List Char} (hv : IsWord v) (hw : IsWord w) : IsWord (v ++ w) := by
  intro c hc
  rcases List.mem_append.1 hc with hc | hc
  · exact hv c hc
  · exact hw c hc

theorem IsWord.subset {v w : List Char} (hw : IsWord w) (h : v ⊆ w) : IsWord v :=
  fun c hc => hw c (h hc)

theorem isBlank_of_mem_token {sign : Sign} : ∀ c ∈ sign.token.toList, isBlank c = false := by
  have hall : (sign.token.toList.all fun c => !isBlank c) = true := by cases sign <;> decide
  simpa using List.all_eq_true.1 hall

theorem trimStart_append_token (sign : Sign) (s t : List Char) :
    trimStart (s ++ (sign.token.toList ++ t)) = trimStart s ++ (sign.token.toList ++ t) := by
  cases sign <;> exact trimStart_append_cons (by decide) s _

theorem trimEnd_append_token (sign : Sign) (s t : List Char) :
    trimEnd (s ++ (sign.token.toList ++ t)) = s ++ (sign.token.toList ++ trimEnd t) := by
  have htoken : trimEnd (sign.token.toList ++ t) = sign.token.toList ++ trimEnd t :=
    trimEnd_append_of_forall isBlank_of_mem_token t
  have hne : sign.token.toList ++ trimEnd t ≠ [] := by cases sign <;> simp [Sign.token]
  rw [trimEnd_append (htoken ▸ hne), htoken]

/-! ### Blanks at the front -/

theorem IsTerm.trimStart {s : List Char} {f : Filter} (h : IsTerm s f) :
    IsTerm (trimStart s) f := by
  cases h with
  | negation h => exact .negation h
  | parentheses h => exact .parentheses h
  | @comparison w w' v sign hw hw' hcolumn hvalue =>
    rw [trimStart_append_token, ← trim_trimStart w]
    rw [← trim_trimStart w] at hcolumn
    exact .comparison (hw.subset (subset_trimStart w)) hw' hcolumn hvalue

theorem Separated.trimStart {c : Char} {P : List Char → Filter → Prop} (hc : isBlank c = false)
    (hP : ∀ s f, P s f → P (Text.trimStart s) f) {s : List Char} {fs : List Filter}
    (h : Separated c P s fs) : Separated c P (Text.trimStart s) fs := by
  cases h with
  | one h => exact .one (hP _ _ h)
  | more h hs =>
    rw [trimStart_append_cons hc]
    exact .more (hP _ _ h) hs

theorem IsExpr.trimStart {s : List Char} {f : Filter} (h : IsExpr s f) :
    IsExpr (Text.trimStart s) f := by
  cases h with
  | mk h =>
    refine .mk (h.trimStart (by decide) fun s f h => ?_)
    cases h with
    | mk h => exact .mk (h.trimStart (by decide) fun _ _ => IsTerm.trimStart)

/-! ### Blanks at the end -/

theorem IsTerm.trimEnd : ∀ {s : List Char} {f : Filter}, IsTerm s f → IsTerm (Text.trimEnd s) f
  | _, _, @IsTerm.negation s f h => by
    rw [trimEnd_cons (by decide)]
    exact .negation h.trimEnd
  | _, _, @IsTerm.parentheses s f h => by
    have hcut : Text.trimEnd (('(' :: s) ++ [')']) = ('(' :: s) ++ [')'] :=
      trimEnd_append_cons (by decide) _ []
    rw [← List.cons_append, hcut]
    exact .parentheses h
  | _, _, @IsTerm.comparison w w' v sign hw hw' hcolumn hvalue => by
    rw [trimEnd_append_token]
    rw [← trim_trimEnd w'] at hvalue
    exact .comparison hw (hw'.subset (subset_trimEnd w')) hcolumn hvalue

theorem Separated.trimEnd {c : Char} {P : List Char → Filter → Prop} (hc : isBlank c = false)
    (hP : ∀ s f, P s f → P (Text.trimEnd s) f) {s : List Char} {fs : List Filter}
    (h : Separated c P s fs) : Separated c P (Text.trimEnd s) fs := by
  induction h with
  | one h => exact .one (hP _ _ h)
  | more h _ ih =>
    rw [trimEnd_append_cons hc]
    exact .more h ih

theorem IsExpr.trimEnd {s : List Char} {f : Filter} (h : IsExpr s f) :
    IsExpr (Text.trimEnd s) f := by
  cases h with
  | mk h =>
    refine .mk (h.trimEnd (by decide) fun s f h => ?_)
    cases h with
    | mk h => exact .mk (h.trimEnd (by decide) fun _ _ => IsTerm.trimEnd)

theorem IsExpr.trim {s : List Char} {f : Filter} (h : IsExpr s f) : IsExpr (Text.trim s) f :=
  h.trimStart.trimEnd

theorem parse_of_isExpr {s : List Char} {f : Filter} (h : IsExpr s f) :
    parse (String.ofList s) = .ok f := by
  rw [parse_eq_ok_iff, String.toList_ofList]
  exact h.trim

end Filter

end NodeInventory
