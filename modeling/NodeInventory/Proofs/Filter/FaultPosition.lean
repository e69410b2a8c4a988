import NodeInventory.Proofs.Filter.Cursor
import NodeInventory.Proofs.Filter.Derivation
import NodeInventory.Proofs.Text.Percent

/-!
# Where a filter text goes wrong

The position in an error is not any place at which the parser happens to stand: the text before it
is the beginning of a filter, and nothing that has been read up to there has to be taken back.

* `Filter.BreaksOff` : what a reader has read when it fails can be completed to what it was to read;
* `Filter.viable_readTerm` : this holds of the reader of terms, by induction on the length of the
  text, and of the readers of both connectives if it holds of the one below them;
* `Filter.eq_of_append_place_eq` : the position can be told from the wording of an error;
* `Filter.parse_error_viable` : the position in an error lies on a boundary of the text, the text
  before it can be completed to a filter, and is one itself if what follows is unexpected.
-/

namespace NodeInventory

namespace Filter

open Text

/-! ### Faults of the readers -/

/-- What had not been read when something was missing. -/
def Fault.missing? : Fault → Option (List Char)
  | .unclosed rest | .noColumn rest | .noSign rest => some rest
  | .unexpected _ | .undecodable .. => none

/-- A reader breaks off in `s`: a value in it cannot be decoded, or something is missing, and then
what stands before that can be completed to a text with the property `P`. -/
inductive BreaksOff {α : Type} (P : List Char → α → Prop) (s : List Char) : Fault → Prop
  | undecodable (raw : List Char) (fault : Utf8.Fault) : BreaksOff P s (.undecodable raw fault)
  | missing {p r w : List Char} {x : α} {fault : Fault} (hs : s = p ++ r)
      (hfault : fault.missing? = some r) (h : P (p ++ w) x) : BreaksOff P s fault

/-- Where a part of a text breaks off, the text does, if it goes on to be one whatever the part
is completed to. -/
theorem BreaksOff.within {α β : Type} {P : List Char → α → Prop} {Q : List Char → β → Prop}
    {a t z : List Char} {fault : Fault} (h : BreaksOff P t fault)
    (hQ : ∀ u x, P u x → ∃ y, Q (a ++ (u ++ z)) y) : BreaksOff Q (a ++ t) fault := by
  cases h with
  | undecodable raw fault => exact .undecodable raw fault
  | @missing p r w x _ ht hfault h =>
    obtain ⟨y, hy⟩ := hQ _ x h
    refine .missing (p := a ++ p) (w := w ++ z) (by rw [ht, List.append_assoc]) hfault (x := y) ?_
    simpa only [List.append_assoc] using hy

theorem BreaksOff.imp {α β : Type} {P : List Char → α → Prop} {Q : List Char → β → Prop}
    {s : List Char} {fault : Fault} (h : BreaksOff P s fault) (hQ : ∀ u x, P u x → ∃ y, Q u y) :
    BreaksOff Q s fault :=
  h.within (a := []) (z := []) fun u x hu => by simpa using hQ u x hu

/-! ### When a reader fails -/

theorem error_first_more {β : Type} {s : List Char} {P : List Char → Prop}
    {x : Except Fault (Filter × Rest s)}
    {more : (t : List Char) → Except Fault (List Filter × { r : List Char // r.length ≤ t.length })}
    {combine : Filter → List Filter → β} {fault : Fault}
    {hP : ∀ {t r : List Char}, t.length < s.length → r.length ≤ t.length → P r}
    (h : (match x with
        | .error fault => .error fault
        | .ok (f, ⟨t, ht⟩) =>
          match more t with
          | .error fault => .error fault
          | .ok (fs, ⟨r, hr⟩) => .ok (combine f fs, ⟨r, hP ht hr⟩) :
            Except Fault (β × { r : List Char // P r })) = .error fault) :
    x = .error fault ∨ ∃ f t, Yields x f t ∧ more t = .error fault := by
  split at h
  · exact .inl (congrArg _ (Except.error.inj h))
  · next f t ht =>
    split at h
    · next hmore =>
      cases h
      exact .inr ⟨f, t, ⟨_, rfl, rfl⟩, hmore⟩
    · cases h

theorem readComparison_breaksOff {s : List Char} {fault : Fault}
    (h : readComparison s = .error fault) : BreaksOff IsTerm s fault := by
  have hs : s = (s.takeWhile fun c => !isSpecial c) ++ afterWord s :=
    List.takeWhile_append_dropWhile.symm
  have hblank : Percent.decodeBytes (trim []) = Utf8.encode [] := rfl
  unfold readComparison at h
  split at h
  · -- a column and a sign complete the blanks before the fault
    cases h
    have hcolumn : trim ((s.takeWhile fun c => !isSpecial c) ++ ['a']) ≠ [] := by
      rw [trim, trimStart_append_cons (by decide), trimEnd_append_cons (by decide)]
      simp
    have hword : IsWord ((s.takeWhile fun c => !isSpecial c) ++ ['a']) :=
      (isWord_takeWhile s).append (by decide)
    have hterm := @IsTerm.comparison _ [] [] .equal hword (by decide) hcolumn hblank
    rw [List.append_assoc] at hterm
    exact .missing hs rfl hterm
  · next hcolumn =>
    split at h
    · -- a sign completes the column
      cases h
      exact .missing hs rfl
        (@IsTerm.comparison _ [] [] .equal (isWord_takeWhile s) (by decide) hcolumn hblank)
    · split at h
      · cases h
        exact .undecodable _ _
      · cases h

/-- Where the reader fails on a text shorter than `n`, it breaks off. -/
def Viable (n : ℕ) (read : (s : List Char) → Except Fault (Filter × Rest s))
    (P : List Char → Filter → Prop) : Prop :=
  ∀ s fault, s.length < n → read s = .error fault → BreaksOff P s fault

/-- If the reader of the items breaks off, so does that of a list of them: what stands before the
item in question is a list of items.  `hstop` and `hmore` say what the reader of further items
does. -/
theorem Viable.separated {n : ℕ} {c : Char} {P : List Char → Filter → Prop}
    {read : (s : List Char) → Except Fault (Filter × Rest s)}
    {more : (s : List Char) → Except Fault (List Filter × { r : List Char // r.length ≤ s.length })}
    (hread : Viable n read P) (hsound : Sound n read P)
    (hstop : ∀ s, s.head? ≠ some c → more s = .ok ([], ⟨s, Nat.le_refl _⟩))
    (hmore : ∀ s fault, more (c :: s) = .error fault →
      read s = .error fault ∨ ∃ f t, Yields (read s) f t ∧ more t = .error fault)
    {s : List Char} {fault : Fault} (hs : s.length < n)
    (h : read s = .error fault ∨ ∃ f t, Yields (read s) f t ∧ more t = .error fault) :
    BreaksOff (Separated c P) s fault := by
  induction hk : s.length using Nat.strongRecOn generalizing s with
  | ind k ih =>
    rcases h with h | ⟨f, t, hf, ht⟩
    · exact (hread s fault hs h).imp fun u x hu => ⟨[x], .one hu⟩
    · obtain ⟨p, rfl, hp⟩ := hsound s f t hs hf
      -- only behind a `c` something else is read that can fail
      by_cases hc : t.head? = some c
      · obtain ⟨u, rfl⟩ := List.head?_eq_some_iff.1 hc
        rw [List.length_append, List.length_cons] at hs hk
        have hrest := ih u.length (by omega) (by omega) (hmore u fault ht) rfl
        have hwithin := hrest.within (Q := Separated c P) (a := p ++ [c]) (z := [])
          fun v fs hv => ⟨f :: fs, by simpa using Separated.more hp hv⟩
        simpa using hwithin
      · rw [hstop t hc] at ht
        cases ht

theorem Viable.conjunction {n : ℕ} (h : Viable n readTerm IsTerm) :
    Viable n readAnd IsConjunction := by
  intro s fault hs hfault
  rw [readAnd.eq_def] at hfault
  have hseparated := h.separated (sound_readTerm n) (fun _ => readMoreAnd_of_head)
    (fun s fault hmore => error_first_more (readMoreAnd.eq_def ('&' :: s) ▸ hmore)) hs
    (error_first_more hfault)
  exact hseparated.imp fun _ _ hu => ⟨_, .mk hu⟩

theorem Viable.expr {n : ℕ} (h : Viable n readAnd IsConjunction) : Viable n readOr IsExpr := by
  intro s fault hs hfault
  rw [readOr.eq_def] at hfault
  have hseparated := h.separated (sound_readTerm n).conjunction (fun _ => readMoreOr_of_head)
    (fun s fault hmore => error_first_more (readMoreOr.eq_def ('|' :: s) ▸ hmore)) hs
    (error_first_more hfault)
  exact hseparated.imp fun _ _ hu => ⟨_, .mk hu⟩

theorem readTerm_negation_error {s : List Char} {fault : Fault}
    (h : readTerm ('!' :: s) = .error fault) : readTerm s = .error fault := by
  rw [readTerm] at h
  split at h
  · next hs => rw [hs, Except.error.inj h]
  · cases h

theorem readTerm_parentheses_error {s : List Char} {fault : Fault}
    (h : readTerm ('(' :: s) = .error fault) :
    readOr s = .error fault ∨ ∃ f t, Yields (readOr s) f t ∧ fault = .unclosed t := by
  rw [readTerm] at h
  split at h
  · next hs => exact .inl (by rw [hs, Except.error.inj h])
  · next f t ht hs =>
    split at h
    · cases h
    · cases h
      exact .inr ⟨f, t, ⟨_, hs, rfl⟩, rfl⟩

theorem viable_readTerm (n : ℕ) : Viable n readTerm IsTerm := by
  induction n with
  | zero => exact fun s fault hs => absurd hs (Nat.not_lt_zero _)
  | succ n ih =>
    intro s fault hs h
    by_cases hnot : s.head? = some '!'
    · obtain ⟨t, rfl⟩ := List.head?_eq_some_iff.1 hnot
      have hinner := ih t fault (Nat.lt_of_succ_lt_succ hs) (readTerm_negation_error h)
      exact hinner.within (a := ['!']) (z := []) fun u f hu => ⟨_, by simpa using hu.negation⟩
    · by_cases hopen : s.head? = some '('
      · obtain ⟨t, rfl⟩ := List.head?_eq_some_iff.1 hopen
        have ht : t.length < n := Nat.lt_of_succ_lt_succ hs
        rcases readTerm_parentheses_error h with hinner | ⟨f, r, hf, rfl⟩
        · -- the parenthesis is closed behind what completes the filter in it
          have hbreaks := ih.conjunction.expr t fault ht hinner
          exact hbreaks.within (a := ['(']) (z := [')']) fun u f hu => ⟨f, .parentheses hu⟩
        · obtain ⟨p, rfl, hp⟩ := isExpr_of_yields hf
          exact .missing (p := '(' :: p) rfl rfl (IsTerm.parentheses hp)
      · rw [readTerm_eq_readComparison hnot hopen] at h
        exact readComparison_breaksOff h

theorem readOr_breaksOff {s : List Char} {fault : Fault} (h : readOr s = .error fault) :
    BreaksOff IsExpr s fault :=
  (viable_readTerm (s.length + 1)).conjunction.expr s fault (Nat.lt_succ_self _) h

theorem readAll_error {s : List Char} {fault : Fault} (h : readAll s = .error fault) :
    BreaksOff IsExpr s fault ∨ ∃ p r f, s = p ++ r ∧ fault = .unexpected r ∧ IsExpr p f := by
  unfold readAll at h
  split at h
  · next hs =>
    cases h
    exact .inl (readOr_breaksOff hs)
  · cases h
  · next f r hr hne hs =>
    cases h
    obtain ⟨p, hp, hf⟩ := isExpr_of_yields ⟨⟨r, hr⟩, hs, rfl⟩
    exact .inr ⟨p, r, f, hp, rfl, hf⟩

/-! ### The position in the wording -/

/-- The beginnings of the errors that say what is missing. -/
def missingWords : List String := ["missing ')' ", "expected column ", "expected comparison sign "]

/-- The words for what is unexpected. -/
def unexpectedWords (rest : String) : String := "unexpected '" ++ rest ++ "' "

/-- An error in a text, in words, points at the byte `p`. -/
inductive PointsAt (text : List Char) (p : ℕ) : String → Prop
  | missing {words : String} (h : words ∈ missingWords) :
      PointsAt text p (words ++ Cursor.place text p)
  | unexpected (rest : String) : PointsAt text p (unexpectedWords rest ++ Cursor.place text p)

theorem toList_place (text : List Char) (p : ℕ) :
    (Cursor.place text p).toList =
      "at position".toList ++ ' ' :: (toString p).toList ++ (" in ".toList ++ text) := by
  have hplace : Cursor.place text p =
      "at position " ++ toString p ++ " in " ++ String.ofList text := rfl
  rw [hplace]
  simp

/-- A number at the end of a text can be told from it if a blank stands before the number. -/
theorem eq_of_append_toString_eq {a b : List Char} {p q : ℕ}
    (h : a ++ ' ' :: (toString p).toList = b ++ ' ' :: (toString q).toList) : p = q := by
  have hdigits : ∀ (a : List Char) (n : ℕ), ((a ++ ' ' :: (toString n).toList).reverse.takeWhile
      Char.isDigit).reverse = (toString n).toList := by
    intro a n
    have hall : ∀ c ∈ (toString n).toList.reverse, c.isDigit = true := by
      intro c hc
      by_contra hdigit
      exact QueryString.not_mem_toString (by simpa using hdigit) n (List.mem_reverse.1 hc)
    rw [List.reverse_append, List.reverse_cons, List.append_assoc,
      List.takeWhile_append_of_pos hall, List.singleton_append,
      List.takeWhile_cons_of_neg (by decide), List.append_nil, List.reverse_reverse]
  have htext := hdigits a p
  rw [h, hdigits b q] at htext
  exact QueryString.toString_injective (String.toList_inj.1 htext.symm)

/-- The position can be told from an error in a known text, whatever stands before it. -/
theorem eq_of_append_place_eq {a b : String} {text : List Char} {p q : ℕ}
    (h : a ++ Cursor.place text p = b ++ Cursor.place text q) : p = q := by
  have hlist := congrArg String.toList h
  rw [String.toList_append, String.toList_append, toList_place, toList_place, ← List.append_assoc,
    ← List.append_assoc b.toList] at hlist
  have hnumber := List.append_cancel_right hlist
  rw [← List.append_assoc, ← List.append_assoc b.toList] at hnumber
  exact eq_of_append_toString_eq hnumber

theorem PointsAt.eq_position {a : String} {text : List Char} {p q : ℕ}
    (h : PointsAt text q (a ++ Cursor.place text p)) : q = p := by
  generalize hreason : a ++ Cursor.place text p = reason at h
  cases h with
  | missing h => exact eq_of_append_place_eq hreason.symm
  | unexpected rest => exact eq_of_append_place_eq hreason.symm

theorem message_of_missing {fault : Fault} {r : List Char} (text : List Char)
    (h : fault.missing? = some r) :
    ∃ words ∈ missingWords, fault.message text = words ++ Cursor.place text (position text r) := by
  cases fault with
  | unclosed rest | noColumn rest | noSign rest =>
    cases h
    exact ⟨_, by simp [missingWords], rfl⟩
  | unexpected rest | undecodable raw fault => cases h

theorem head?_missing {words : String} (h : words ∈ missingWords) (a : String) :
    (words ++ a).toList.head? = some 'm' ∨ (words ++ a).toList.head? = some 'e' := by
  simp only [missingWords, List.mem_cons, List.not_mem_nil, or_false] at h
  rcases h with rfl | rfl | rfl <;> simp

theorem missing_append_ne_unexpected {words : String} (h : words ∈ missingWords)
    (a rest b : String) : words ++ a ≠ unexpectedWords rest ++ b := by
  intro heq
  have hhead := head?_missing h a
  rw [heq] at hhead
  simp [unexpectedWords] at hhead

theorem not_pointsAt_undecodable (text : List Char) (p : ℕ) (raw what : String) :
    ¬ PointsAt text p ("invalid percent-encoding in " ++ raw ++ ": " ++ what) := by
  intro h
  have hhead : ("invalid percent-encoding in " ++ raw ++ ": " ++ what).toList.head? = some 'i' := by
    simp
  generalize "invalid percent-encoding in " ++ raw ++ ": " ++ what = reason at h hhead
  cases h with
  | missing h =>
    have hmissing := head?_missing h (Cursor.place text p)
    rw [hhead] at hmissing
    simp at hmissing
  | unexpected rest => simp [unexpectedWords] at hhead

/-! ### The parser -/

theorem exists_fault_of_parse_eq_error {s : String} {error : QueryError}
    (h : parse s = .error error) :
    ∃ fault, readAll (trim s.toList) = .error fault ∧
      error = .unreadableFilter (fault.message (trim s.toList)) := by
  rw [parse] at h
  split at h
  · cases h
  · next fault hread => exact ⟨fault, hread, (Except.error.inj h).symm⟩

/-- The position `p` is a boundary of the text, and what stands before it can be completed to a text
that the parser accepts. -/
structure IsViable (text : List Char) (p : ℕ) (before : List Char) : Prop where
  le_size : p ≤ Utf8.size text
  isBoundary : Utf8.isBoundary text p = true
  slice : Utf8.slice? text 0 p = some before
  completes : ∃ w f, parse (String.ofList (before ++ w)) = .ok f

theorem isViable_append {p r w : List Char} {f : Filter} (h : IsExpr (p ++ w) f) :
    IsViable (p ++ r) (Utf8.size p) p where
  le_size := by
    rw [Utf8.size_append]
    exact Nat.le_add_right ..
  isBoundary := Utf8.isBoundary_size p r
  slice := Utf8.slice?_zero_append p r
  completes := ⟨w, f, parse_of_isExpr h⟩

/-- **Errors point at the fault.**  A text that is refused has an error with a position in it, or
one about a value that cannot be decoded.  The position lies on a boundary of the trimmed text, at
its end at the latest; what stands before it is the beginning of a text that is accepted, and is
accepted itself if what follows is unexpected. -/
theorem parse_error_viable {s : String} {error : QueryError} (h : parse s = .error error) :
    ∃ reason, error = .unreadableFilter reason ∧
      ((∃ p, PointsAt (trim s.toList) p reason) ∨ ∃ (raw : String) (fault : Utf8.Fault),
        reason = "invalid percent-encoding in " ++ raw ++ ": " ++ fault.message) ∧
      ∀ p, PointsAt (trim s.toList) p reason → ∃ before, IsViable (trim s.toList) p before ∧
        ∀ rest, reason = unexpectedWords rest ++ Cursor.place (trim s.toList) p →
          ∃ f, parse (String.ofList before) = .ok f := by
  obtain ⟨fault, hread, rfl⟩ := exists_fault_of_parse_eq_error h
  refine ⟨_, rfl, ?_⟩
  generalize trim s.toList = text at hread
  rcases readAll_error hread with hbreaks | ⟨p, r, f, rfl, rfl, hf⟩
  · cases hbreaks with
    | undecodable raw fault =>
      exact ⟨.inr ⟨String.ofList raw, fault, rfl⟩, fun q hq =>
        absurd hq (not_pointsAt_undecodable text q (String.ofList raw) fault.message)⟩
    | @missing p r w f fault hs hfault hf =>
      subst hs
      obtain ⟨words, hwords, hmessage⟩ := message_of_missing (p ++ r) hfault
      rw [hmessage, Cursor.position_append]
      refine ⟨.inl ⟨_, .missing hwords⟩, fun q hq => ?_⟩
      obtain rfl := hq.eq_position
      exact ⟨p, isViable_append hf, fun rest hrest =>
        absurd hrest (missing_append_ne_unexpected hwords _ rest _)⟩
  · have hmessage : Fault.message (p ++ r) (.unexpected r) =
        unexpectedWords (String.ofList r) ++ Cursor.place (p ++ r) (Utf8.size p) := by
      rw [← Cursor.position_append p r]
      rfl
    rw [hmessage]
    refine ⟨.inl ⟨_, .unexpected _⟩, fun q hq => ?_⟩
    obtain rfl := hq.eq_position
    have hwhole : IsExpr (p ++ []) f := by rwa [List.append_nil]
    exact ⟨p, isViable_append hwhole, fun rest _ => ⟨f, parse_of_isExpr hf⟩⟩

/-- A parenthesis that nothing opens, behind a letter of two bytes; and a column without a sign. -/
theorem parse_error_viable_accent :
    (parse " é=1)b" = .error (.unreadableFilter "unexpected ')b' at position 4 in é=1)b") ∧
      IsViable "é=1)b".toList 4 "é=1".toList ∧ ∃ f, parse "é=1" = .ok f) ∧
    parse "!(é" = .error (.unreadableFilter "expected comparison sign at position 4 in !(é") ∧
      IsViable "!(é".toList 4 "!(é".toList := by
  have htrim : trim " é=1)b".toList = "é=1".toList ++ ")b".toList := by decide
  have htrim' : trim "!(é".toList = "!(é".toList ++ [] := by decide
  have hterm := @IsTerm.comparison "é".toList "1".toList "1".toList .equal (by decide) (by decide)
    (by decide) (by decide)
  have hread := yields_of_isExpr hterm.isExpr (stops_cons (r := ['b']) (by decide : ')' ∈ exprEnds))
  have hread' : readAll (trim "!(é".toList) = .error (.noSign []) := by cbv
  have herror : parse " é=1)b" =
      .error (.unreadableFilter "unexpected ')b' at position 4 in é=1)b") := by
    refine (parse_eq_error_of_yields (c := ')') (r := ['b']) (htrim ▸ hread)).trans ?_
    decide
  have herror' : parse "!(é" =
      .error (.unreadableFilter "expected comparison sign at position 4 in !(é") := by
    rw [parse, hread']
    decide
  obtain ⟨reason, hreason, -, hviable⟩ := parse_error_viable herror
  obtain ⟨reason', hreason', -, hviable'⟩ := parse_error_viable herror'
  cases hreason
  cases hreason'
  rw [htrim] at hviable
  rw [htrim'] at hviable'
  obtain ⟨before, hbefore, hwhole⟩ := hviable 4 (.unexpected ")b")
  have hpoints := @PointsAt.missing "!(é".toList 4 "expected comparison sign " (by decide)
  obtain ⟨before', hbefore', -⟩ := hviable' 4 hpoints
  have hslice := Utf8.slice?_zero_append "é=1".toList ")b".toList
  have hslice' := Utf8.slice?_zero_append "!(é".toList []
  obtain rfl : "é=1".toList = before := Option.some.inj (hslice.symm.trans hbefore.slice)
  obtain rfl : "!(é".toList = before' := Option.some.inj (hslice'.symm.trans hbefore'.slice)
  exact ⟨⟨herror, hbefore, hwhole ")b" (by decide)⟩, herror', hbefore'⟩

end Filter

end NodeInventory
