import NodeInventory.Proofs.Json.Merge
import NodeInventory.Proofs.Json.RoundTrip
import NodeInventory.Rows

/-!
# JSON in a string

A string holds JSON if it stands between the marks of an object, of an array or of a string, and is
such a value from the first mark to the last.  `Fact.unwrap` takes these values out of their
strings, and leaves all else alone.

* `Json.Written.suffix_of_reads` : a reader leaves the end of the text, by induction on its length;
* `Json.Written.marks?_of_reads`, `Json.marks?_of_parse` : a text that begins with a mark is a value
  of its kind, if it is one;
* `Fact.isBetween_text` : the text of an object, an array or a string stands between its marks;
* `Fact.unwrap_exact` : which strings are unwrapped, and to what.
-/

namespace NodeInventory

namespace Json

/-! ### What a reader leaves -/

theorem suffix_of_readPieces {s r : List Char} {pieces : List Piece}
    (h : readPieces s = some (pieces, r)) : r <:+ s := by
  fun_induction readPieces s generalizing pieces r with
  | case1 | case4 | case6 | case7 | case9 => cases h
  | case2 t =>
    cases h
    exact List.suffix_cons _ _
  | case3 a b c d t u pieces' r' hread hhex ih =>
    cases h
    exact (ih hread).trans ⟨['\\', 'u', a, b, c, d], rfl⟩
  | case5 e t hne c pieces' r' hread hescape ih =>
    cases h
    exact (ih hread).trans ⟨['\\', e], rfl⟩
  | case8 c t _ _ _ _ pieces' r' hread ih =>
    cases h
    exact (ih hread).trans (List.suffix_cons _ _)

theorem suffix_of_afterWord? {word s r : List Char} (h : afterWord? word s = some r) : r <:+ s := by
  induction word generalizing s with
  | nil =>
    cases h
    exact List.suffix_rfl
  | cons w word ih =>
    cases s with
    | nil => cases h
    | cons c s =>
      rw [afterWord?] at h
      split at h
      · exact (ih h).trans (List.suffix_cons _ _)
      · cases h

theorem suffix_of_readScalar {s r : List Char} {w : Written} (h : readScalar s = some (w, r)) :
    r <:+ s := by
  unfold readScalar at h
  split at h
  · next hword =>
    cases h
    exact suffix_of_afterWord? hword
  · next hword _ =>
    cases h
    exact suffix_of_afterWord? hword
  · next hword _ _ =>
    cases h
    exact suffix_of_afterWord? hword
  · obtain ⟨⟨n, t⟩, hnumeral, ht⟩ := Option.map_eq_some_iff.1 h
    cases ht
    exact (readNumeral_append (r := []) (by simp [EndsValue]) hnumeral).1

theorem suffix_of_skipSpace {s t : List Char} {c : Char} (h : skipSpace s = c :: t) : t <:+ s :=
  (List.suffix_cons c t).trans (h ▸ List.dropWhile_suffix _)

namespace Written

/-- What is left of `s`, if anything is read, is the end of `s`. -/
def LeavesEnd {α : Type} {s : List Char} (x : Option (α × Rest s)) : Prop :=
  ∀ a t, x = some (a, t) → t.1 <:+ s

theorem leavesEnd_read {s : List Char}
    (harray : ∀ t : List Char, t.length < s.length → LeavesEnd (readArray t))
    (hobject : ∀ t : List Char, t.length < s.length → LeavesEnd (readObject t)) :
    LeavesEnd (read s) := by
  intro w t h
  rw [read.eq_def] at h
  split at h
  · cases h
  · next c u hs =>
    have hu := suffix_of_skipSpace hs
    have hlt := length_lt_of_skipSpace hs
    dsimp only at h
    split at h
    · split at h
      · next hp =>
        cases h
        exact (suffix_of_readPieces hp).trans hu
      · cases h
    split at h
    · split at h
      · next r hr =>
        cases h
        exact (harray u hlt _ r hr).trans hu
      · cases h
    split at h
    · split at h
      · next r hr =>
        cases h
        exact (hobject u hlt _ r hr).trans hu
      · cases h
    split at h
    · next hv =>
      cases h
      exact (suffix_of_readScalar hv).trans (hs ▸ List.dropWhile_suffix _)
    · cases h

theorem leavesEnd_readItems {s : List Char} (hread : LeavesEnd (read s))
    (hitems : ∀ t : List Char, t.length < s.length → LeavesEnd (readItems t)) :
    LeavesEnd (readItems s) := by
  intro ws t h
  rw [readItems.eq_def] at h
  split at h
  · cases h
  · next w u hu hw =>
    have hsuffix : u <:+ s := hread w ⟨u, hu⟩ hw
    split at h
    · next v hv =>
      dsimp only at h
      split at h
      · next r hr =>
        cases h
        exact ((hitems v (Nat.lt_trans (length_lt_of_skipSpace hv) hu) _ r hr).trans
          (suffix_of_skipSpace hv)).trans hsuffix
      · cases h
    · next r hr =>
      cases h
      exact (suffix_of_skipSpace hr).trans hsuffix
    · cases h

theorem leavesEnd_readArray {s : List Char} (hitems : LeavesEnd (readItems s)) :
    LeavesEnd (readArray s) := by
  intro ws t h
  rw [readArray.eq_def] at h
  split at h
  · next hs =>
    cases h
    exact suffix_of_skipSpace hs
  · exact hitems ws t h

theorem leavesEnd_readFields {s : List Char}
    (hread : ∀ t : List Char, t.length < s.length → LeavesEnd (read t))
    (hfields : ∀ t : List Char, t.length < s.length → LeavesEnd (readFields t)) :
    LeavesEnd (readFields s) := by
  intro ws t h
  rw [readFields.eq_def] at h
  split at h
  · next u hu =>
    split at h
    · cases h
    · next key v hkey =>
      split at h
      · next x hx =>
        -- the value stands behind the key and a colon
        have hlt : x.length < s.length := Nat.lt_trans (length_lt_of_skipSpace hx)
          (Nat.lt_trans (length_lt_of_readPieces hkey) (length_lt_of_skipSpace hu))
        have hxs : x <:+ s := (suffix_of_skipSpace hx).trans
          ((suffix_of_readPieces hkey).trans (suffix_of_skipSpace hu))
        split at h
        · cases h
        · next w y hy hw =>
          have hys : y <:+ s := (hread x hlt w ⟨y, hy⟩ hw).trans hxs
          split at h
          · next z hz =>
            dsimp only at h
            split at h
            · next r hr =>
              cases h
              exact ((hfields z (Nat.lt_trans (length_lt_of_skipSpace hz) (Nat.lt_trans hy hlt)) _ r
                hr).trans (suffix_of_skipSpace hz)).trans hys
            · cases h
          · next r hr =>
            cases h
            exact (suffix_of_skipSpace hr).trans hys
          · cases h
      · cases h
  · cases h

theorem leavesEnd_readObject {s : List Char} (hfields : LeavesEnd (readFields s)) :
    LeavesEnd (readObject s) := by
  intro ws t h
  rw [readObject.eq_def] at h
  split at h
  · next hs =>
    cases h
    exact suffix_of_skipSpace hs
  · exact hfields ws t h

theorem leavesEnd (n : ℕ) : ∀ s : List Char, s.length < n →
    LeavesEnd (read s) ∧ LeavesEnd (readItems s) ∧ LeavesEnd (readFields s) := by
  induction n with
  | zero => exact fun s hs => absurd hs (Nat.not_lt_zero _)
  | succ n ih =>
    intro s hs
    have hshorter : ∀ t : List Char, t.length < s.length → t.length < n := fun t ht => by omega
    have hread : LeavesEnd (read s) := leavesEnd_read
      (fun t ht => leavesEnd_readArray (ih t (hshorter t ht)).2.1)
      (fun t ht => leavesEnd_readObject (ih t (hshorter t ht)).2.2)
    exact ⟨hread, leavesEnd_readItems hread fun t ht => (ih t (hshorter t ht)).2.1,
      leavesEnd_readFields (fun t ht => (ih t (hshorter t ht)).1)
        fun t ht => (ih t (hshorter t ht)).2.2⟩

theorem suffix_of_reads {s r : List Char} {w : Written} (h : Reads s w r) : r <:+ s := by
  obtain ⟨t, h, rfl⟩ := h
  exact (leavesEnd (s.length + 1) s (Nat.lt_succ_self _)).1 w t h

end Written

/-! ### The marks of a value -/

/-- The marks between which a value is written, if there are any. -/
def marks? : Json → Option (Char × Char)
  | .object _ => some ('{', '}')
  | .array _ => some ('[', ']')
  | .string _ => some ('"', '"')
  | _ => none

/-- The marks between which a value stands in a text, if there are any. -/
def Written.marks? : Written → Option (Char × Char)
  | .object _ => some ('{', '}')
  | .array _ => some ('[', ']')
  | .string _ => some ('"', '"')
  | _ => none

theorem marks?_mem {v : Json} {marks : Char × Char} (h : v.marks? = some marks) :
    marks ∈ Fact.jsonMarks := by
  cases v <;> cases h <;> decide

/-- A text that begins with a mark is a value of its kind. -/
theorem Written.marks?_of_reads {s r : List Char} {w : Written} {marks : Char × Char}
    (hmarks : marks ∈ Fact.jsonMarks) (h : Reads (marks.1 :: s) w r) : w.marks? = some marks := by
  have hspace : skipSpace (marks.1 :: s) = marks.1 :: s := by
    have hall : ∀ marks ∈ Fact.jsonMarks, isSpace marks.1 = false := by decide
    exact List.dropWhile_cons_of_neg (by simp [hall marks hmarks])
  obtain ⟨t, h, -⟩ := h
  rw [read.eq_def] at h
  split at h
  · cases h
  · next c u hs =>
    obtain ⟨rfl, rfl⟩ : marks.1 = c ∧ s = u := by simpa [hspace] using hs
    dsimp only at h
    simp only [Fact.jsonMarks, List.mem_cons, List.not_mem_nil, or_false] at hmarks
    rcases hmarks with rfl | rfl | rfl
    · rw [if_neg (by decide), if_neg (by decide), if_pos rfl] at h
      split at h <;> cases h
      rfl
    · rw [if_neg (by decide), if_pos rfl] at h
      split at h <;> cases h
      rfl
    · rw [if_pos rfl] at h
      split at h <;> cases h
      rfl

theorem marks?_of_value? {w : Written} {room : ℕ} {v : Json} (h : w.value? room = some v) :
    v.marks? = w.marks? := by
  cases w with
  | null | bool | number | string =>
    simp only [Written.value?, Option.map_eq_some_iff, Option.some.injEq] at h
    grind [marks?, Written.marks?]
  | array items | object fields =>
    cases room with
    | zero => cases h
    | succ room =>
      obtain ⟨_, -, rfl⟩ := Option.map_eq_some_iff.1 h
      rfl

theorem marks?_mergeKeys (v : Json) : v.mergeKeys.marks? = v.marks? := by
  cases v <;> rfl

/-- A text that is a value and begins with a mark is a value of that kind. -/
theorem marks?_of_parse {s : String} {v : Json} {marks : Char × Char} {t : List Char}
    (hmarks : marks ∈ Fact.jsonMarks) (hs : s.toList = marks.1 :: t) (h : parse s = some v) :
    v.marks? = some marks := by
  obtain ⟨w, hw, h⟩ := Option.bind_eq_some_iff.1 h
  obtain ⟨u, hu, h⟩ := Option.bind_eq_some_iff.1 h
  cases h
  obtain ⟨r, hprefix, -⟩ := Written.readPrefix_of_parse hw
  have hreads := Written.reads_of_readPrefix hprefix
  rw [hs] at hreads
  rw [marks?_mergeKeys, marks?_of_value? hu, Written.marks?_of_reads hmarks hreads]

/-! ### Printed values -/

theorem exists_writeItems (items : List Json) : ∃ m, writeItems items = m ++ [']'] := by
  induction items with
  | nil => exact ⟨[], rfl⟩
  | cons v items ih =>
    obtain ⟨m, hm⟩ := ih
    exact ⟨',' :: (v.write ++ m), by simp [writeItems, hm]⟩

theorem exists_writeFields (fields : List (String × Json)) :
    ∃ m, writeFields fields = m ++ ['\x7d'] := by
  induction fields with
  | nil => exact ⟨[], rfl⟩
  | cons f fields ih =>
    obtain ⟨k, v⟩ := f
    obtain ⟨m, hm⟩ := ih
    exact ⟨',' :: (writeString k ++ ':' :: (v.write ++ m)), by simp [writeFields, hm]⟩

end Json

namespace Fact

open Json (marks?)

/-- A text stands between two marks. -/
def IsBetween (marks : Char × Char) (s : List Char) : Prop := ∃ m, s = marks.1 :: (m ++ [marks.2])

theorem isBetween_iff {marks : Char × Char} {s : List Char} :
    IsBetween marks s ↔ 2 ≤ s.length ∧ s.head? = some marks.1 ∧ s.getLast? = some marks.2 := by
  constructor
  · rintro ⟨m, rfl⟩
    refine ⟨?_, rfl, ?_⟩
    · rw [List.length_cons, List.length_append]
      exact Nat.succ_le_succ (Nat.le_add_left ..)
    · rw [← List.cons_append, List.getLast?_concat]
  · rintro ⟨hlength, hhead, hlast⟩
    obtain ⟨t, rfl⟩ := List.head?_eq_some_iff.1 hhead
    rcases List.eq_nil_or_concat' t with rfl | ⟨m, c, rfl⟩
    · simp at hlength
    · rw [← List.cons_append, List.getLast?_concat, Option.some.injEq] at hlast
      exact ⟨m, by rw [hlast]⟩

theorem isWrapped_iff {s : List Char} :
    isWrapped s = true ↔ ∃ marks ∈ jsonMarks, IsBetween marks s := by
  simp only [isWrapped, isBetween_iff, Bool.and_eq_true, List.any_eq_true, decide_eq_true_eq]
  grind

/-- What is printed of an object, an array or a string stands between its marks. -/
theorem isBetween_text {v : Json} {marks : Char × Char} (h : v.marks? = some marks) :
    IsBetween marks v.text.toList := by
  have htext : v.text.toList = v.write := String.toList_ofList
  rw [htext]
  cases v with
  | null | bool | number => cases h
  | string s =>
    cases h
    exact ⟨s.toList.flatMap Json.writeChar, rfl⟩
  | array items =>
    cases h
    cases items with
    | nil => exact ⟨[], rfl⟩
    | cons v items =>
      obtain ⟨m, hm⟩ := Json.exists_writeItems items
      exact ⟨v.write ++ m, by simp [Json.write, hm]⟩
  | object fields =>
    cases h
    cases fields with
    | nil => exact ⟨[], rfl⟩
    | cons f fields =>
      obtain ⟨k, v⟩ := f
      obtain ⟨m, hm⟩ := Json.exists_writeFields fields
      exact ⟨Json.writeString k ++ ':' :: (v.write ++ m), by simp [Json.write, hm]⟩

/-! ### What is unwrapped -/

theorem unwrap_of_parse {s : String} {v : Json} {marks : Char × Char} (hmarks : marks ∈ jsonMarks)
    (hs : IsBetween marks s.toList) (h : Json.parse s = some v) : unwrap (.string s) = v := by
  rw [unwrap, if_pos (isWrapped_iff.2 ⟨marks, hmarks, hs⟩), h]
  rfl

theorem unwrap_of_not_isBetween {s : String} (h : ∀ marks ∈ jsonMarks, ¬ IsBetween marks s.toList) :
    unwrap (.string s) = .string s := by
  refine if_neg fun hs => ?_
  obtain ⟨marks, hmarks, hs⟩ := isWrapped_iff.1 hs
  exact h marks hmarks hs

theorem unwrap_of_parse_eq_none {s : String} (h : Json.parse s = none) :
    unwrap (.string s) = .string s := by
  rw [unwrap, h]
  exact ite_self _

theorem parse_text {v : Json} (hdepth : v.depth ≤ 127) (hnumbers : ∀ n ∈ v.numbers, n.IsPreserved)
    (hkeys : v.DistinctKeys) : Json.parse v.text = some v := by
  obtain ⟨w, hw, hv⟩ := Json.exists_parse_text hnumbers hdepth
  rw [Json.parse, hw]
  simp [hv, Json.mergeKeys_of_distinctKeys v hkeys]

/-- A text between marks is not read as the value at its front if something stands behind that: what
is left ends with a mark, which is no blank. -/
theorem parse_eq_none_of_readPrefix {s : String} {w : Json.Written} {r : List Char}
    {marks : Char × Char} (hmarks : marks ∈ jsonMarks) (hs : IsBetween marks s.toList)
    (h : Json.Written.readPrefix s = some (w, r)) (hr : r ≠ []) : Json.parse s = none := by
  have hlast : r.getLast? = some marks.2 := by
    obtain ⟨p, hp⟩ := Json.Written.suffix_of_reads (Json.Written.reads_of_readPrefix h)
    rw [← (isBetween_iff.1 hs).2.2, ← hp, List.getLast?_append_of_ne_nil _ hr]
  have hmark : Json.isSpace marks.2 = false := by
    have hall : ∀ marks ∈ jsonMarks, Json.isSpace marks.2 = false := by decide
    exact hall marks hmarks
  have hspace : Json.skipSpace r ≠ [] := by
    intro hskip
    have hblank := List.dropWhile_eq_nil_iff.1 hskip _ (List.mem_of_getLast? hlast)
    rw [hmark] at hblank
    cases hblank
  rw [Json.parse, Json.Written.parse, h]
  simp [hspace]

/-- **Values are unwrapped if their string holds one, and nothing else is touched.**

* The text of an object, an array or a string is unwrapped to that value, if no more than 127
  containers are nested in it and its numbers are preserved.  No object in it names a field twice,
  as in any value that has been read (`Json.distinctKeys_of_parse`).
* A value that is no string stays as it is.
* A string stays as it is unless it stands between two marks and is JSON.
* Then it is unwrapped to the value that it is, and that is of the kind of the marks.
* A string that has anything behind the value at its front stays as it is. -/
theorem unwrap_exact :
    (∀ (v : Json) (marks : Char × Char), v.marks? = some marks → v.depth ≤ 127 →
        (∀ n ∈ v.numbers, n.IsPreserved) → v.DistinctKeys → unwrap (.string v.text) = v) ∧
      (∀ v : Json, (∀ s, v ≠ .string s) → unwrap v = v) ∧
      (∀ s : String, (∀ marks ∈ jsonMarks, ¬ IsBetween marks s.toList) ∨ Json.parse s = none →
        unwrap (.string s) = .string s) ∧
      (∀ (s : String) (marks : Char × Char) (v : Json), marks ∈ jsonMarks →
        IsBetween marks s.toList → Json.parse s = some v →
          unwrap (.string s) = v ∧ v.marks? = some marks) ∧
      ∀ (s : String) (w : Json.Written) (r : List Char), Json.Written.readPrefix s = some (w, r) →
        r ≠ [] → unwrap (.string s) = .string s := by
  refine ⟨fun v marks hmarks hdepth hnumbers hkeys => ?_, fun v hv => ?_, fun s hs => ?_,
    fun s marks v hmarks hs h => ?_, fun s w r h hr => ?_⟩
  · exact unwrap_of_parse (Json.marks?_mem hmarks) (isBetween_text hmarks)
      (parse_text hdepth hnumbers hkeys)
  · cases v with
    | string s => exact absurd rfl (hv s)
    | null | bool | number | array | object => rfl
  · exact hs.elim unwrap_of_not_isBetween unwrap_of_parse_eq_none
  · obtain ⟨m, hm⟩ := hs
    exact ⟨unwrap_of_parse hmarks ⟨m, hm⟩ h, Json.marks?_of_parse hmarks hm h⟩
  · by_cases hs : ∃ marks ∈ jsonMarks, IsBetween marks s.toList
    · obtain ⟨marks, hmarks, hs⟩ := hs
      exact unwrap_of_parse_eq_none (parse_eq_none_of_readPrefix hmarks hs h hr)
    · exact unwrap_of_not_isBetween fun marks hmarks hbetween => hs ⟨marks, hmarks, hbetween⟩

/-- A list is unwrapped; one mark alone is no pair of marks, and two lists are not one. -/
theorem unwrap_exact_list :
    unwrap (.string "[\"eth0\",-7]") = .array [.string "eth0", Json.ofInt (-7)] ∧
      unwrap (.string "\"") = .string "\"" ∧ unwrap (.string "[][]") = .string "[][]" := by
  have hseven : (Json.Number.integer (-7)).IsPreserved :=
    Json.Number.isPreserved_integer (by decide) (by decide)
  have htext : (Json.array [.string "eth0", Json.ofInt (-7)]).text = "[\"eth0\",-7]" := by decide
  have hlist := unwrap_exact.1 (.array [.string "eth0", Json.ofInt (-7)]) ('[', ']') rfl (by decide)
    (by simpa [Json.numbers, Json.numbersItems, Json.ofInt] using hseven)
    (by simp [Json.DistinctKeys, Json.DistinctKeysItems, Json.ofInt])
  rw [htext] at hlist
  have hquote : ∀ marks ∈ jsonMarks, ¬ IsBetween marks "\"".toList := by
    intro marks _ h
    have hlength := (isBetween_iff.1 h).1
    simp at hlength
  obtain ⟨t, hread, ht⟩ := Json.Written.reads_array (Json.Written.readArray_nil "[]".toList)
  have hprefix : Json.Written.readPrefix "[][]" = some (.array [], "[]".toList) := by
    rw [Json.Written.readPrefix, ← ht]
    exact congrArg _ hread
  exact ⟨hlist, unwrap_exact.2.2.1 _ (.inl hquote),
    unwrap_exact.2.2.2.2 _ _ _ hprefix (by decide)⟩

end Fact

end NodeInventory
