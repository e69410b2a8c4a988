import NodeInventory.Proofs.Filter.Printed

/-!
# Encoded values in a filter

Values may be put into a filter with the encoder of request parameters (`Percent.encode`), which
leaves the unreserved characters as they are.  All of them but one stand for themselves in a value:
a `~` is a sign, at which the value ends.

* `Filter.spells_isPlain_encode` : without a `~` the encoder writes a value as filters are printed;
* `Filter.yields_readOr_comparison` : a comparison is read up to a sign in its value;
* `Filter.parse_encoded_value` : an encoded value is read back if it has no `~`, and the text is
  refused at the first `~` of the value if it has one.
-/

namespace NodeInventory

namespace Filter

open Text

/-! ### What the encoder writes -/

theorem isPlain_of_isUnreserved {c : Char} (h : Percent.isUnreserved c = true) (hc : c ≠ '~') :
    isPlain c = true := by
  simpa [Percent.isUnreserved, isPlain, hc] using h

/-- Without a `~` the encoder leaves plain characters alone. -/
theorem spells_isPlain_encode {s : List Char} (h : '~' ∉ s) :
    Percent.Spells isPlain (Percent.encode s) (Utf8.encode s) := by
  induction s with
  | nil => exact .nil
  | cons c s ih =>
    have hc : c ≠ '~' := fun heq => h (heq ▸ List.mem_cons_self)
    have hs : '~' ∉ s := fun hmem => h (List.mem_cons_of_mem c hmem)
    rw [Percent.encode, List.flatMap_cons, Utf8.encode_cons, Percent.encodeChar]
    split
    · next hunreserved =>
      exact .char (isPlain_of_isUnreserved hunreserved hc) (ih hs)
    · exact (Percent.spells_flatMap_encodeByte _ _).append (ih hs)

theorem isBlank_of_mem_encode {s : List Char} {c : Char} (hc : c ∈ Percent.encode s) :
    isBlank c = false := by
  rcases Percent.mem_encode hc with h | rfl
  · simp only [Percent.isUnreserved, Bool.or_eq_true, decide_eq_true_eq] at h
    rcases h with (((halphanum | rfl) | rfl) | rfl) | rfl
    · exact isBlank_of_isAlphanum halphanum
    all_goals decide
  · decide

theorem encode_append_tilde (p q : List Char) :
    Percent.encode (p ++ '~' :: q) = Percent.encode p ++ '~' :: Percent.encode q := by
  rw [Percent.encode, List.flatMap_append, List.flatMap_cons]
  rfl

/-! ### Texts of one comparison -/

/-- A whole filter is a comparison alone if a sign follows that cannot be the second half of the one
before it. -/
theorem yields_readOr_comparison {w w' v r : List Char} (sign : Sign) (hw : IsWord w)
    (hw' : IsWord w') (hcolumn : trim w ≠ [])
    (hvalue : Percent.decodeBytes (trim w') = Utf8.encode v) (hr : Stops ['<', '>', '~'] r) :
    Yields (readOr (w ++ (sign.token.toList ++ (w' ++ r))))
      (.comparison sign (String.ofList (trim w)) (.string (String.ofList v))) r := by
  have hread : Yields (readComparison (w ++ (sign.token.toList ++ (w' ++ r)))) _ r :=
    yields_readComparison hw hw' hcolumn hvalue (hr.mono (by decide)) (hr.head_ne (by decide))
  rw [← readTerm_eq_readComparison (head_ne_of_isWord hw hcolumn (by decide))
    (head_ne_of_isWord hw hcolumn (by decide))] at hread
  have hand := yields_readAnd_iff.2 ⟨_, r, [], hread,
    ⟨_, readMoreAnd_of_head (hr.head_ne (by decide)), rfl⟩, rfl⟩
  exact yields_readOr_iff.2 ⟨_, r, [], hand,
    ⟨_, readMoreOr_of_head (hr.head_ne (by decide)), rfl⟩, rfl⟩

theorem trim_comparison {column value : List Char} (sign : Sign) (hcolumn : trim column = column)
    (hvalue : ∀ c ∈ value, isBlank c = false) :
    trim (column ++ (sign.token.toList ++ value)) = column ++ (sign.token.toList ++ value) := by
  have hend := trimEnd_append_of_forall hvalue []
  rw [List.append_nil] at hend
  rw [trim, trimStart_append_token, trimStart_of_trim hcolumn, trimEnd_append_token, hend]
  exact congrArg _ (congrArg _ (List.append_nil value))

theorem yields_encoded_value {column : String} {p r : List Char} (sign : Sign)
    (hcolumn : IsColumn column.toList) (hp : '~' ∉ p) (hr : Stops ['<', '>', '~'] r) :
    Yields (readOr (column.toList ++ (sign.token.toList ++ (Percent.encode p ++ r))))
      (.comparison sign column (.string (String.ofList p))) r := by
  obtain ⟨hne, htrim, hword⟩ := hcolumn
  have hspells := spells_isPlain_encode hp
  have hword' : IsWord (Percent.encode p) :=
    fun _ hc => (not_blank_not_special_of_spells hspells hc).2
  have hvalue : Percent.decodeBytes (trim (Percent.encode p)) = Utf8.encode p := by
    rw [trim_of_forall fun _ => isBlank_of_mem_encode]
    exact Percent.decodeBytes_of_spells (by decide) hspells
  have h := yields_readOr_comparison sign hword hword' (by rwa [htrim]) hvalue hr
  rwa [htrim, String.ofList_toList] at h

theorem toList_encoded_value (column v : String) (sign : Sign) :
    (column ++ sign.token ++ Percent.encodeString v).toList =
      column.toList ++ (sign.token.toList ++ Percent.encode v.toList) := by
  rw [String.toList_append, String.toList_append, List.append_assoc, Percent.encodeString,
    String.toList_ofList]

/-- A value without a `~` is read back from its encoded form.  At the first `~` of any other value
the text is refused, as if another sign began there. -/
theorem parse_encoded_value (column v : String) (sign : Sign) (hcolumn : IsColumn column.toList) :
    ('~' ∉ v.toList → parse (column ++ sign.token ++ Percent.encodeString v) =
        .ok (.comparison sign column (.string v))) ∧
      ∀ p q, v.toList = p ++ '~' :: q → '~' ∉ p →
        parse (column ++ sign.token ++ Percent.encodeString v) =
          .error (.unreadableFilter (Fault.message
            (column ++ sign.token ++ Percent.encodeString v).toList
            (.unexpected ('~' :: Percent.encode q)))) := by
  have htext := toList_encoded_value column v sign
  have htrim : trim (column ++ sign.token ++ Percent.encodeString v).toList =
      (column ++ sign.token ++ Percent.encodeString v).toList := by
    rw [htext]
    exact trim_comparison sign hcolumn.2.1 fun _ => isBlank_of_mem_encode
  constructor
  · intro hv
    have hread := yields_encoded_value sign hcolumn hv (stops_nil _)
    rwa [List.append_nil, ← htext, ← htrim, ← parse_eq_ok_iff_yields, String.ofList_toList] at hread
  · intro p q hv hp
    have hread := yields_encoded_value sign hcolumn hp
      (stops_cons (r := Percent.encode q) (c := '~') (by decide))
    rw [← encode_append_tilde, ← hv, ← htext, ← htrim] at hread
    have hparse := parse_eq_error_of_yields hread
    rwa [htrim] at hparse

/-- A value with letters that are encoded, and one with a `~` in it. -/
theorem parse_encoded_value_title :
    IsColumn "title".toList ∧
      parse "title~%C3%A9t%C3%A9" = .ok (.comparison .matching "title" (.string "été")) ∧
      parse "title=%2Fhome%2F~ana" = .error (.unreadableFilter
        (Fault.message "title=%2Fhome%2F~ana".toList (.unexpected "~ana".toList))) := by
  have hcolumn : IsColumn "title".toList := ⟨by decide, by decide, by decide⟩
  have hletters := (parse_encoded_value "title" "été" .matching hcolumn).1 (by decide)
  have htilde := (parse_encoded_value "title" "/home/~ana" .equal hcolumn).2 "/home/".toList
    "ana".toList (by decide) (by decide)
  have hleft : "title" ++ Sign.matching.token ++ Percent.encodeString "été" =
      "title~%C3%A9t%C3%A9" := by decide
  have hright : "title" ++ Sign.equal.token ++ Percent.encodeString "/home/~ana" =
      "title=%2Fhome%2F~ana" := by decide
  rw [hleft] at hletters
  rw [hright] at htilde
  exact ⟨hcolumn, hletters, htilde⟩

/-- The encoder leaves a `~` as it is, so a value that is one is not read back. -/
theorem parse_encoded_tilde_ne_ok :
    IsColumn "title".toList ∧ parse ("title" ++ Sign.equal.token ++ Percent.encodeString "~") ≠
      .ok (.comparison .equal "title" (.string "~")) := by
  have hcolumn : IsColumn "title".toList := ⟨by decide, by decide, by decide⟩
  refine ⟨hcolumn, fun hok => ?_⟩
  have hread := yields_encoded_value .equal hcolumn (p := []) (r := ['~']) nofun
    (stops_cons (by decide))
  have htext : "title".toList ++ (Sign.equal.token.toList ++ (Percent.encode [] ++ ['~'])) =
      trim ("title" ++ Sign.equal.token ++ Percent.encodeString "~").toList := by decide
  rw [htext] at hread
  rw [parse_eq_error_of_yields hread] at hok
  cases hok

end Filter

end NodeInventory
