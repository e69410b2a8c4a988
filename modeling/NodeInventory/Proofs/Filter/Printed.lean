import NodeInventory.Proofs.Filter.Derivation
import NodeInventory.Proofs.Text.Percent

/-!
# Filters in print

The filters that can be written as text are those in normal form (`Filter.IsNormal`): a negation has
one child, any other chain two or more, and comparisons hold words.  Each of them has printed texts
(`Filter.Prints`), with chains under and and or in parentheses where they are children, values
percent-encoded, and blanks as one likes around the words.

* `Filter.IsExpr.isNormal` : what a text derives is in normal form;
* `Filter.Prints.isExpr` : a printed text derives the filter it prints, by recursion on the
  printing;
* `Filter.exists_prints` : every filter in normal form has a printed text;
* `Filter.parse_prints` : the parser returns just the filters in normal form, and reads each of them
  back from every printed text.
-/

namespace NodeInventory

namespace Filter

open Text

/-! ### Normal form -/

/-- A column that can be written: a word that is not empty, with no blanks at its ends. -/
def IsColumn (column : List Char) : Prop := column ≠ [] ∧ trim column = column ∧ IsWord column

/-- The numbers of children that a chain in normal form may have. -/
def Arity : Connective → ℕ → Prop
  | .not, n => n = 1
  | .and, n | .or, n => 2 ≤ n

mutual

/-- A filter in normal form: comparisons of a column with a text, negations of one filter, and
chains under and and or of two filters or more. -/
def IsNormal : Filter → Prop
  | .comparison _ column expression =>
    IsColumn column.toList ∧ ∃ value : String, expression = .string value
  | .chain op children => Arity op children.length ∧ AllNormal children

/-- Filters in normal form. -/
def AllNormal : List Filter → Prop
  | [] => True
  | f :: fs => IsNormal f ∧ AllNormal fs

end

theorem Arity.ne_nil {op : Connective} {fs : List Filter} (h : Arity op fs.length) : fs ≠ [] := by
  rintro rfl
  cases op <;> simp [Arity] at h

theorem collapse_of_two_le (op : Connective) {fs : List Filter} (h : 2 ≤ fs.length) :
    collapse op fs = .chain op fs := by
  match fs, h with
  | _ :: _ :: _, _ => rfl

theorem isNormal_collapse {op : Connective} (hop : op ≠ .not) {fs : List Filter} (hne : fs ≠ [])
    (h : AllNormal fs) : IsNormal (collapse op fs) := by
  match fs, h with
  | [f], h => exact h.1
  | f :: g :: fs, h =>
    cases op with
    | not => exact absurd rfl hop
    | and => exact ⟨by simp [Arity], h⟩
    | or => exact ⟨by simp [Arity], h⟩

theorem Separated.ne_nil {c : Char} {P : List Char → Filter → Prop} {s : List Char}
    {fs : List Filter} (h : Separated c P s fs) : fs ≠ [] := by
  cases h <;> exact List.cons_ne_nil _ _

/-! ### What a text derives is in normal form -/

mutual

theorem IsTerm.isNormal : ∀ {s : List Char} {f : Filter}, IsTerm s f → IsNormal f
  | _, _, .negation h => ⟨rfl, h.isNormal, trivial⟩
  | _, _, .parentheses h => h.isNormal
  | _, _, @IsTerm.comparison w _ _ _ hw _ hcolumn _ => by
    refine ⟨?_, _, rfl⟩
    rw [String.toList_ofList]
    exact ⟨hcolumn, trim_trim w, hw.subset (subset_trim w)⟩

theorem IsConjunction.isNormal :
    ∀ {s : List Char} {f : Filter}, IsConjunction s f → IsNormal f
  | _, _, .mk h => isNormal_collapse (by decide) h.ne_nil (allNormal_of_terms h)

theorem IsExpr.isNormal : ∀ {s : List Char} {f : Filter}, IsExpr s f → IsNormal f
  | _, _, .mk h => isNormal_collapse (by decide) h.ne_nil (allNormal_of_conjunctions h)

theorem allNormal_of_terms :
    ∀ {s : List Char} {fs : List Filter}, Separated '&' IsTerm s fs → AllNormal fs
  | _, _, .one h => ⟨h.isNormal, trivial⟩
  | _, _, .more h hs => ⟨h.isNormal, allNormal_of_terms hs⟩

theorem allNormal_of_conjunctions :
    ∀ {s : List Char} {fs : List Filter}, Separated '|' IsConjunction s fs → AllNormal fs
  | _, _, .one h => ⟨h.isNormal, trivial⟩
  | _, _, .more h hs => ⟨h.isNormal, allNormal_of_conjunctions hs⟩

end

theorem IsNormal.isEmpty_eq_false {f : Filter} (h : IsNormal f) : f.isEmpty = false := by
  match f, h with
  | .comparison .., _ => rfl
  | .chain _ (_ :: _), _ => rfl
  | .chain _ [], ⟨harity, _⟩ => exact absurd rfl harity.ne_nil

/-! ### Printed texts -/

/-- The characters of a value that need no percent-encoding: ASCII letters and digits, `-`, `.` and
`_`. -/
def isPlain (c : Char) : Bool := c.isAlphanum || c = '-' || c = '.' || c = '_'

/-- A chain under and or under or. -/
def isJunction : Filter → Bool
  | .chain .and _ | .chain .or _ => true
  | _ => false

mutual

/-- A text that prints a filter: a comparison with blanks around its words and its value
percent-encoded, a negation as `!` before its child, and any other chain as its children with the
character of the connective between them. -/
inductive Prints : List Char → Filter → Prop
  | comparison {a b c d value : List Char} {column v : String} {sign : Sign} (ha : AllBlank a)
      (hb : AllBlank b) (hc : AllBlank c) (hd : AllBlank d)
      (hvalue : Percent.Spells isPlain value (Utf8.encode v.toList)) :
      Prints (a ++ column.toList ++ b ++ sign.token.toList ++ c ++ value ++ d)
        (.comparison sign column (.string v))
  | negation {s : List Char} {f : Filter} (h : PrintsChild s f) :
      Prints ('!' :: s) (.chain .not [f])
  | and {s : List Char} {fs : List Filter} (h : Separated '&' PrintsChild s fs) :
      Prints s (.chain .and fs)
  | or {s : List Char} {fs : List Filter} (h : Separated '|' PrintsChild s fs) :
      Prints s (.chain .or fs)

/-- A text that prints a filter as the child of a chain: in parentheses if another chain could be
taken apart by what stands around it. -/
inductive PrintsChild : List Char → Filter → Prop
  | bare {s : List Char} {f : Filter} (hf : f.isJunction = false) (h : Prints s f) :
      PrintsChild s f
  | parentheses {s : List Char} {f : Filter} (hf : f.isJunction = true) (h : Prints s f) :
      PrintsChild ('(' :: (s ++ [')'])) f

end

/-! ### Printed texts derive what they print -/

theorem isBlank_of_isAlphanum {c : Char} (h : c.isAlphanum = true) : isBlank c = false := by
  rw [Percent.isAlphanum_iff, Char.toNat] at h
  by_contra hb
  simp only [isBlank, Bool.not_eq_false, Bool.or_eq_true, Bool.and_eq_true, decide_eq_true_eq,
    Char.le_def, UInt32.le_iff_toNat_le, Char.ext_iff, ← UInt32.toNat_inj, Char.reduceVal,
    UInt32.reduceToNat] at hb
  omega

theorem not_blank_not_special_of_spells {value : List Char} {bs : List UInt8}
    (h : Percent.Spells isPlain value bs) {c : Char} (hc : c ∈ value) :
    isBlank c = false ∧ c ∉ syntaxChars := by
  have hspecial : (syntaxChars.all fun d => !d.isAlphanum) = true := by decide
  have halphanum : c.isAlphanum = true → isBlank c = false ∧ c ∉ syntaxChars := fun hc =>
    ⟨isBlank_of_isAlphanum hc, fun hmem => by
      simpa [hc] using List.all_eq_true.1 hspecial c hmem⟩
  rcases Percent.mem_of_spells h hc with hplain | rfl | hhex
  · simp only [isPlain, Bool.or_eq_true, decide_eq_true_eq] at hplain
    rcases hplain with ((hletter | rfl) | rfl) | rfl
    · exact halphanum hletter
    all_goals decide
  · decide
  · exact halphanum hhex

theorem isTerm_comparison {a b c d value : List Char} {column v : String} (sign : Sign)
    (ha : AllBlank a) (hb : AllBlank b) (hc : AllBlank c) (hd : AllBlank d)
    (hvalue : Percent.Spells isPlain value (Utf8.encode v.toList))
    (hcolumn : IsColumn column.toList) :
    IsTerm (a ++ column.toList ++ b ++ sign.token.toList ++ c ++ value ++ d)
      (.comparison sign column (.string v)) := by
  obtain ⟨hne, htrim, hword⟩ := hcolumn
  have hw : IsWord (a ++ column.toList ++ b) :=
    ((isWord_of_allBlank ha).append hword).append (isWord_of_allBlank hb)
  have hw' : IsWord (c ++ value ++ d) :=
    ((isWord_of_allBlank hc).append fun _ hx => (not_blank_not_special_of_spells hvalue hx).2).append
      (isWord_of_allBlank hd)
  have hleft : trim (a ++ column.toList ++ b) = column.toList := by
    rw [trim_append_blank hb, trim_blank_append ha, htrim]
  have hright : trim (c ++ value ++ d) = value := by
    rw [trim_append_blank hd, trim_blank_append hc,
      trim_of_forall fun _ hx => (not_blank_not_special_of_spells hvalue hx).1]
  have hterm := @IsTerm.comparison _ _ v.toList sign hw hw' (by rwa [hleft])
    (by rw [hright]; exact Percent.decodeBytes_of_spells (by decide) hvalue)
  rw [hleft, String.ofList_toList, String.ofList_toList] at hterm
  simpa only [List.append_assoc] using hterm

-- What is printed as a child is a term, by parentheses if need be, so the children of a chain are
-- terms with the connective's character between them.
mutual

/-- A printed text derives the filter that it prints, and as a term unless that is a chain under and
or under or. -/
theorem Prints.isExpr : ∀ {s : List Char} {f : Filter}, Prints s f → IsNormal f →
    IsExpr s f ∧ (f.isJunction = false → IsTerm s f)
  | _, _, @Prints.comparison _ _ _ _ _ _ _ sign ha hb hc hd hvalue, hf => by
    have hterm := isTerm_comparison sign ha hb hc hd hvalue hf.1
    exact ⟨hterm.isExpr, fun _ => hterm⟩
  | _, _, .negation h, hf => by
    have hterm := IsTerm.negation (h.isTerm hf.2.1)
    exact ⟨hterm.isExpr, fun _ => hterm⟩
  | _, _, .and h, hf => by
    have hconjunction := IsConjunction.mk (isTerm_of_printsChildren h hf.2)
    rw [collapse_of_two_le .and hf.1] at hconjunction
    exact ⟨.mk (.one hconjunction), nofun⟩
  | _, _, .or h, hf => by
    -- each child is a conjunction of one term
    have hexpr := IsExpr.mk ((isTerm_of_printsChildren h hf.2).imp fun _ _ h => .mk (.one h))
    rw [collapse_of_two_le .or hf.1] at hexpr
    exact ⟨hexpr, nofun⟩

theorem PrintsChild.isTerm : ∀ {s : List Char} {f : Filter}, PrintsChild s f → IsNormal f →
    IsTerm s f
  | _, _, .bare hjunction h, hf => (h.isExpr hf).2 hjunction
  | _, _, .parentheses _ h, hf => .parentheses (h.isExpr hf).1

theorem isTerm_of_printsChildren : ∀ {c : Char} {s : List Char} {fs : List Filter},
    Separated c PrintsChild s fs → AllNormal fs → Separated c IsTerm s fs
  | _, _, _, .one h, hfs => .one (h.isTerm hfs.1)
  | _, _, _, .more h hs, hfs => .more (h.isTerm hfs.1) (isTerm_of_printsChildren hs hfs.2)

end

/-! ### Every filter in normal form is printed -/

theorem Prints.exists_printsChild {s : List Char} {f : Filter} (h : Prints s f) :
    ∃ t, PrintsChild t f := by
  cases hf : f.isJunction with
  | false => exact ⟨s, .bare hf h⟩
  | true => exact ⟨_, .parentheses hf h⟩

mutual

theorem exists_prints : ∀ {f : Filter}, IsNormal f → ∃ s, Prints s f
  | .comparison _ _ _, ⟨_, _, rfl⟩ =>
    have hnil : AllBlank [] := nofun
    ⟨_, .comparison hnil hnil hnil hnil (Percent.spells_flatMap_encodeByte isPlain _)⟩
  | .chain .not [_], ⟨_, hf, _⟩ => by
    obtain ⟨_, h⟩ := exists_prints hf
    obtain ⟨_, h⟩ := h.exists_printsChild
    exact ⟨_, .negation h⟩
  | .chain .and _, ⟨harity, hfs⟩ => by
    obtain ⟨_, h⟩ := exists_separated_printsChild '&' harity.ne_nil hfs
    exact ⟨_, .and h⟩
  | .chain .or _, ⟨harity, hfs⟩ => by
    obtain ⟨_, h⟩ := exists_separated_printsChild '|' harity.ne_nil hfs
    exact ⟨_, .or h⟩

theorem exists_separated_printsChild (c : Char) : ∀ {fs : List Filter}, fs ≠ [] → AllNormal fs →
    ∃ s, Separated c PrintsChild s fs
  | [_], _, ⟨hf, _⟩ => by
    obtain ⟨_, h⟩ := exists_prints hf
    obtain ⟨_, h⟩ := h.exists_printsChild
    exact ⟨_, .one h⟩
  | _ :: _ :: _, _, ⟨hf, hfs⟩ => by
    obtain ⟨_, h⟩ := exists_prints hf
    obtain ⟨_, h⟩ := h.exists_printsChild
    obtain ⟨_, hs⟩ := exists_separated_printsChild c (List.cons_ne_nil _ _) hfs
    exact ⟨_, .more h hs⟩

end

/-! ### The parser -/

theorem parse_eq_ok_of_prints {s : List Char} {f : Filter} (hf : IsNormal f) (h : Prints s f) :
    parse (String.ofList s) = .ok f :=
  parse_of_isExpr (h.isExpr hf).1

theorem isNormal_of_parse_eq_ok {s : String} {f : Filter} (h : parse s = .ok f) : IsNormal f :=
  (parse_eq_ok_iff.1 h).isNormal

/-- The parser returns filters in normal form and no others, so none that is empty, and it returns
each of them for every text in which it is printed. -/
theorem parse_prints :
    (∀ f, (∃ s, parse s = .ok f) ↔ IsNormal f) ∧
      (∀ s f, parse s = .ok f → f.isEmpty = false) ∧
      ∀ f, IsNormal f → ∀ s, Prints s f → parse (String.ofList s) = .ok f := by
  refine ⟨fun f => ⟨?_, fun hf => ?_⟩, fun s f h => ?_, fun f hf s h => ?_⟩
  · rintro ⟨s, h⟩
    exact isNormal_of_parse_eq_ok h
  · obtain ⟨s, h⟩ := exists_prints hf
    exact ⟨_, parse_eq_ok_of_prints hf h⟩
  · exact (isNormal_of_parse_eq_ok h).isEmpty_eq_false
  · exact parse_eq_ok_of_prints hf h

/-- A chain under a negation in parentheses, with blanks, an encoded letter and a value left out. -/
theorem parse_negated_chain :
    parse " os = l|!(os!=%c3%A9\t&v<= )" =
      .ok (.chain .or [.comparison .equal "os" (.string "l"),
        .chain .not [.chain .and [.comparison .notEqual "os" (.string "é"),
          .comparison .lessOrEqual "v" (.string "")]]]) := by
  have hl : Percent.Spells isPlain ['l'] (Utf8.encode "l".toList) := .char (by decide) .nil
  have hletter : Percent.Spells isPlain "%c3%A9".toList (Utf8.encode "é".toList) :=
    .byte (by decide) (by decide) (.byte (by decide) (by decide) .nil)
  have hnone : Percent.Spells isPlain [] (Utf8.encode "".toList) := .nil
  have hnil : AllBlank [] := nofun
  have hspace : AllBlank [' '] := by simp [AllBlank, isBlank]
  have htab : AllBlank ['\t'] := by simp [AllBlank, isBlank]
  have hos : IsColumn "os".toList := ⟨by decide, by decide, by decide⟩
  have hv : IsColumn "v".toList := ⟨by decide, by decide, by decide⟩
  have hequal := @Prints.comparison [' '] [' '] [' '] [] _ "os" "l" .equal hspace hspace hspace
    hnil hl
  have hnotEqual := @Prints.comparison [] [] [] ['\t'] _ "os" "é" .notEqual hnil hnil hnil htab
    hletter
  have hless := @Prints.comparison [] [] [] [' '] _ "v" "" .lessOrEqual hnil hnil hnil hspace hnone
  have hchain := Prints.and (.more (.bare rfl hnotEqual) (.one (.bare rfl hless)))
  -- the printed text, put together, is the one above
  have h := parse_prints.2.2 _ ?_ _ (.or (.more (.bare rfl hequal)
    (.one (.bare rfl (.negation (.parentheses rfl hchain))))))
  · exact h
  · exact ⟨Nat.le_refl 2, ⟨hos, _, rfl⟩, ⟨rfl, ⟨Nat.le_refl 2, ⟨hos, _, rfl⟩, ⟨hv, _, rfl⟩,
      trivial⟩, trivial⟩, trivial⟩

end Filter

end NodeInventory
