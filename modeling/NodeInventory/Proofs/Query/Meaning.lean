import NodeInventory.Proofs.Query.Compiled

/-!
# What filters and conditions mean

The rows that a filter admits and those that a condition selects, whatever a comparison means.
-/

namespace NodeInventory

/-!
## The truth of filters and conditions

An `Interpretation` says of which rows a comparison holds, and what becomes of truth values under a
`not`; under `and` all have to hold, under `or` one of them.  A filter holds of a row or does not
(`Filter.holds`).  A condition reaches a store as JSON, and not every value is one, so it has a
truth value or none (`Interpretation.truth?`).

* `Filter.truth?_toJson_compile` : a filter compiles to a condition that holds of the same rows;
* `Filter.holds_andWith` : what it means to join two filters;
* `Filter.exists_eq_of_pins` : the rows that a filter admits have one value in a column that it
  pins.
-/

section

variable {ρ : Type}

/-- What a store makes of comparisons on its rows, and of the truth values under a `not`. -/
structure Interpretation (ρ : Type) where
  compares : Sign → String → Json → ρ → Bool
  negates : List Bool → Bool

namespace Interpretation

/-- The equality on a column compares with the value that a row has in it. -/
def ReadsColumn (I : Interpretation ρ) (column : String) (value : ρ → Json) : Prop :=
  ∀ expression row, I.compares .equal column expression row = decide (value row = expression)

variable (I : Interpretation ρ) (row : ρ)

/-- The truth value of a chain, from those of its children. -/
def joins : Connective → List Bool → Bool
  | .and, values => values.all id
  | .or, values => values.any id
  | .not, values => I.negates values

/-- The truth value of a sign and what stands behind it, if that is a column and an expression. -/
def comparison? (sign : String) (operands : List Json) : Option Bool :=
  match Sign.ofToken sign, operands with
  | .ok sign, [.string column, expression] => some (I.compares sign column expression row)
  | _, _ => none

mutual

/-- The truth value of a JSON value as a condition, if it is one. -/
def truth? : Json → Option Bool
  | .array (.string head :: operands) =>
    match Connective.all.find? fun op => op.token = head with
    | some op => (truths? operands).map (I.joins op)
    | none => I.comparison? row head operands
  | _ => none

/-- The truth values of JSON values as conditions, if all are. -/
def truths? : List Json → Option (List Bool)
  | [] => some []
  | v :: vs =>
    match truth? v, truths? vs with
    | some value, some values => some (value :: values)
    | _, _ => none

end

variable {I row}

theorem truth?_comparison (sign : Sign) (column : String) (expression : Json) :
    I.truth? row (.array [.string sign.token, .string column, expression]) =
      some (I.compares sign column expression row) := by
  cases sign <;> rfl

theorem truth?_chain (op : Connective) (operands : List Json) :
    I.truth? row (.array (.string op.token :: operands)) =
      (I.truths? row operands).map (I.joins op) := by
  cases op <;> rfl

theorem truth?_and {v w : Json} {a b : Bool} (hv : I.truth? row v = some a)
    (hw : I.truth? row w = some b) :
    I.truth? row (.array [.string "and", v, w]) = some (a && b) := by
  have hand : I.truth? row (.array [.string "and", v, w]) = (I.truths? row [v, w]).map (I.joins .and) :=
    truth?_chain .and [v, w]
  rw [hand, truths?, truths?, truths?, hv, hw]
  simp [joins]

end Interpretation

namespace Filter

/-! ### Filters on rows -/

mutual

/-- A filter holds of a row. -/
def holds (I : Interpretation ρ) (row : ρ) : Filter → Bool
  | .comparison sign column expression => I.compares sign column expression row
  | .chain op children => I.joins op (holdsEach I row children)

/-- Which of several filters hold of a row. -/
def holdsEach (I : Interpretation ρ) (row : ρ) : List Filter → List Bool
  | [] => []
  | f :: fs => holds I row f :: holdsEach I row fs

end

variable {I : Interpretation ρ} {row : ρ}

theorem holdsEach_eq_map (fs : List Filter) : holdsEach I row fs = fs.map (holds I row) := by
  induction fs with
  | nil => rfl
  | cons f fs ih => rw [holdsEach, List.map_cons, ih]

theorem holds_and_iff {fs : List Filter} :
    holds I row (.chain .and fs) = true ↔ ∀ f ∈ fs, f.holds I row = true := by
  rw [holds, holdsEach_eq_map]
  simp [Interpretation.joins]

/-- Two filters that are joined hold of the rows that both hold of. -/
theorem holds_andWith (f g : Filter) :
    (f.andWith g).holds I row = (f.holds I row && g.holds I row) := by
  rw [Bool.eq_iff_iff, Bool.and_eq_true]
  unfold andWith
  split
  · -- the second filter becomes the last child of the first
    rw [holds_and_iff, holds_and_iff, List.forall_mem_append, List.forall_mem_singleton]
  · rw [holds_and_iff, List.forall_mem_cons, List.forall_mem_singleton]

/-! ### Compiled filters -/

mutual

/-- A filter compiles to a condition that holds of the same rows. -/
theorem truth?_toJson_compile (f : Filter) :
    I.truth? row (compile f).toJson = some (f.holds I row) := by
  cases f with
  | comparison sign column expression =>
    rw [toJson_compile_comparison, Interpretation.truth?_comparison, holds]
  | chain op fs =>
    rw [toJson_compile_chain, Interpretation.truth?_chain, truths?_map_toJson_compile fs, holds,
      Option.map_some]

theorem truths?_map_toJson_compile (fs : List Filter) :
    I.truths? row (fs.map fun f => (compile f).toJson) = some (holdsEach I row fs) := by
  cases fs with
  | nil => rfl
  | cons f fs =>
    rw [List.map_cons, Interpretation.truths?, truth?_toJson_compile f,
      truths?_map_toJson_compile fs, holdsEach]

end

/-! ### Pinned columns -/

-- A pin is reached through `and` alone, and a row of which such a chain holds is one of which every
-- child holds, the pinning one included.
mutual

/-- All rows that a filter admits have one and the same value in a column that it pins. -/
theorem exists_eq_of_pins {column : String} {value : ρ → Json} (hI : I.ReadsColumn column value)
    (f : Filter) (hf : f.pins column = true) :
    ∃ v, ∀ row, f.holds I row = true → value row = v := by
  cases f with
  | comparison sign c expression =>
    rw [pins, Bool.and_eq_true, decide_eq_true_eq, decide_eq_true_eq] at hf
    obtain ⟨rfl, rfl⟩ := hf
    refine ⟨expression, fun row hrow => ?_⟩
    rw [holds, hI expression row] at hrow
    exact of_decide_eq_true hrow
  | chain op fs =>
    rw [pins, Bool.and_eq_true, decide_eq_true_eq] at hf
    obtain ⟨rfl, hfs⟩ := hf
    obtain ⟨v, hv⟩ := exists_eq_of_anyPins hI fs hfs
    exact ⟨v, fun row hrow => hv row (holds_and_iff.1 hrow)⟩

theorem exists_eq_of_anyPins {column : String} {value : ρ → Json} (hI : I.ReadsColumn column value)
    (fs : List Filter) (hfs : anyPins column fs = true) :
    ∃ v, ∀ row, (∀ f ∈ fs, f.holds I row = true) → value row = v := by
  cases fs with
  | nil => cases hfs
  | cons f fs =>
    rw [anyPins, Bool.or_eq_true] at hfs
    rcases hfs with hf | hfs
    · obtain ⟨v, hv⟩ := exists_eq_of_pins hI f hf
      exact ⟨v, fun row hrow => hv row (hrow f List.mem_cons_self)⟩
    · obtain ⟨v, hv⟩ := exists_eq_of_anyPins hI fs hfs
      exact ⟨v, fun row hrow => hv row fun g hg => hrow g (List.mem_cons_of_mem _ hg)⟩

end

end Filter

end

/-!
## Joining filters

A filter demands all of its *conjuncts*: the children of an `and`, and itself if it is
none.  Joining another filter to it adds a conjunct and nests nothing.

* `Filter.andWith_eq_chain` : one filter more is one conjunct more;
* `Filter.holds_eq_all_conjuncts`, `Filter.pins_eq_any_conjuncts` : what the conjuncts say of a
  filter;
* `Filter.foldl_andWith` : any number of filters, joined one after another, by induction on their
  list.
-/

namespace Filter

/-- The filters that a filter demands together. -/
def conjuncts : Filter → List Filter
  | .chain .and children => children
  | f => [f]

/-- A joined filter is an `and` with one conjunct more. -/
theorem andWith_eq_chain (f g : Filter) : f.andWith g = .chain .and (f.conjuncts ++ [g]) := by
  unfold andWith
  split
  · rfl
  · next hne =>
    rw [conjuncts]
    · rfl
    · exact hne

theorem foldl_andWith_eq_chain (f g : Filter) (gs : List Filter) :
    (g :: gs).foldl andWith f = .chain .and (f.conjuncts ++ g :: gs) := by
  induction gs generalizing f g with
  | nil => exact andWith_eq_chain f g
  | cons h gs ih =>
    calc (g :: h :: gs).foldl andWith f = (h :: gs).foldl andWith (f.andWith g) := rfl
      _ = .chain .and ((f.andWith g).conjuncts ++ h :: gs) := ih (f.andWith g) h
      _ = .chain .and ((f.conjuncts ++ [g]) ++ h :: gs) := by rw [andWith_eq_chain, conjuncts]
      _ = .chain .and (f.conjuncts ++ g :: h :: gs) := by rw [List.append_assoc, List.singleton_append]

section Meaning

variable {ρ : Type} {I : Interpretation ρ} {row : ρ}

theorem holds_and (fs : List Filter) : holds I row (.chain .and fs) = fs.all (holds I row) := by
  rw [Bool.eq_iff_iff, holds_and_iff, List.all_eq_true]

theorem holds_eq_all_conjuncts (f : Filter) : f.holds I row = f.conjuncts.all (holds I row) := by
  unfold conjuncts
  split
  · exact holds_and _
  · exact (Bool.and_true _).symm

end Meaning

theorem pins_and (column : String) (fs : List Filter) :
    pins column (.chain .and fs) = fs.any (pins column) := by
  rw [pins, anyPins_eq_any]
  rfl

theorem pins_eq_any_conjuncts (column : String) (f : Filter) :
    f.pins column = f.conjuncts.any (pins column) := by
  unfold conjuncts
  split
  · exact pins_and column _
  · exact (Bool.or_false _).symm

/-- **Joined filters are a flat conjunction.**  One filter or more, joined to `f` one after another,
give one `and` whose children are the conjuncts of `f` and then these filters in their order.  It
holds of the rows of which `f` and all of them hold, whatever comparisons and negations mean, and
pins the columns that `f` or one of them pins. -/
theorem foldl_andWith (f g : Filter) (gs : List Filter) :
    (g :: gs).foldl andWith f = .chain .and (f.conjuncts ++ g :: gs) ∧
      (∀ (ρ : Type) (I : Interpretation ρ) (row : ρ), ((g :: gs).foldl andWith f).holds I row =
        (f.holds I row && (g :: gs).all (holds I row))) ∧
      ∀ column, ((g :: gs).foldl andWith f).pins column =
        (f.pins column || (g :: gs).any (pins column)) := by
  have hchain := foldl_andWith_eq_chain f g gs
  refine ⟨hchain, fun ρ I row => ?_, fun column => ?_⟩
  · rw [hchain, holds_and, List.all_append, ← holds_eq_all_conjuncts]
  · rw [hchain, pins_and, List.any_append, ← pins_eq_any_conjuncts]

end Filter

end NodeInventory
