import NodeInventory.Json.Basic
import NodeInventory.Protocol

/-!
# Filters

A `Filter` is a tree of comparisons joined by the connectives and, or and not, each over any number
of children.

* `Filter.isEmpty` holds of a chain without children, which filters nothing.
* `Filter.andWith` joins two filters under and, without nesting a new chain in an old one.
* `Filter.pins` holds of a column to which every matching row has to have one value.
-/

namespace NodeInventory

/-- The sign of a comparison; `matching` is for regular expressions. -/
inductive Sign where
  | equal
  | notEqual
  | matching
  | less
  | lessOrEqual
  | greater
  | greaterOrEqual
deriving DecidableEq, Repr

namespace Sign

/-- All signs. -/
def all : List Sign := [equal, notEqual, matching, less, lessOrEqual, greater, greaterOrEqual]

/-- The sign in writing. -/
def token : Sign → String
  | equal => "="
  | notEqual => "!="
  | matching => "~"
  | less => "<"
  | lessOrEqual => "<="
  | greater => ">"
  | greaterOrEqual => ">="

/-- The sign of a token. -/
def ofToken (s : String) : Except QueryError Sign :=
  match all.find? fun sign => sign.token = s with
  | some sign => .ok sign
  | none => .error (.unknownSign s)

theorem ofToken_token (sign : Sign) : ofToken sign.token = .ok sign := by
  cases sign <;> rfl

end Sign

/-- What joins the children of a chain. -/
inductive Connective where
  | and
  | or
  | not
deriving DecidableEq, Repr

namespace Connective

/-- All connectives. -/
def all : List Connective := [and, or, not]

/-- The connective in writing. -/
def token : Connective → String
  | and => "and"
  | or => "or"
  | not => "not"

/-- The connective of a token in letters of either case. Of the letters in question only the ASCII
ones have those as their lower case. -/
def ofToken (s : String) : Except QueryError Connective :=
  match all.find? fun c => c.token.toList = s.toList.map Char.toLower with
  | some c => .ok c
  | none => .error (.unknownConnective s)

theorem ofToken_token (c : Connective) : ofToken c.token = .ok c := by
  cases c <;> rfl

end Connective

/-- A filter on rows. -/
inductive Filter where
  | comparison (sign : Sign) (column : String) (expression : Json)
  | chain (op : Connective) (children : List Filter)

namespace Filter

/-- The filter for rows with a value in a column. -/
def equals (column : String) (expression : Json) : Filter := .comparison .equal column expression

/-- The negation of one filter. -/
def negate (f : Filter) : Filter := .chain .not [f]

/-- A chain without children. -/
def isEmpty : Filter → Bool
  | .chain _ [] => true
  | _ => false

/-- Both filters under and: the second joins the children of the first if that is such a chain. -/
def andWith (f g : Filter) : Filter :=
  match f with
  | .chain .and children => .chain .and (children ++ [g])
  | f => .chain .and [f, g]

mutual

/-- Every row that the filter admits has one and the same value in the column, because the filter is
an equality on it or has one that it reaches through and alone. -/
def pins (column : String) : Filter → Bool
  | .comparison sign c _ => sign = .equal && c = column
  | .chain op children => op = .and && anyPins column children

/-- One of the filters pins the column. -/
def anyPins (column : String) : List Filter → Bool
  | [] => false
  | f :: fs => pins column f || anyPins column fs

end

theorem anyPins_eq_any (column : String) (fs : List Filter) :
    anyPins column fs = fs.any (pins column) := by
  induction fs with
  | nil => rfl
  | cons f fs ih => rw [anyPins, List.any_cons, ih]

/-! ### Equality -/

mutual

/-- Equality of filters is decidable. -/
def decEq : (f g : Filter) → Decidable (f = g)
  | .comparison s c e, .comparison s' c' e' =>
    decidable_of_iff (s = s' ∧ c = c' ∧ e = e') (by simp)
  | .chain op fs, .chain op' gs =>
    if h : op = op' then
      match decEqChildren fs gs with
      | isTrue k => isTrue (by rw [h, k])
      | isFalse k => isFalse (by simp [k])
    else isFalse (by simp [h])
  | .comparison .., .chain .. => isFalse (by simp)
  | .chain .., .comparison .. => isFalse (by simp)

/-- Equality of lists of filters is decidable. -/
def decEqChildren : (fs gs : List Filter) → Decidable (fs = gs)
  | [], [] => isTrue rfl
  | [], _ :: _ => isFalse (by simp)
  | _ :: _, [] => isFalse (by simp)
  | f :: fs, g :: gs =>
    match decEq f g, decEqChildren fs gs with
    | isTrue h, isTrue k => isTrue (by rw [h, k])
    | isFalse h, _ => isFalse (by simp [h])
    | _, isFalse k => isFalse (by simp [k])

end

instance : DecidableEq Filter := decEq

mutual

/-- Equality of filters, their expressions being compared as JSON values. -/
def same : Filter → Filter → Bool
  | .comparison s c e, .comparison s' c' e' => s = s' && c = c' && e.same e'
  | .chain op fs, .chain op' gs => op = op' && sameChildren fs gs
  | _, _ => false

/-- Equality of lists of filters, child by child. -/
def sameChildren : List Filter → List Filter → Bool
  | [], [] => true
  | f :: fs, g :: gs => same f g && sameChildren fs gs
  | _, _ => false

end

end Filter

end NodeInventory
