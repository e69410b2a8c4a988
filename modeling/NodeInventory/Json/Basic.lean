import NodeInventory.Json.Double
import NodeInventory.Text

/-!
# JSON values and their text

Values with their fields in order (`Json`), and the compact text of a value (`Json.write`).
-/

namespace NodeInventory

/-!
## JSON values

`Json` is a JSON value whose objects keep their fields in order and may name a field twice; numbers
are integers or doubles, which are never equal to each other.

* `Json.same` compares values: an object is the same as another whatever the order of the fields.
* `Json.mergeKeys` settles repeated fields: the first place and the last value count.
* `Json.depth` is the number of containers nested in each other.
-/

/-- A JSON number. -/
inductive Json.Number where
  | integer (n : Int)
  | double (d : Double)
deriving DecidableEq

/-- A JSON value. -/
inductive Json where
  | null
  | bool (b : Bool)
  | number (n : Json.Number)
  | string (s : String)
  | array (items : List Json)
  | object (fields : List (String × Json))
deriving Inhabited

namespace Json

/-- A text as a value. -/
instance : Coe String Json := ⟨.string⟩

/-- An integer as a value. -/
def ofInt (n : Int) : Json := .number (.integer n)

/-! ### Equality -/

mutual

/-- Equality of values is decidable. -/
def decEq : (a b : Json) → Decidable (a = b)
  | .null, .null => isTrue rfl
  | .bool a, .bool b => decidable_of_iff (a = b) (by simp)
  | .number a, .number b => decidable_of_iff (a = b) (by simp)
  | .string a, .string b => decidable_of_iff (a = b) (by simp)
  | .array a, .array b =>
    match decEqItems a b with
    | isTrue h => isTrue (by rw [h])
    | isFalse h => isFalse (by simpa using h)
  | .object a, .object b =>
    match decEqFields a b with
    | isTrue h => isTrue (by rw [h])
    | isFalse h => isFalse (by simpa using h)
  | .null, .bool _ | .null, .number _ | .null, .string _ | .null, .array _ | .null, .object _
  | .bool _, .null | .bool _, .number _ | .bool _, .string _ | .bool _, .array _
  | .bool _, .object _ | .number _, .null | .number _, .bool _ | .number _, .string _
  | .number _, .array _ | .number _, .object _ | .string _, .null | .string _, .bool _
  | .string _, .number _ | .string _, .array _ | .string _, .object _ | .array _, .null
  | .array _, .bool _ | .array _, .number _ | .array _, .string _ | .array _, .object _
  | .object _, .null | .object _, .bool _ | .object _, .number _ | .object _, .string _
  | .object _, .array _ => isFalse (by simp)

/-- Equality of lists of values is decidable. -/
def decEqItems : (a b : List Json) → Decidable (a = b)
  | [], [] => isTrue rfl
  | [], _ :: _ => isFalse (by simp)
  | _ :: _, [] => isFalse (by simp)
  | x :: a, y :: b =>
    match decEq x y, decEqItems a b with
    | isTrue h, isTrue k => isTrue (by rw [h, k])
    | isFalse h, _ => isFalse (by simp [h])
    | _, isFalse k => isFalse (by simp [k])

/-- Equality of lists of fields is decidable. -/
def decEqFields : (a b : List (String × Json)) → Decidable (a = b)
  | [], [] => isTrue rfl
  | [], _ :: _ => isFalse (by simp)
  | _ :: _, [] => isFalse (by simp)
  | (k, x) :: a, (l, y) :: b =>
    if e : k = l then
      match decEq x y, decEqFields a b with
      | isTrue h, isTrue k => isTrue (by rw [e, h, k])
      | isFalse h, _ => isFalse (by simp [h])
      | _, isFalse k => isFalse (by simp [k])
    else isFalse (by simp [e])

end

instance : DecidableEq Json := decEq

/-- Numerical equality, within integers and within doubles. -/
def Number.same : Number → Number → Bool
  | .integer a, .integer b => a == b
  | .double a, .double b => a.same b
  | _, _ => false

/-- The value of the first field of a name. -/
def field? (name : String) : List (String × Json) → Option Json
  | [] => none
  | (k, v) :: fields => if k = name then some v else field? name fields

mutual

/-- Equality of values that no object names a field twice in, whatever the order of the fields. -/
def same : Json → Json → Bool
  | .null, .null => true
  | .bool a, .bool b => a == b
  | .number a, .number b => a.same b
  | .string a, .string b => a == b
  | .array a, .array b => sameItems a b
  | .object a, .object b => a.length == b.length && sameFields a b
  | _, _ => false

/-- Equality of arrays, item by item. -/
def sameItems : List Json → List Json → Bool
  | [], [] => true
  | a :: as, b :: bs => same a b && sameItems as bs
  | _, _ => false

/-- Every field of the one list has an equal value in the other. -/
def sameFields : List (String × Json) → List (String × Json) → Bool
  | [], _ => true
  | (k, a) :: as, bs =>
    (match field? k bs with
      | some b => same a b
      | none => false) && sameFields as bs

end

/-! ### Repeated fields -/

/-- Puts a value under a name: in the place of the field of that name, else at the end. -/
def setField {α : Type} (name : String) (value : α) : List (String × α) → List (String × α)
  | [] => [(name, value)]
  | (k, v) :: fields =>
    if k = name then (k, value) :: fields else (k, v) :: setField name value fields

/-- Fields set one after another, so that a repeated one has its first place and last value. -/
def mergeFields {α : Type} (fields : List (String × α)) : List (String × α) :=
  fields.foldl (fun merged f => setField f.1 f.2 merged) []

mutual

/-- The value with repeated fields merged in every object. -/
def mergeKeys : Json → Json
  | .array items => .array (mergeItems items)
  | .object fields => .object (mergeFields (mergeFieldValues fields))
  | v => v

/-- `mergeKeys` in every item. -/
def mergeItems : List Json → List Json
  | [] => []
  | v :: items => mergeKeys v :: mergeItems items

/-- `mergeKeys` in every field. -/
def mergeFieldValues : List (String × Json) → List (String × Json)
  | [] => []
  | (k, v) :: fields => (k, mergeKeys v) :: mergeFieldValues fields

end

/-! ### Nesting -/

mutual

/-- The largest number of arrays and objects nested in each other. -/
def depth : Json → Nat
  | .array items => depthItems items + 1
  | .object fields => depthFields fields + 1
  | _ => 0

/-- The largest depth of an item. -/
def depthItems : List Json → Nat
  | [] => 0
  | v :: items => max (depth v) (depthItems items)

/-- The largest depth of a field. -/
def depthFields : List (String × Json) → Nat
  | [] => 0
  | (_, v) :: fields => max (depth v) (depthFields fields)

end

end Json

/-!
## Compact JSON text

`Json.write` writes a value without blanks, the fields of an object in their order. In a string only
the quote, the backslash and the control characters below U+0020 are escaped, five of the latter by
a letter and the others by `\u` and four lower-case digits.
-/

namespace Json

/-- A hexadecimal digit in lower case. -/
def lowerHexDigit (n : Nat) : Char := (Text.Percent.hexDigit n).toLower

/-- A character as it stands in a string. -/
def writeChar (c : Char) : List Char :=
  if c = '"' then ['\\', '"']
  else if c = '\\' then ['\\', '\\']
  else if c = '\x08' then ['\\', 'b']
  else if c = '\t' then ['\\', 't']
  else if c = '\n' then ['\\', 'n']
  else if c = '\x0c' then ['\\', 'f']
  else if c = '\r' then ['\\', 'r']
  else if c < ' ' then
    ['\\', 'u', '0', '0', lowerHexDigit (c.toNat / 16), lowerHexDigit (c.toNat % 16)]
  else [c]

/-- A string in quotes. -/
def writeString (s : String) : List Char :=
  '"' :: (s.toList.flatMap writeChar ++ ['"'])

/-- An integer in decimal. -/
def writeInt (n : Int) : List Char :=
  if n < 0 then '-' :: Nat.toDigits 10 n.natAbs else Nat.toDigits 10 n.natAbs

/-- A number. -/
def Number.write : Number → List Char
  | .integer n => writeInt n
  | .double d => d.text

mutual

/-- A value as compact text. -/
def write : Json → List Char
  | .null => ['n', 'u', 'l', 'l']
  | .bool true => ['t', 'r', 'u', 'e']
  | .bool false => ['f', 'a', 'l', 's', 'e']
  | .number n => n.write
  | .string s => writeString s
  | .array [] => ['[', ']']
  | .array (v :: items) => '[' :: (write v ++ writeItems items)
  | .object [] => ['{', '}']
  | .object ((k, v) :: fields) =>
    '{' :: (writeString k ++ ':' :: (write v ++ writeFields fields))

/-- The further items of an array, and its end. -/
def writeItems : List Json → List Char
  | [] => [']']
  | v :: items => ',' :: (write v ++ writeItems items)

/-- The further fields of an object, and its end. -/
def writeFields : List (String × Json) → List Char
  | [] => ['}']
  | (k, v) :: fields => ',' :: (writeString k ++ ':' :: (write v ++ writeFields fields))

end

/-- A value as compact text. -/
def text (v : Json) : String := String.ofList v.write

end Json

end NodeInventory
