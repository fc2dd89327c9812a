import TableScript.Number.FloatText

/-!
# Values

What a variable can hold.  A table is held by its identity; its entries are in the heap.  Every
value has a text, which is what it is printed as and what values of different kinds are compared
by.
-/

namespace TableScript

/-- The identity of a table: the address at which it is kept. -/
structure TableId where
  address : Nat
  deriving DecidableEq, Repr

/-- The values of the language. -/
inductive Value where
  | nil
  | boolean (value : Bool)
  | integer (value : Int64)
  | float (value : Float)
  | string (value : String)
  | table (identity : TableId)
  /-- Several values together: what an expression list with more than one value gives. -/
  | list (items : List Value)
  deriving Inhabited, Repr

/-- The text of a table: its address in hexadecimal. -/
def TableId.text (identity : TableId) : String :=
  String.ofList ("table: 0x".toList ++ Nat.toDigits 16 identity.address)

/-- Puts the texts of several values together, with tabulators between them. -/
def tabulate (texts : List String) : String := "\t".intercalate texts

namespace Value

mutual

/-- The text of a value. -/
def text : Value → String
  | .nil => "nil"
  | .boolean true => "true"
  | .boolean false => "false"
  | .integer value => String.ofList (Number.integerText value.toInt)
  | .float value => Number.floatText value
  | .string value => value
  | .table identity => identity.text
  | .list items => tabulate (texts items)

/-- The texts of several values. -/
def texts : List Value → List String
  | [] => []
  | first :: rest => text first :: texts rest

end

@[simp] theorem texts_eq_map (values : List Value) : texts values = values.map text := by
  induction values with
  | nil => simp [texts]
  | cons first rest ih => simp [texts, ih]

/-- How messages name the kind of a value. -/
def typeName : Value → String
  | .nil => "nil"
  | .boolean _ => "boolean"
  | .integer _ => "integer"
  | .float _ => "float"
  | .string _ => "string"
  | .table _ => "table"
  | .list _ => "list"

/-- Whether a value is nil. -/
def isNil : Value → Bool
  | .nil => true
  | _ => false

/-- Whether a value is an integer or a floating-point number. -/
def isNumber : Value → Bool
  | .integer _ | .float _ => true
  | _ => false

/-- Whether a value is a list. -/
def isList : Value → Bool
  | .list _ => true
  | _ => false

/-- Makes one value of several: one stays itself, any other number of values is a list. -/
def ofValues : List Value → Value
  | [value] => value
  | values => .list values

/-- The values that a list stands for; any other value stands for itself. -/
def values : Value → List Value
  | .list items => items
  | value => [value]

/-- The first value of a list, or nil if it has none; any other value is itself. -/
def first : Value → Value
  | .list items => items.headD .nil
  | value => value

end Value

end TableScript
