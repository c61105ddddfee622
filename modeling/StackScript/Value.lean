import StackScript.Decimal.Positional

/-!
# Values

The values a program computes with: `nil`, booleans, numbers (doubles) and strings.  Only `nil`
and `false` are false in a condition.  Two values are equal when they are of one type and equal
there, numbers by floating point comparison, so a NaN equals nothing.  Printed, a number is
written as `Decimal.render` writes it and a string as its bare text.
-/

namespace StackScript

/-- A value of the language. -/
inductive Value where
  | nil
  | bool (b : Bool)
  | number (x : Float)
  | string (s : String)
deriving Repr, Inhabited

namespace Value

/-- The name of a value's type, as messages give it. -/
def typeName : Value → String
  | nil => "nil"
  | bool _ => "bool"
  | number _ => "number"
  | string _ => "string"

/-- Whether a value counts as false in a condition: only `nil` and `false` do. -/
def isFalsy : Value → Bool
  | nil => true
  | bool b => !b
  | _ => false

/-- Equality of values: same type and equal contents, numbers compared as floats. -/
def equal : Value → Value → Bool
  | nil, nil => true
  | bool a, bool b => a == b
  | number a, number b => a == b
  | string a, string b => a == b
  | _, _ => false

/-- The text `print` writes for a value. -/
def render : Value → String
  | nil => "nil"
  | bool b => toString b
  | number x => Decimal.render x
  | string s => s

end Value

end StackScript
