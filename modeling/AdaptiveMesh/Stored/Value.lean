import AdaptiveMesh.Decimal.Digits
import AdaptiveMesh.Text.Quoted

/-!
# Stored values

Configurations and checkpoints are kept as trees of plain values, whatever file format holds them. A
value that does not have the form asked for is refused with the first thing found wrong.
-/

namespace AdaptiveMesh

set_option autoImplicit false

inductive Value where
  | null
  | bool (value : Bool)
  | integer (value : Int)
  | number (value : Float)
  | text (value : String)
  | list (items : List Value)
  | record (fields : List (String × Value))
deriving Inhabited

inductive ReadError where
  | missingField (name : String)
  | unknownVariant (found : String) (expected : List String)
  | outOfRange (value : Int) (expected : String)
  | wrongKind (found expected : String)
  | wrongLength (found : Nat) (expected : String)
  /-- A record that should have one field, named like a variant, has none or more. -/
  | notOneField
  /-- The value has the right form but describes nothing that exists. -/
  | rejected (message : String)
deriving DecidableEq, Repr

namespace ReadError

def quoted (name : String) : String := "`" ++ name ++ "`"

def message : ReadError → String
  | missingField name => "missing field " ++ quoted name
  | unknownVariant found expected =>
      s!"unknown variant {quoted found}, expected one of " ++
        String.intercalate ", " (expected.map quoted)
  | outOfRange value expected =>
      s!"invalid value: integer {quoted (toString value)}, expected {expected}"
  | wrongKind found expected => s!"invalid type: {found}, expected {expected}"
  | wrongLength found expected => s!"invalid length {found}, expected {expected}"
  | notOneField => "invalid value: map, expected map with a single key"
  | rejected message => message

end ReadError

namespace Value

/-- Messages show a number with an exponent if its first digit stands sixteen or more places in front
of the point or more than five behind it. -/
def numberLayout : Decimal.Layout := ⟨.even, true, fun power => -5 ≤ power && power ≤ 15⟩

def describe : Value → String
  | null => "null"
  | bool value => "boolean " ++ ReadError.quoted (toString value)
  | integer value => "integer " ++ ReadError.quoted (toString value)
  | number value => "floating point " ++ ReadError.quoted (numberLayout.write value)
  | text value => "string " ++ Text.quoted value
  | list _ => "sequence"
  | record _ => "map"

def integers (values : List Int) : Value := list (values.map integer)

def natural (value : Nat) : Value := integer value

end Value

end AdaptiveMesh
