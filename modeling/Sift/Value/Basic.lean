import Sift.Number.Decimal
import Sift.Text.Search
import Sift.Value.Comparison

/-!
# Values

What stands in a filter as an operand: a literal, the name of a column, or the wildcard.
-/

namespace Sift

inductive Value where
  | wildcard
  | int (n : Int64)
  | float (x : Binary64)
  | string (s : String)
  | boolean (b : Bool)
  | ident (name : String)
deriving DecidableEq

namespace Value

def typeName : Value → String
  | wildcard => "wildcard"
  | int _ => "integer"
  | float _ => "float"
  | string _ => "string"
  | boolean _ => "boolean"
  | ident _ => "identifier"

/-- Equality as numbers are equal: the two zeros are the same, and what is not a number is not even
the same as itself. -/
def same : Value → Value → Bool
  | float x, float y => x.compare? y == some .eq
  | v, w => v == w

/-- Values of one type compare by their order, and booleans only by equality. A string has those
that stand in it. All else is false, also `!=` between two types. -/
def compare (op : Comparison) : Value → Value → Bool
  | int m, int n => op.ofOrder (some (Ord.compare m.toInt n.toInt))
  | float x, float y => op.ofOrder (x.compare? y)
  | string s, string t =>
    match op with
    | .has => Text.occursIn t.toList s.toList
    | _ => op.ofOrder (some (Ord.compare s t))
  | boolean a, boolean b =>
    match op with
    | .eq => a == b
    | .ne => a != b
    | _ => false
  | _, _ => false

/-- The zero of the value's type. -/
def zero? : Value → Option Value
  | int _ => some (int 0)
  | float _ => some (float .zero)
  | string _ => some (string "")
  | boolean _ => some (boolean false)
  | wildcard | ident _ => none

def isZero (v : Value) : Bool := v.zero?.any (v.compare .eq ·)

def ident? : Value → Option String
  | ident name => some name
  | _ => none

def isWildcard : Value → Bool
  | wildcard => true
  | _ => false

/-- A string stands between double quotes, or between single ones when it holds a double quote. -/
def chars : Value → List Char
  | wildcard => ['*']
  | int n => Decimal.ofInt64 n
  | float x => Decimal.ofBinary64 x
  | string s =>
    let q := if s.toList.contains '"' then '\'' else '"'
    q :: s.toList ++ [q]
  | boolean true => ['t', 'r', 'u', 'e']
  | boolean false => ['f', 'a', 'l', 's', 'e']
  | ident name => name.toList

/-- The value as it stands in a filter. -/
def render (v : Value) : String := String.ofList v.chars

end Value

end Sift
