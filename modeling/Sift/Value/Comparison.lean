import Sift.Text.Quoted

/-!
# Comparison operators
-/

namespace Sift

inductive Comparison where
  | eq
  | ne
  | gt
  | ge
  | lt
  | le
  /-- Between strings, whether the right one stands in the left one. A column with a schema of its
  own is filtered by what follows in parentheses. -/
  | has
deriving DecidableEq

namespace Comparison

def all : List Comparison := [eq, ne, gt, ge, lt, le, has]

def symbol : Comparison → String
  | eq => "="
  | ne => "!="
  | gt => ">"
  | ge => ">="
  | lt => "<"
  | le => "<="
  | has => ":"

def ofSymbol? (s : String) : Option Comparison := all.find? fun op => op.symbol == s

/-- What is said of a text that is no operator. -/
def unknownMessage (s : String) : String := .join ["unknown comparison operator ", Text.quoted s]

/-- Whether the operator holds of operands in the given order, `none` being no order at all. -/
def ofOrder : Comparison → Option Ordering → Bool
  | eq, o => o == some .eq
  | ne, o => o != some .eq
  | gt, o => o == some .gt
  | ge, o => o == some .gt || o == some .eq
  | lt, o => o == some .lt
  | le, o => o == some .lt || o == some .eq
  | has, _ => false

end Comparison

end Sift
