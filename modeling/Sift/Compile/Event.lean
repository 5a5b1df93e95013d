import Sift.Filter.Basic

/-!
# Events

What compiling reports on its way.
-/

namespace Sift

inductive Event where
  /-- Two literals were compared, with the result. -/
  | foldedComparison (left : Value) (op : Comparison) (right : Value) (result : Bool)
  /-- A filter on the rows related by a column comes next. -/
  | relatedFilter (column : String)
  | notFilterable (name : String)
  /-- A column and the name of the operation that orders by it. -/
  | orderingKey (column : String) (direction : String)
deriving DecidableEq

namespace Event

def level : Event → String
  | orderingKey .. => "TRACE"
  | _ => "DEBUG"

def message : Event → String
  | foldedComparison .. => "folded literal comparison"
  | relatedFilter _ => "compiling nested filter"
  | notFilterable _ => "identifier is not a filterable column"
  | orderingKey .. => "ordering term"

/-- The details, by name. -/
def details : Event → List (String × String)
  | foldedComparison left op right result =>
    [("lhs", left.render), ("op", op.symbol), ("rhs", right.render), ("folded", toString result)]
  | relatedFilter column => [("field", column)]
  | notFilterable name => [("field", name)]
  | orderingKey column direction => [("field", column), ("direction", direction)]

end Event

end Sift
