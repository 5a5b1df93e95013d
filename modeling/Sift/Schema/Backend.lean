import Sift.Schema.Basic

/-!
# Backends

A backend builds output from values that stand alone and from functions applied to what is already
built. It gives a schema all its operations.
-/

namespace Sift

structure Backend (T : Type) where
  /-- The output for a literal, or for a column, which comes as an identifier. -/
  standalone : Value → Except String T
  /-- The output for a function, given by name, of an optional target and arguments. -/
  apply : String → Option T → List T → Except String T

/-- A backend that can follow a relation. -/
structure RelationalBackend (T : Type) extends Backend T where
  /-- The output for the related rows at a path, of which the second argument builds the filter. -/
  within : List String → (Backend T → Except String T) → Except String T

namespace Backend

variable {T : Type}

def column (b : Backend T) (name : String) : Except String T := b.standalone (.ident name)

/-- Both operands are built, the left one first, before the function is applied. -/
def comparison (b : Backend T) (op : Comparison) : Operation T :=
  ((Operation.named op.symbol).onLiteral fun column v => do
    let left ← b.column column
    let right ← b.standalone v
    b.apply op.symbol none [left, right]).on .fields fun (left, right) => do
      let left ← b.column left
      let right ← b.column right
      b.apply op.symbol none [left, right]

def constant (b : Backend T) (name : String) (value : Bool) : Operation T :=
  (Operation.named name).on .constant fun _ => b.standalone (.boolean value)

def combination (b : Backend T) (name function : String) : Operation T :=
  (Operation.named name).on .combine fun operands => b.apply function none operands

def ordering (b : Backend T) (name function : String) : Operation T :=
  (Operation.named name).on .field fun column => do
    let column ← b.column column
    b.apply function none [column]

/-- Every operation that compiling may ask for. -/
def operations (b : Backend T) : List (Operation T) :=
  Comparison.all.map b.comparison ++ [
    b.constant Operation.trueName true,
    b.constant Operation.falseName false,
    b.combination Operation.andName "AND",
    b.combination Operation.orName "OR",
    b.combination Operation.notName "NOT",
    b.ordering Operation.ascendingName "ASC",
    b.ordering Operation.descendingName "DESC"]

end Backend

/-- A filterable column whose related rows are filtered with `schema`. The inner filter is built
before the backend is asked to embed it. -/
def RelationalBackend.column {T : Type} (b : RelationalBackend T) (name : String)
    (schema : Schema T) : Column T :=
  (Column.named name).filterable.relatedBy schema fun inner => b.within [name] fun _ => .ok inner

end Sift
