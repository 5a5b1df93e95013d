import Sift.Compile.Run
import Sift.Schema.Basic

/-!
# Looking things up in a schema
-/

namespace Sift

variable {T : Type}

abbrev Compiled (α : Type) := Run CompileError α

/-- What the callback for operands of the shape `slot` makes of them. -/
def Operation.call (op : Operation T) (slot : Slot) (operands : slot.Args T) : Compiled T :=
  match op.callback? slot with
  | none => .fail (.unknownOperation op.name)
  | some f =>
    match f operands with
    | .ok out => pure out
    | .error reason => .fail (.callback op.name reason)

namespace Schema

/-- The operation of the name, which has to take operands of the shape `slot`. -/
def require (s : Schema T) (name : String) (slot : Slot) : Compiled (Operation T) :=
  match s.operation? name slot.flag with
  | some op => pure op
  | none => .fail (.unknownOperation name)

def call (s : Schema T) (name : String) (slot : Slot) (operands : slot.Args T) : Compiled T := do
  (← s.require name slot).call slot operands

def constant (s : Schema T) (value : Bool) : Compiled T :=
  s.call (if value then Operation.trueName else Operation.falseName) .constant ()

def combine (s : Schema T) (name : String) (outputs : List T) : Compiled T :=
  s.call name .combine outputs

end Schema

/-- The inner output as the outer schema sees it. -/
def Relation.enter (r : Relation T) (column : String) (inner : T) : Compiled T :=
  match r.embed inner with
  | .ok out => pure out
  | .error reason => .fail (.callback column reason)

/-- One side of a comparison. -/
inductive Operand (T : Type) where
  | column (c : Column T)
  | literal (v : Value)

namespace Operand

def relation? : Operand T → Option (Column T × Relation T)
  | column c => c.relation?.map (c, ·)
  | literal _ => none

/-- A filterable column or a literal. Calls, paths and wildcards are neither. -/
def resolve (s : Schema T) : Comparable → Compiled (Operand T)
  | .call .. => .fail (.unsupported .call)
  | .plain _ (_ :: _) => .fail (.unsupported .path)
  | .plain .wildcard [] => .fail (.unsupported .wildcard)
  | .plain (.ident name) [] =>
    match s.column? name Capability.filterable with
    | some c => return column c
    | none => do
      Run.report (.notFilterable name)
      .fail (.unknownField name)
  | .plain v [] => return literal v

/-- Compares a column with a literal, by the type of the literal. -/
def compareColumn (s : Schema T) (op : Comparison) (column : String) : Value → Compiled T
  | .int n => s.call op.symbol .int (column, n)
  | .float x => s.call op.symbol .float (column, x)
  | .boolean b => s.call op.symbol .boolean (column, b)
  | .string t => s.call op.symbol .string (column, t)
  | v => .fail (.typeMismatch op.symbol v.typeName)

/-- An operand on its own: a column has to be true, and a literal has to differ from zero. -/
def test (s : Schema T) : Operand T → Compiled T
  | column c => s.call Comparison.eq.symbol .boolean (c.name, true)
  | literal v => s.constant !v.isZero

/-- Two literals are compared at once. A literal before a column is taken as after it. -/
def compare (s : Schema T) (op : Comparison) : Operand T → Operand T → Compiled T
  | column left, column right => s.call op.symbol .fields (left.name, right.name)
  | column c, literal v => compareColumn s op c.name v
  | literal v, column c => compareColumn s op c.name v
  | literal left, literal right => do
    let result := left.compare op right
    Run.report (.foldedComparison left op right result)
    s.constant result

end Operand

end Sift
