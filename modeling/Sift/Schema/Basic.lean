import Sift.Schema.Operation
import Sift.Text.Ordered

/-!
# Schemas

A schema says which columns there are, what each may be used for, and which operations build the
output. A relational column leads to a schema of its own. Of two entries of one name the later one
counts.
-/

namespace Sift

mutual

structure Column (T : Type) where
  name : String
  capabilities : Flags
  relation? : Option (Relation T)

/-- The schema behind a column, and how an output built with it enters the outer one. -/
structure Relation (T : Type) where
  schema : Schema T
  embed : T → Except String T

/-- Columns and operations, each in the order of their names. -/
structure Schema (T : Type) where
  columns : List (Column T)
  operations : List (Operation T)

end

inductive SchemaError where
  | emptyColumnName
  | emptyOperationName
deriving DecidableEq

def SchemaError.message : SchemaError → String
  | emptyColumnName => "column name must not be empty"
  | emptyOperationName => "operator name must not be empty"

variable {T : Type}

namespace Column

def named (name : String) : Column T := ⟨name, .none, none⟩

def filterable (c : Column T) : Column T :=
  { c with capabilities := c.capabilities.union Capability.filterable }

def sortable (c : Column T) : Column T :=
  { c with capabilities := c.capabilities.union Capability.sortable }

def relatedBy (c : Column T) (schema : Schema T) (embed : T → Except String T) : Column T :=
  { c with relation? := some ⟨schema, embed⟩ }

end Column

namespace Schema

def build (columns : List (Column T)) (operations : List (Operation T)) :
    Except SchemaError (Schema T) :=
  if columns.any (·.name = "") then .error .emptyColumnName
  else if operations.any (·.name = "") then .error .emptyOperationName
  else .ok {
    columns := columns.foldl (fun table c => Text.insertBy Column.name c table) []
    operations := operations.foldl (fun table op => Text.insertBy Operation.name op table) [] }

/-- The column of the name, if it may be used for all that is required. -/
def column? (s : Schema T) (name : String) (required : Flags) : Option (Column T) :=
  s.columns.find? fun c => c.name = name && c.capabilities.includes required

/-- The operation of the name, if it takes all the shapes required. -/
def operation? (s : Schema T) (name : String) (required : Flags) : Option (Operation T) :=
  s.operations.find? fun op => op.name = name && op.supports required

end Schema

end Sift
