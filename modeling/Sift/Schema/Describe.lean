import Sift.Schema.Basic

/-!
# Descriptions of schemas

The text shows what a schema holds, without the callbacks.
-/

namespace Sift

variable {T : Type}

def Operation.describe (op : Operation T) : String :=
  .join ["OperatorFunc \x7b name: ", Text.quoted op.name,
    ", signatures: ", Slot.describe op.signatures, " \x7d"]

/-- Parts in brackets. -/
def listed (parts : List String) : String := .join ["[", ", ".intercalate parts, "]"]

mutual

def Column.describe : Column T → String
  | ⟨name, capabilities, relation?⟩ =>
    .join ["Column \x7b field: ", Text.quoted name,
      ", capabilities: ", Capability.describe capabilities,
      ", nested: ", Relation.describe relation?, " \x7d"]

def Relation.describe : Option (Relation T) → String
  | none => "None"
  | some ⟨schema, _⟩ => .join ["Some(", schema.describe, ")"]

def Schema.describe : Schema T → String
  | ⟨columns, operations⟩ =>
    .join ["Declaration \x7b columns: ", listed (Columns.describe columns),
      ", operators: ", listed (operations.map Operation.describe), " \x7d"]

def Columns.describe : List (Column T) → List String
  | [] => []
  | c :: r => c.describe :: Columns.describe r

end

end Sift
