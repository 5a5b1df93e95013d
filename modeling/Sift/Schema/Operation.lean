import Sift.Schema.Flags
import Sift.Value.Basic

/-!
# Operations

An operation has a name and, for each shape of operands, perhaps a callback that builds the output.
A callback that fails says why in a text.
-/

namespace Sift

/-- The shapes of operands that an operation may take. -/
inductive Slot where
  | int
  | float
  | boolean
  | string
  /-- Two columns. -/
  | fields
  /-- One column. -/
  | field
  | constant
  /-- Outputs that are already built. -/
  | combine
deriving DecidableEq

namespace Slot

def all : List Slot := [int, float, boolean, string, fields, field, constant, combine]

/-- What a callback of this shape is given. Columns go by their names. -/
abbrev Args (T : Type) : Slot → Type
  | int => String × Int64
  | float => String × Binary64
  | boolean => String × Bool
  | string => String × String
  | fields => String × String
  | field => String
  | constant => Unit
  | combine => List T

def index : Slot → Nat
  | int => 0
  | float => 1
  | boolean => 2
  | string => 3
  | fields => 4
  | field => 5
  | constant => 6
  | combine => 7

def flag (s : Slot) : Flags := .single s.index

def name : Slot → String
  | int => "FIELD_WITH_INT"
  | float => "FIELD_WITH_FLOAT"
  | boolean => "FIELD_WITH_BOOL"
  | string => "FIELD_WITH_STRING"
  | fields => "FIELD_WITH_FIELD"
  | field => "FIELD"
  | constant => "NO_FIELD"
  | combine => "COMBINE"

def describe : Flags → String :=
  Flags.describe "Signatures" (all.map fun s => (s.name, s.flag))

end Slot

abbrev Callback (T : Type) (s : Slot) : Type := s.Args T → Except String T

structure Operation (T : Type) where
  name : String
  callback? : (s : Slot) → Option (Callback T s)

namespace Operation

variable {T : Type}

def named (name : String) : Operation T := ⟨name, fun _ => none⟩

/-- The operation with `f` for operands of the shape `s`, in place of what was there. -/
def on (op : Operation T) (s : Slot) (f : Callback T s) : Operation T :=
  { op with callback? := fun t => if h : s = t then some (h ▸ f) else op.callback? t }

/-- The operation with `f` for a column and a literal of any type. -/
def onLiteral (op : Operation T) (f : String → Value → Except String T) : Operation T :=
  (((op.on .int fun (column, n) => f column (.int n)).on
    .float fun (column, x) => f column (.float x)).on
    .boolean fun (column, b) => f column (.boolean b)).on
    .string fun (column, s) => f column (.string s)

/-- The shapes that have a callback. -/
def signatures (op : Operation T) : Flags :=
  .ofList ((Slot.all.filter fun s => (op.callback? s).isSome).map Slot.flag)

def supports (op : Operation T) (required : Flags) : Bool := op.signatures.includes required

end Operation

/-! ## Names

The names that compiling asks for, besides the symbols of the comparisons.
-/

namespace Operation

def trueName : String := "_true"

def falseName : String := "_false"

def andName : String := "_and"

def orName : String := "_or"

def notName : String := "_not"

def ascendingName : String := "_asc"

def descendingName : String := "_desc"

end Operation

end Sift
