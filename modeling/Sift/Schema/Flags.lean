/-!
# Sets of flags

A set of numbered flags, kept as the bits of a number. Flags that have no name may be asked for;
nothing ever has them.
-/

namespace Sift

structure Flags where
  bits : Nat
deriving DecidableEq

namespace Flags

def none : Flags := ⟨0⟩

/-- The set that has the flag `i` alone. -/
def single (i : Nat) : Flags := ⟨1 <<< i⟩

def union (s t : Flags) : Flags := ⟨s.bits ||| t.bits⟩

def ofList (sets : List Flags) : Flags := sets.foldl union none

def includes (s required : Flags) : Bool := s.bits &&& required.bits == required.bits

/-- The set under its name, with the names of its flags in the order of the table. -/
def describe (name : String) (table : List (String × Flags)) (s : Flags) : String :=
  let names := (table.filter fun (_, flag) => s.includes flag).map Prod.fst
  .join [name, "(", if names.isEmpty then "0x0" else " | ".intercalate names, ")"]

end Flags

/-! ## What a column may be used for -/

namespace Capability

def filterable : Flags := .single 0

def sortable : Flags := .single 1

def describe : Flags → String :=
  Flags.describe "Capabilities" [("FILTERABLE", filterable), ("SORTABLE", sortable)]

end Capability

end Sift
