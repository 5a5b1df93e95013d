import Sift.Compile.Operand
import Sift.Order.Basic

/-!
# Compiling orders

An order becomes one output for each key, in the same sequence.
-/

namespace Sift

variable {T : Type}

def Key.direction (k : Key) : String :=
  if k.descending then Operation.descendingName else Operation.ascendingName

/-- Column and operation are looked up before the event, and the callback is called after it. -/
def Key.compile (s : Schema T) (k : Key) : Compiled T :=
  match k.path with
  | [name] =>
    match s.column? name Capability.sortable with
    | none => .fail (.unknownField name)
    | some c => do
      let op ← s.require k.direction .field
      Run.report (.orderingKey c.name k.direction)
      op.call .field c.name
  | _ => .fail (.unsupported .path)

namespace Schema

def compileOrder (s : Schema T) : Order → Compiled (List T)
  | [] => return []
  | k :: r => do
    let out ← k.compile s
    return out :: (← s.compileOrder r)

/-- Reads and compiles an order. -/
def order (s : Schema T) (text : String) : Run QueryError (List T) :=
  match Order.parse text with
  | .error e => .fail (.parse e)
  | .ok o => (s.compileOrder o).mapError .compile

end Schema

end Sift
