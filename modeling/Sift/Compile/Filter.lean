import Sift.Compile.Operand
import Sift.Filter.Parser

/-!
# Compiling filters

A filter becomes one output. Its parts are built from left to right, and each is joined at once to
what stands before it: terms of a clause by `_or`, clauses by `_and`. A clause without terms counts
for nothing, and a filter of nothing is true.
-/

namespace Sift

variable {T : Type}

/-- Joins `out` to what is already there. -/
def Schema.join (s : Schema T) (name : String) (before? : Option T) (out : T) : Compiled T :=
  match before? with
  | none => pure out
  | some before => s.combine name [before, out]

def Schema.orTrue (s : Schema T) : Option T → Compiled T
  | some out => pure out
  | none => s.constant true

mutual

def Term.compile (s : Schema T) : Term → Compiled T
  | .mk negated body => do
    let out ← Simple.compile s body
    if negated then s.combine Operation.notName [out] else return out

def Simple.compile (s : Schema T) : Simple → Compiled T
  | .group f => do s.orTrue (← Filter.compileAfter s none f)
  | .test c => do Operand.test s (← Operand.resolve s c)
  | .compare l op (.group f) => do
    let left ← Operand.resolve s l
    match op, left.relation? with
    | .has, some (c, r) =>
      Run.report (.relatedFilter c.name)
      let inner ← r.schema.orTrue (← Filter.compileAfter r.schema none f)
      r.enter c.name inner
    | _, _ => .fail (.unsupported .relation)
  | .compare l op (.comparable r) => do
    let left ← Operand.resolve s l
    if left.relation?.isSome then .fail (.unsupported .relation)
    else Operand.compare s op left (← Operand.resolve s r)

/-- The clause joined to `before?`, which holds the terms before it. -/
def Clause.compileAfter (s : Schema T) (before? : Option T) : List Term → Compiled (Option T)
  | [] => return before?
  | term :: r => do
    let out ← Term.compile s term
    Clause.compileAfter s (some (← s.join Operation.orName before? out)) r

/-- The filter joined to `before?`, which holds the clauses before it. -/
def Filter.compileAfter (s : Schema T) (before? : Option T) : List (List Term) → Compiled (Option T)
  | [] => return before?
  | clause :: r => do
    match ← Clause.compileAfter s none clause with
    | none => Filter.compileAfter s before? r
    | some out => Filter.compileAfter s (some (← s.join Operation.andName before? out)) r

end

namespace Schema

def compileFilter (s : Schema T) (f : Filter) : Compiled T := do
  s.orTrue (← Filter.compileAfter s none f)

/-- Reads and compiles a filter. -/
def filter (s : Schema T) (text : String) : Run QueryError T :=
  match Filter.parse text with
  | .error e => .fail (.parse e)
  | .ok f => (s.compileFilter f).mapError .compile

end Schema

end Sift
