import Sift.Filter.Basic
import Sift.Parse.Parser

/-!
# Reading filters

    Filter     := Clause ("AND" Clause)*
    Clause     := Term ("OR" Term)*
    Term       := ("NOT" | "-")? Simple
    Simple     := "(" Filter ")" | Comparable (Comparison Arg)?
    Comparable := Value ("." Field)* ("(" (Arg ("," Arg)*)? ")")?
    Arg        := "(" Filter ")" | Comparable
    Field      := Value | "AND" | "OR" | "NOT"

Each parenthesis that stands open takes one from the depth that is left, and what may stand within
parentheses is defined by recursion on that depth.
-/

namespace Sift

/-- How many parentheses may stand open at once. -/
def Filter.maxDepth : Nat := 100

open Sift.Parser

/-! ## Values and paths -/

namespace Value

def invalid (kind : NumberKind) : Parser Value := do fail (.invalidLiteral kind (← current))

/-- Accepts the current token as `v`. -/
def accept (v : Value) : Parser Value := do
  let _ ← advance
  return v

def acceptInt (t : Token) : Parser Value :=
  match Decimal.int64? t.text.toList with
  | some n => accept (.int n)
  | none => invalid .integer

/-- A literal too large for a finite number is refused. -/
def acceptFloat (t : Token) : Parser Value :=
  match Decimal.binary64? t.text.toList with
  | some x => if x.isFinite then accept (.float x) else invalid .float
  | none => invalid .float

def parser : Parser Value := do
  let t ← current
  match t.kind with
  | .star => accept .wildcard
  | .float => acceptFloat t
  | .int => acceptInt t
  | .string => accept (.string t.text)
  | .trueWord => accept (.boolean true)
  | .falseWord => accept (.boolean false)
  | .ident => accept (.ident t.text)
  | _ => unexpected .value

end Value

def Field.parser : Parser Field := do
  match (← current).kind with
  | .andWord | .orWord | .notWord => return .keyword (← advance).text
  | _ => return .value (← Value.parser)

def Path.parser : Parser (List Field) := followed .dot Field.parser

/-! ## Parentheses -/

/-- What may stand within parentheses: a filter, or the arguments of a call. -/
structure Enclosed where
  group : Parser Filter
  args : Parser (List Arg)

def inParens {α : Type} (p : Parser α) : Parser α := do
  let _ ← expect .openParen .openParen
  let a ← p
  let _ ← expect .closeParen .closeParen
  return a

def Comparable.parser (inner : Enclosed) : Parser Comparable := do
  let value ← Value.parser
  let path ← Path.parser
  if ← looksAt .openParen then return .call value path (← inner.args)
  else return .plain value path

def Arg.parser (inner : Enclosed) : Parser Arg := do
  if ← looksAt .openParen then return .group (← inner.group)
  else return .comparable (← Comparable.parser inner)

def Args.parser (inner : Enclosed) : Parser (List Arg) := do
  if ← looksAt .closeParen then return []
  else separated .comma (Arg.parser inner)

def Comparison.parser : Parser Comparison := do
  match Comparison.ofSymbol? (← current).text with
  | some op =>
    let _ ← advance
    return op
  | none => unexpected .comparison

def Simple.parser (inner : Enclosed) : Parser Simple := do
  if ← looksAt .openParen then return .group (← inner.group)
  else
    let left ← Comparable.parser inner
    if ← looksAt .comparison then
      let op ← Comparison.parser
      return .compare left op (← Arg.parser inner)
    else return .test left

def Term.parser (inner : Enclosed) : Parser Term := do
  let kind := (← current).kind
  if kind = .notWord || kind = .minus then
    let _ ← advance
    return .mk true (← Simple.parser inner)
  else return .mk false (← Simple.parser inner)

def Clause.parser (inner : Enclosed) : Parser Clause :=
  separated .orWord (Term.parser inner)

namespace Filter

def parserWithin (inner : Enclosed) : Parser Filter :=
  separated .andWord (Clause.parser inner)

def tooDeep {α : Type} : Parser α := do fail (.tooDeep maxDepth (← current))

/-- What stands within parentheses where `depth` more may be opened. -/
def enclosed : Nat → Enclosed
  | 0 => ⟨tooDeep, tooDeep⟩
  | depth + 1 =>
    let inner := enclosed depth
    ⟨inParens (parserWithin inner), inParens (Args.parser inner)⟩

def parser : Parser Filter := parserWithin (enclosed maxDepth)

def parse (text : String) : Except ParseError Filter :=
  (whole parser).readFrom (.ofText .filter text)

end Filter

end Sift
