import Sift.Parse.Parser

/-!
# Orders

An order lists columns by rank, each ascending or descending.

    Order := Key ("," Key)*
    Key   := Ident ("." Ident)* "desc"?
-/

namespace Sift

/-- A column to order by. The path may have several segments; a schema accepts only one. -/
structure Key where
  path : List String
  descending : Bool
deriving DecidableEq

abbrev Order := List Key

namespace Key

def chars (k : Key) : List Char :=
  ['.'].intercalate (k.path.map String.toList) ++
    if k.descending then [' ', 'd', 'e', 's', 'c'] else []

open Sift.Parser

def identParser : Parser String := do return (← expect .ident .identifier).text

def parser : Parser Key := do
  let path ← separated .dot identParser
  if ← looksAt .descWord then
    let _ ← advance
    return ⟨path, true⟩
  else return ⟨path, false⟩

end Key

namespace Order

def chars (o : Order) : List Char := [',', ' '].intercalate (o.map Key.chars)

def render (o : Order) : String := String.ofList o.chars

def parser : Parser Order := Parser.separated .comma Key.parser

def parse (text : String) : Except ParseError Order :=
  (Parser.whole parser).readFrom (.ofText .orderBy text)

end Order

end Sift
