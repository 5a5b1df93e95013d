import Sift.Filter.Parser
import Sift.Json.Basic
import Sift.Order.Basic

/-!
# Commands

Three ways to inspect a text: the symbols of its language, its tokens, and its canonical form.
-/

namespace Sift

inductive CommandError where
  | parse (e : ParseError)
  | lex (e : LexError)
deriving DecidableEq

def CommandError.message : CommandError → String
  | parse e => .join ["parse error: ", e.message]
  | lex e => .join ["lex error: ", e.message]

namespace Command

def symbols (g : Grammar) : Json := .object (g.symbols.map fun (name, n) => (name, .int n))

/-- A token with its number in the table of symbols. -/
def describeToken (g : Grammar) (t : Token) : Json :=
  .object [
    ("column", .int t.position.column),
    ("kind", .string t.kind.name),
    ("line", .int t.position.line),
    ("span", .array [.int t.span.start, .int t.span.stop]),
    ("symbol", (g.symbol? t.kind).elim .null .int),
    ("text", .string t.text)]

/-- All tokens as they stand in the text, with space and the end of input. -/
def tokens (g : Grammar) (text : String) : Except CommandError Json :=
  match (Lexer.ofText g text).tokenize with
  | .ok ts => .ok (.array (ts.map (describeToken g)))
  | .error e => .error (.lex e)

/-- The canonical form of a text. -/
def canonical (g : Grammar) (text : String) : Except CommandError String :=
  let rendered :=
    match g with
    | .filter => (Filter.parse text).map Filter.render
    | .orderBy => (Order.parse text).map Order.render
  rendered.mapError .parse

end Command

end Sift
