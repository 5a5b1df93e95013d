import Sift.Token.Lexer

/-!
# Parse errors
-/

namespace Sift

/-- What the grammar asks for at a place. -/
inductive Expected where
  | endOfInput
  | openParen
  | closeParen
  | value
  | comparison
  | identifier
deriving DecidableEq

def Expected.render : Expected → String
  | endOfInput => "end of input"
  | openParen => "'('"
  | closeParen => "')'"
  | value => "value"
  | comparison => "comparison operator"
  | identifier => "identifier"

/-- The numbers that a literal may be too large for. -/
inductive NumberKind where
  | integer
  | float
deriving DecidableEq

def NumberKind.name : NumberKind → String
  | integer => "integer"
  | float => "float"

inductive ParseError where
  | lex (e : LexError)
  | unexpected (expected : Expected) (found : Token)
  | invalidLiteral (kind : NumberKind) (found : Token)
  /-- More than `limit` parentheses would be open after `found`. -/
  | tooDeep (limit : Nat) (found : Token)
deriving DecidableEq

namespace ParseError

def position : ParseError → Position
  | lex e => e.position
  | unexpected _ t | invalidLiteral _ t | tooDeep _ t => t.position

def message (e : ParseError) : String :=
  match e with
  | lex e => e.message
  | unexpected expected t =>
    .join [t.position.render, ": unexpected ", t.render, " (expected ", expected.render, ")"]
  | invalidLiteral kind t =>
    .join [t.position.render, ": invalid ", kind.name, " literal ", Text.quoted t.text]
  | tooDeep limit t =>
    .join [t.position.render, ": nesting exceeds ", toString limit, " levels"]

end ParseError

end Sift
