import Sift.Text.Position
import Sift.Text.Quoted
import Sift.Text.Slice

/-!
# Tokens
-/

namespace Sift

inductive Kind where
  | space
  | andWord
  | orWord
  | notWord
  | descWord
  | openParen
  | closeParen
  | comma
  | dot
  | minus
  | comparison
  | trueWord
  | falseWord
  | ident
  | float
  | int
  | star
  | string
  | eof
deriving DecidableEq

namespace Kind

/-- The name a symbol table lists the kind under. -/
def name : Kind → String
  | space => "whitespace"
  | andWord => "And"
  | orWord => "Or"
  | notWord => "Not"
  | descWord => "Desc"
  | openParen => "LParen"
  | closeParen => "RParen"
  | comma => "Comma"
  | dot => "Dot"
  | minus => "Neg"
  | comparison => "Operator"
  | trueWord => "True"
  | falseWord => "False"
  | ident => "Ident"
  | float => "Float"
  | int => "Int"
  | star => "Wildcard"
  | string => "String"
  | eof => "EOF"

end Kind

/-- A piece of the input. A string token that has lost its quotes still spans them. -/
structure Token where
  kind : Kind
  text : String
  span : Span
  position : Position
deriving DecidableEq

namespace Token

/-- The end of the input at `p`. -/
def eof (p : Position) : Token := ⟨.eof, "", ⟨p.offset, p.offset⟩, p⟩

/-- How messages name the token. -/
def render (t : Token) : String :=
  match t.kind with
  | .eof => "EOF"
  | .string => .join ["string ", Text.quoted t.text]
  | _ => Text.quoted t.text

/-- A string token without the first and the last byte of its text, which are its quotes; any other
token as it is. -/
def unquote (t : Token) : Token :=
  match t.kind with
  | .string => { t with text := (Text.slice? t.text 1 (t.text.utf8ByteSize - 1)).getD "" }
  | _ => t

end Token

end Sift
