import Sift.Token.Grammar

/-!
# Reading tokens

A lexer is a place in a text. `raw` reads the next token as it stands, `next` skips space and takes
the quotes off strings. Both leave the lexer at the place of an error, so that an error repeats, as
does the end of the input. `stream` is all that is left to read.
-/

namespace Sift

/-- No token rule applies at `position`. -/
structure LexError where
  position : Position
  /-- The input from there on, cut short. -/
  sample : String
deriving DecidableEq

namespace LexError

def sampleLength : Nat := 16

def sampleOf (s : List Char) : String :=
  String.ofList (s.take sampleLength ++ if s.length > sampleLength then ['.', '.', '.'] else [])

def message (e : LexError) : String :=
  .join [e.position.render, ": invalid input text ", Text.quoted e.sample]

end LexError

/-- The tokens up to the end of a reading, and the end of input or the error that is there. -/
structure Stream where
  tokens : List Token
  ending : Except LexError Position

namespace Stream

def cons (t : Token) (s : Stream) : Stream := { s with tokens := t :: s.tokens }

/-- The tokens that carry meaning: without space, and strings without quotes. -/
def significant (s : Stream) : Stream :=
  { s with tokens := (s.tokens.filter (·.kind ≠ .space)).map Token.unquote }

/-- The tokens with the end of input after them. -/
def complete (s : Stream) : Except LexError (List Token) :=
  s.ending.map fun p => s.tokens ++ [.eof p]

end Stream

structure Lexer where
  grammar : Grammar
  position : Position
  rest : List Char

namespace Lexer

def ofText (g : Grammar) (text : String) : Lexer := ⟨g, .start, text.toList⟩

def raw (l : Lexer) : Except LexError Token × Lexer :=
  if l.rest = [] then (.ok (.eof l.position), l)
  else
    match l.grammar.split? l.rest with
    | none => (.error ⟨l.position, LexError.sampleOf l.rest⟩, l)
    | some (kind, w, rest) =>
      let stop := l.position.advance w
      (.ok ⟨kind, String.ofList w, ⟨l.position.offset, stop.offset⟩, l.position⟩,
        { l with position := stop, rest })

theorem length_lt_of_raw {l l' : Lexer} {t : Token} (h : l.raw = (.ok t, l'))
    (ht : t.kind ≠ .eof) : l'.rest.length < l.rest.length := by
  unfold raw at h
  split at h
  · cases h; exact absurd rfl ht
  · split at h
    · simp at h
    · next hs => cases h; exact Grammar.length_lt_of_split? hs

def next (l : Lexer) : Except LexError Token × Lexer :=
  match _h : l.raw with
  | (.error e, l') => (.error e, l')
  | (.ok t, l') => if _ht : t.kind = .space then l'.next else (.ok t.unquote, l')
termination_by l.rest.length
decreasing_by exact length_lt_of_raw _h (by simp [_ht])

def stream (l : Lexer) : Stream :=
  match _h : l.raw with
  | (.error e, _) => ⟨[], .error e⟩
  | (.ok t, l') =>
    if _ht : t.kind = .eof then ⟨[], .ok t.position⟩
    else l'.stream.cons t
termination_by l.rest.length
decreasing_by exact length_lt_of_raw _h _ht

def tokenize (l : Lexer) : Except LexError (List Token) := l.stream.complete

end Lexer

end Sift
