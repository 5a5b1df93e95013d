import Sift.Parse.Error

/-!
# Places in a stream of tokens

A cursor stands on a token and knows what follows. It reads the stream in order, and at the end of
the input it stays where it is.
-/

namespace Sift

structure Cursor where
  current : Token
  rest : List Token
  /-- What is found after the last token. -/
  ending : Except LexError Position

namespace Cursor

/-- The cursor on the first token. -/
def ofStream (s : Stream) : Except LexError Cursor :=
  match s.tokens with
  | t :: rest => .ok ⟨t, rest, s.ending⟩
  | [] => s.ending.map fun p => ⟨.eof p, [], .ok p⟩

def ofLexer (l : Lexer) : Except LexError Cursor := ofStream l.stream.significant

def next (c : Cursor) : Except LexError Cursor :=
  match c.rest with
  | t :: rest => .ok { c with current := t, rest }
  | [] => c.ending.map fun p => { c with current := .eof p }

/-- The tokens from the current one to the end, where there is none. -/
def size (c : Cursor) : Nat := c.rest.length + if c.current.kind = .eof then 0 else 1

theorem size_next_le {c c' : Cursor} (h : c.next = .ok c') : c'.size ≤ c.size := by
  unfold next at h
  split at h
  · next t rest hr =>
    cases h
    simp only [size, hr, List.length_cons]
    split <;> omega
  · obtain ⟨p, -, rfl⟩ : ∃ p, c.ending = .ok p ∧ { c with current := Token.eof p } = c' := by
      cases he : c.ending with
      | error e => simp [he, Except.map] at h
      | ok p => exact ⟨p, rfl, by simpa [he, Except.map] using h⟩
    simp [size, Token.eof]

theorem size_next_lt {c c' : Cursor} (h : c.next = .ok c') (hc : c.current.kind ≠ .eof) :
    c'.size < c.size := by
  unfold next at h
  split at h
  · next t rest hr =>
    cases h
    simp only [size, hr, List.length_cons, hc, if_false]
    split <;> omega
  · next hr =>
    obtain ⟨p, -, rfl⟩ : ∃ p, c.ending = .ok p ∧ { c with current := Token.eof p } = c' := by
      cases he : c.ending with
      | error e => simp [he, Except.map] at h
      | ok p => exact ⟨p, rfl, by simpa [he, Except.map] using h⟩
    simp [size, Token.eof, hr, hc]

end Cursor

end Sift
