import Sift.Proofs.Token.Reading

/-!
# Reading token after token

Reading the tokens of a text one by one gives those of its stream, and from then on again and again
what is found after them.
-/

namespace Sift

/-- What is found after `k` tokens: the next one, or the end of the stream. -/
def Stream.get (s : Stream) (k : Nat) : Except LexError Token :=
  match s.tokens[k]? with
  | some t => .ok t
  | none => s.ending.map Token.eof

/-- The stream without its first token. -/
def Stream.tail (s : Stream) : Stream := { s with tokens := s.tokens.tail }

/-- What reading a token gives when `k` of them have been read. -/
def Lexer.tokenAt (l : Lexer) : Nat → Except LexError Token
  | 0 => l.next.1
  | k + 1 => l.next.2.tokenAt k

namespace Stream

theorem get_tail (s : Stream) (k : Nat) : s.tail.get k = s.get (k + 1) := by
  rw [get, get, tail, List.getElem?_tail]

theorem get_of_lt {ts : List Token} {e : Except LexError Position} {k : Nat} (h : k < ts.length) :
    get ⟨ts, e⟩ k = .ok ts[k] := by
  rw [get, List.getElem?_eq_getElem h]

theorem get_append {ts us : List Token} {e : Except LexError Position} (k : Nat) :
    get ⟨ts ++ us, e⟩ (ts.length + k) = get ⟨us, e⟩ k := by
  simp only [get, List.getElem?_append_right (Nat.le_add_right _ _), Nat.add_sub_cancel_left]

end Stream

namespace Lexer

variable {l : Lexer}

theorem next_of_raw_error {e : LexError} {l' : Lexer} (h : l.raw = (.error e, l')) :
    l.next = (.error e, l') := by
  rw [next]
  split <;> simp_all

theorem next_of_raw_ok {t : Token} {l' : Lexer} (h : l.raw = (.ok t, l')) :
    l.next = if t.kind = .space then l'.next else (.ok t.unquote, l') := by
  rw [next]
  split
  · simp_all
  · next t' l'' h' =>
      rw [h] at h'
      cases h'
      simp

/-- Reading a raw token takes the first of the stream away, if there is one. -/
theorem raw_eq_stream : l.raw.1 = l.stream.get 0 ∧ l.raw.2.stream = l.stream.tail := by
  induction l using readInduction with
  | nil l hnil =>
      rw [raw_of_nil hnil]
      simp only [stream_of_nil hnil]
      exact ⟨rfl, rfl⟩
  | error l hne hs =>
      rw [raw_of_none hne hs]
      simp only [stream_of_none hne hs]
      exact ⟨rfl, rfl⟩
  | token l k w rest hs _ =>
      rw [raw_of_some hs, stream_of_some hs]
      exact ⟨rfl, rfl⟩

/-- Reading a token takes the first one away that carries meaning, if there is one. -/
theorem next_eq_stream :
    l.next.1 = l.stream.significant.get 0 ∧
      l.next.2.stream.significant = l.stream.significant.tail := by
  induction l using readInduction with
  | nil l hnil =>
      rw [next_of_raw_ok (raw_of_nil hnil), if_neg (by simp [Token.eof]), stream_of_nil hnil]
      exact ⟨rfl, rfl⟩
  | error l hne hs =>
      rw [next_of_raw_error (raw_of_none hne hs), stream_of_none hne hs]
      exact ⟨rfl, rfl⟩
  | token l k w rest hs ih =>
      rw [next_of_raw_ok (raw_of_some hs), stream_of_some hs]
      by_cases hk : k = .space
      · rw [if_pos hk]
        simpa [Stream.significant, Stream.cons, hk] using ih
      · rw [if_neg hk]
        simp [Stream.significant, Stream.cons, Stream.get, Stream.tail, hk]

theorem tokenAt_eq_get (k : Nat) : l.tokenAt k = l.stream.significant.get k := by
  induction k generalizing l with
  | zero => exact next_eq_stream.1
  | succ k ih => rw [tokenAt, ih, next_eq_stream.2, Stream.get_tail]

/-- Of two beginnings of what is read the shorter one begins the longer one. -/
theorem prefix_of_tokenAt {b b' : List Token}
    (hb : ∀ i (h : i < b.length), l.tokenAt i = .ok b[i])
    (hb' : ∀ i (h : i < b'.length), l.tokenAt i = .ok b'[i]) (hlength : b.length ≤ b'.length) :
    b <+: b' := by
  rw [List.prefix_iff_eq_take]
  apply List.ext_getElem
  · simp [hlength]
  · intro i hi _
    have heq := (hb i hi).symm.trans (hb' i (hi.trans_le hlength))
    simpa using heq

theorem proper_of_mem_stream {t : Token} (hg : l.grammar = .filter) (h : t ∈ l.stream.tokens)
    (ht : t.kind ≠ .space) : t.unquote.lexeme.Proper := by
  obtain ⟨s, w, rest, hs, htext⟩ := exists_split_of_mem_stream h
  obtain ⟨k, x, span, p⟩ := t
  obtain rfl : x = String.ofList w := htext
  rw [Grammar.lexeme_unquote_of_split? hs]
  exact Grammar.proper_of_split? (hg ▸ hs) ht

/-- The tokens of a stream have texts of their kinds, also where it ends in an error. -/
theorem proper_of_mem_significant {t : Token} (hg : l.grammar = .filter)
    (h : t ∈ l.stream.significant.tokens) : t.lexeme.Proper := by
  simp only [Stream.significant, List.mem_map, List.mem_filter] at h
  obtain ⟨u, ⟨hu, hspace⟩, rfl⟩ := h
  exact proper_of_mem_stream hg hu (of_decide_eq_true hspace)

end Lexer

end Sift
