import Sift.Proofs.Parse.Recognition
import Sift.Proofs.Token.Sequence

/-!
# Cursors in a stream

A cursor of a stream stands where some of its tokens have been passed. What it stands on is what
reading token after token gives next.
-/

namespace Sift

variable {c c' : Cursor} {ws : List Lexeme}

namespace Cursor

theorem get_zero (s : Stream) : s.get 0 = (ofStream s).map Cursor.current := by
  obtain ⟨ts, e⟩ := s
  cases ts with
  | cons t ts => rfl
  | nil => cases e <;> rfl

theorem exists_cons_of_ofStream {ts : List Token} {e : Except LexError Position}
    (hc : ofStream ⟨ts, e⟩ = .ok c) (hk : c.current.kind ≠ .eof) :
    ∃ us, ts = c.current :: us ∧ c.next = ofStream ⟨us, e⟩ := by
  cases ts with
  | cons t ts =>
      cases hc
      exact ⟨ts, rfl, next_eq_ofStream t ts e⟩
  | nil =>
      cases e with
      | error e => cases hc
      | ok p =>
          cases hc
          exact absurd rfl hk

/-- What has been passed is the first tokens of the stream. -/
theorem exists_of_passes {ts : List Token} {e : Except LexError Position}
    (hc : ofStream ⟨ts, e⟩ = .ok c) (h : c.Passes ws c') :
    ∃ us vs, ts = us ++ vs ∧ us.map Token.lexeme = ws ∧ ofStream ⟨vs, e⟩ = .ok c' := by
  induction ws generalizing ts c with
  | nil =>
      cases h
      exact ⟨[], ts, rfl, rfl, hc⟩
  | cons w ws ih =>
      obtain ⟨rfl, hread, c₁, hn, h⟩ := h
      obtain ⟨ts, rfl, hnext⟩ := exists_cons_of_ofStream hc hread.kind_ne_eof
      obtain ⟨us, vs, rfl, rfl, hvs⟩ := ih (hnext.symm.trans hn) h
      exact ⟨c.current :: us, vs, rfl, rfl, hvs⟩

/-- At the end of the input reading on stays there. -/
theorem next_of_eof {ts : List Token} {e : Except LexError Position} (hc : ofStream ⟨ts, e⟩ = .ok c)
    (hts : ∀ t ∈ ts, t.kind ≠ .eof) (hk : c.current.kind = .eof) : c.next = .ok c := by
  cases ts with
  | cons t ts =>
      cases hc
      exact absurd hk (hts _ List.mem_cons_self)
  | nil =>
      cases e with
      | error e => cases hc
      | ok p =>
          cases hc
          rfl

/-- What follows the current token is the stream without it. -/
theorem tail_of_ofStream {s : Stream} (h : ofStream s = .ok c) : s.tail = ⟨c.rest, c.ending⟩ := by
  obtain ⟨ts, e⟩ := s
  cases ts with
  | cons t ts =>
      cases h
      rfl
  | nil =>
      cases e with
      | error e => cases h
      | ok p =>
          cases h
          rfl

/-- A place has one stream only, as long as no token of it is the end of the input. -/
theorem eq_of_ofStream {ts us : List Token} {e : Except LexError Position}
    (hts : ofStream ⟨ts, e⟩ = .ok c) (hus : ofStream ⟨us, e⟩ = .ok c)
    (hne : ∀ t ∈ ts, t.kind ≠ .eof) (hne' : ∀ t ∈ us, t.kind ≠ .eof) : ts = us := by
  by_cases hk : c.current.kind = .eof
  · have hnil : ∀ {vs : List Token}, ofStream ⟨vs, e⟩ = .ok c → (∀ t ∈ vs, t.kind ≠ .eof) →
        vs = [] := by
      intro vs hvs hne
      cases vs with
      | nil => rfl
      | cons t vs =>
          cases hvs
          exact absurd hk (hne _ List.mem_cons_self)
    rw [hnil hts hne, hnil hus hne']
  · obtain ⟨ts, rfl, -⟩ := exists_cons_of_ofStream hts hk
    obtain ⟨us, rfl, -⟩ := exists_cons_of_ofStream hus hk
    have hts : ts = c.rest := congrArg Cursor.rest (Except.ok.inj hts)
    have hus : us = c.rest := congrArg Cursor.rest (Except.ok.inj hus)
    rw [hts, hus]

theorem ending_of_ofStream_error {s : Stream} {e : LexError} (h : ofStream s = .error e) :
    s.ending = .error e := by
  obtain ⟨ts, ending⟩ := s
  cases ts with
  | cons _ _ => cases h
  | nil =>
      cases ending with
      | error _ =>
          cases h
          rfl
      | ok _ => cases h

theorem rest_of_next_error {e : LexError} (h : c.next = .error e) : c.rest = [] := by
  unfold next at h
  split at h
  · cases h
  · assumption

end Cursor

/-- The tokens before a place in the stream are read first, then what a cursor there stands on. -/
theorem Lexer.tokenAt_of_stream {l : Lexer} {us vs : List Token} {e : Except LexError Position}
    (hs : l.stream.significant = ⟨us ++ vs, e⟩) :
    (∀ i (h : i < us.length), l.tokenAt i = .ok us[i]) ∧
      l.tokenAt us.length = (Cursor.ofStream ⟨vs, e⟩).map Cursor.current := by
  simp only [tokenAt_eq_get, hs]
  constructor
  · intro i hi
    rw [Stream.get_of_lt (by simp; omega), List.getElem_append_left hi]
  · rw [← Cursor.get_zero]
    exact Stream.get_append 0

end Sift
