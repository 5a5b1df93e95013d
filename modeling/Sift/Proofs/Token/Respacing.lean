import Sift.Proofs.Token.Joining
import Sift.Proofs.Token.Places
import Sift.Proofs.Token.Sequence

/-!
# Space between tokens

Space may be put between any two tokens of a text, and space that is there may be any other. What
carries meaning is read as before.
-/

namespace Sift

/-! ## A token and a part of what follows it -/

/-- A rule that reads a word where more follows reads it where less does. -/
theorem Rule.read_of_append {r : Rule} {s t w rest : List Char}
    (h : r.read (s ++ t) = some (w, rest ++ t)) : r.read s = some (w, rest) := by
  obtain ⟨heq, hw, hmax⟩ := read_eq_some_iff.1 h
  rw [← List.append_assoc] at heq
  exact read_eq_some_iff.2
    ⟨List.append_cancel_right heq, hw, fun v hv hp => hmax v hv (hp.trans (List.prefix_append s t))⟩

theorem Rule.read_eq_none_of_append {r : Rule} {s t : List Char} (h : r.read (s ++ t) = none) :
    r.read s = none :=
  read_eq_none_iff.2 fun v hv hp => read_eq_none_iff.1 h v hv (hp.trans (List.prefix_append s t))

namespace Grammar

variable {g : Grammar} {k : Kind} {c : Char} {s t w rest : List Char}

theorem split?_of_append (h : g.split? (s ++ t) = some (k, w, rest ++ t)) :
    g.split? s = some (k, w, rest) := by
  obtain ⟨before, r, after, hrules, hr, hbefore⟩ := List.findSome?_eq_some_iff.1 h
  obtain ⟨⟨w', rest'⟩, hread, he⟩ := Option.map_eq_some_iff.1 hr
  obtain ⟨rfl, rfl, rfl⟩ : r.kind = k ∧ w' = w ∧ rest' = rest ++ t := by simpa using he
  refine List.findSome?_eq_some_iff.2 ⟨before, r, after, hrules, ?_, fun r' hr' => ?_⟩
  · rw [Rule.read_of_append hread]
    rfl
  · rw [Rule.read_eq_none_of_append (Option.map_eq_none_iff.1 (hbefore r' hr'))]
    rfl

/-- A token stays as it is where space comes before some part of what follows it. -/
theorem split?_of_space {p r : List Char} (hc : isSpace c = true)
    (h : g.split? (w ++ (p ++ r)) = some (k, w, p ++ r)) (hk : k ≠ .space) :
    g.split? (w ++ (p ++ c :: t)) = some (k, w, p ++ c :: t) := by
  rw [← List.append_assoc] at h ⊢
  have hbreak := mentionsLater_eq_false (g := g) (c := c) (by simp [isBreak, hc])
  exact split?_append_of_ne_space hbreak (split?_of_append h) hk t

end Grammar

/-! ## Changing the space of a text -/

open Grammar (isSpace)

/-- The text has the tokens `ts` one after the other, with space put before, between and after them,
and with other space for that among them. -/
inductive Respaced : List Token → List Char → Prop
  | nil : Respaced [] []
  | insert {ts : List Token} {x s : List Char} :
      (∀ c ∈ x, isSpace c = true) → Respaced ts s → Respaced ts (x ++ s)
  | keep {t : Token} {ts : List Token} {s : List Char} :
      Respaced ts s → Respaced (t :: ts) (t.text.toList ++ s)
  | replace {t : Token} {ts : List Token} {x s : List Char} :
      t.kind = .space → x ≠ [] → (∀ c ∈ x, isSpace c = true) → Respaced ts s →
      Respaced (t :: ts) (x ++ s)

/-- The text goes on as it did, up to some space. -/
theorem Respaced.exists_space {ts : List Token} {s : List Char} (h : Respaced ts s) :
    s = Token.chars ts ∨ ∃ p c r t, Token.chars ts = p ++ r ∧ isSpace c = true ∧
      s = p ++ c :: t := by
  induction h with
  | nil => exact .inl rfl
  | @insert ts x s hx _ ih =>
      cases x with
      | nil => exact ih
      | cons c x => exact .inr ⟨[], c, Token.chars ts, x ++ s, rfl, hx c List.mem_cons_self, rfl⟩
  | @keep t ts s _ ih =>
      rcases ih with rfl | ⟨p, c, r, u, hts, hc, rfl⟩
      · exact .inl rfl
      · refine .inr ⟨t.text.toList ++ p, c, r, u, ?_, hc, by simp⟩
        rw [List.append_assoc, ← hts]
        rfl
  | @replace t ts x s _ hne hx _ _ =>
      obtain ⟨c, x, rfl⟩ := List.exists_cons_of_ne_nil hne
      exact .inr ⟨[], c, Token.chars (t :: ts), x ++ s, rfl, hx c List.mem_cons_self, rfl⟩

namespace Lexer

variable {l l' : Lexer} {p : Position}

/-- The first token of a stream, and the lexer behind it. -/
theorem exists_of_stream_cons {t : Token} {ts : List Token} (h : l.stream = ⟨t :: ts, .ok p⟩) :
    ∃ (w : List Char) (l' : Lexer), l.grammar.split? l.rest = some (t.kind, w, l'.rest) ∧
      t.text = String.ofList w ∧ l'.grammar = l.grammar ∧ l'.stream = ⟨ts, .ok p⟩ := by
  induction l using readInduction with
  | nil l hnil => simp [stream_of_nil hnil] at h
  | error l hne hs => simp [stream_of_none hne hs] at h
  | token l k w rest hs _ =>
      rw [stream_of_some hs, Stream.cons, Stream.mk.injEq, List.cons.injEq] at h
      obtain ⟨⟨rfl, rfl⟩, he⟩ := h
      exact ⟨w, ⟨l.grammar, l.position.advance w, rest⟩, hs, rfl, rfl, by rw [← he]⟩

theorem chars_stream (h : l.stream.ending = .ok p) : Token.chars l.stream.tokens = l.rest := by
  induction l using readInduction with
  | nil l hnil =>
      rw [stream_of_nil hnil, hnil]
      rfl
  | error l hne hs =>
      rw [stream_of_none hne hs] at h
      cases h
  | token l k w rest hs ih =>
      rw [stream_of_some hs] at h ⊢
      rw [Stream.cons, Token.chars, List.flatMap_cons, String.toList_ofList,
        ← Grammar.append_of_split? hs]
      exact congrArg (w ++ ·) (ih h)

/-- What carries meaning is read from a text with other space. -/
theorem reads_of_respaced {ts : List Token} {s : List Char} (h : Respaced ts s)
    (hl : l.stream = ⟨ts, .ok p⟩) :
    l.grammar.Reads s ((Stream.significant ⟨ts, .ok p⟩).tokens.map Token.lexeme) := by
  induction h generalizing l with
  | nil => exact .nil
  | insert hx _ ih => exact (ih hl).spaces_append hx
  | @replace t ts x s hspace _ hx _ ih =>
      obtain ⟨w, l', -, -, hg, hl'⟩ := exists_of_stream_cons hl
      have hreads := (hg ▸ ih hl').spaces_append hx
      simpa [Stream.significant, hspace] using hreads
  | @keep t ts s hts ih =>
      obtain ⟨w, l', hs, ht, hg, hl'⟩ := exists_of_stream_cons hl
      have hreads : l.grammar.Reads s _ := hg ▸ ih hl'
      rw [ht, String.toList_ofList]
      by_cases hspace : t.kind = .space
      · rw [hspace] at hs
        simpa [Stream.significant, hspace] using
          hreads.spaces_append (Grammar.isSpace_of_split? hs)
      · have hrest : Token.chars ts = l'.rest := by
          simpa [hl'] using chars_stream (congrArg Stream.ending hl')
        have hsplit : l.grammar.split? (w ++ s) = some (t.kind, w, s) := by
          rw [← Grammar.append_of_split? hs] at hs
          rcases hts.exists_space with rfl | ⟨q, c, r, u, hq, hc, rfl⟩
          · rwa [hrest]
          · rw [← hrest, hq] at hs
            exact Grammar.split?_of_space hc hs hspace
        obtain ⟨k, x, span, pos⟩ := t
        obtain rfl : x = String.ofList w := ht
        simpa [Stream.significant, hspace, Grammar.lexeme_unquote_of_split? hsplit] using
          Grammar.Reads.token hsplit hspace hreads

end Lexer

end Sift
