import Sift.Proofs.Token.Joining

/-!
# Before a quote

A quote goes on with no token. What is read of a text that has quotes in it is read of the text
before the first of them, of the string between them, and of what comes after.
-/

namespace Sift.Grammar

variable {g : Grammar} {q : Char} {s t w rest : List Char} {k : Kind} {ws us : List Lexeme}

theorem mentionsLater_quote (hq : q = '\'' ∨ q = '"') :
    ∀ r ∈ filter.rules, r.kind ∉ [Kind.space, .string] → r.pattern.mentionsLater q = false := by
  rcases hq with rfl | rfl <;> decide

theorem dropWhile_isSpace_quote (hq : q = '\'' ∨ q = '"') (s t : List Char) :
    (s ++ q :: t).dropWhile isSpace = s.dropWhile isSpace ++ q :: t := by
  have hspace : isSpace q = false := by rcases hq with rfl | rfl <;> decide
  induction s with
  | nil => simp [hspace]
  | cons c s ih => by_cases hc : isSpace c = true <;> simp [hc, ih]

theorem exists_space_of_split? (h : g.split? s = some (.space, w, rest)) :
    ∃ c r, s = c :: r ∧ isSpace c = true := by
  obtain ⟨c, w, rfl⟩ := List.exists_cons_of_ne_nil (ne_nil_of_split? h)
  exact ⟨c, w ++ rest, (append_of_split? h).symm, isSpace_of_split? h c List.mem_cons_self⟩

theorem dropWhile_of_split? (h : g.split? s = some (.space, w, rest)) :
    s.dropWhile isSpace = rest := by
  obtain ⟨c, r, rfl, hc⟩ := exists_space_of_split? h
  rw [split?_space g hc] at h
  cases h
  exact List.dropWhile_cons_of_pos hc

/-! ## Reading on -/

theorem Reads.dropWhile (h : g.Reads s us) : g.Reads (s.dropWhile isSpace) us := by
  cases s with
  | nil => exact h
  | cons c s =>
      by_cases hc : isSpace c = true
      · rw [List.dropWhile_cons_of_pos hc]
        exact h.rest_of_space (split?_space g hc s)
      · rwa [List.dropWhile_cons_of_neg hc]

theorem Reads.rest_of_token (h : g.Reads s us) (hs : g.split? s = some (k, w, rest))
    (hk : k ≠ .space) : ∃ vs, us = .ofChars k w :: vs ∧ g.Reads rest vs := by
  cases h with
  | nil => simp [split?_nil] at hs
  | space hs' _ =>
      cases hs'.symm.trans hs
      exact absurd rfl hk
  | token hs' _ h =>
      cases hs'.symm.trans hs
      exact ⟨_, rfl, h⟩

/-- A text that is not all space has a first token. -/
theorem Reads.exists_token (h : g.Reads s us) (hs : s.dropWhile isSpace ≠ []) :
    ∃ k w rest vs,
      g.split? (s.dropWhile isSpace) = some (k, w, rest) ∧ us = .ofChars k w :: vs := by
  have hhead := List.head?_dropWhile_not isSpace s
  have hdrop := h.dropWhile
  generalize s.dropWhile isSpace = d at *
  cases hdrop with
  | nil => exact absurd rfl hs
  | space hsplit _ =>
      obtain ⟨c, r, rfl, hc⟩ := exists_space_of_split? hsplit
      simp [hc] at hhead
  | token hsplit _ _ => exact ⟨_, _, _, _, hsplit, rfl⟩

/-- What is read of a text before a quote is what is read without the quote. -/
theorem Reads.of_append_quote (hq : q = '\'' ∨ q = '"') (hs : filter.Reads s ws)
    (h : filter.Reads (s ++ q :: t) us) : ∃ vs, us = ws ++ vs ∧ filter.Reads (q :: t) vs := by
  induction hs generalizing us with
  | nil => exact ⟨us, rfl, h⟩
  | space hsplit _ ih =>
      have hrest := h.dropWhile
      rw [dropWhile_isSpace_quote hq, dropWhile_of_split? hsplit] at hrest
      exact ih hrest
  | token hsplit hk _ ih =>
      have hquote := split?_append_of_ne_space (mentionsLater_quote hq) hsplit hk t
      obtain ⟨us, rfl, hrest⟩ := h.rest_of_token hquote hk
      obtain ⟨vs, rfl, hvs⟩ := ih hrest
      exact ⟨vs, rfl, hvs⟩

theorem Reads.of_quoted {payload : List Char} (hq : q = '\'' ∨ q = '"') (hp : q ∉ payload)
    (h : filter.Reads (q :: payload ++ q :: t) us) :
    ∃ vs, us = ⟨.string, String.ofList payload⟩ :: vs ∧ filter.Reads t vs := by
  obtain ⟨vs, rfl, hvs⟩ := h.rest_of_token (split?_quoted hq hp t) (by decide)
  exact ⟨vs, by simp [Lexeme.ofChars], hvs⟩

end Sift.Grammar
