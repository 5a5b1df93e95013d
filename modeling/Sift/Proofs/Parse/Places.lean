import Sift.Proofs.Parse.Recognition

/-!
# Parsers without places

Where the tokens stand has no part in what a parser does with them: it is only told in errors. So a
parser does with tokens that have lost their places what it does with them otherwise.
-/

namespace Sift

variable {α β γ δ : Type} {c c₁ : Cursor}

/-! ## Losing places -/

/-- A token of the lexeme, at no place in particular. -/
def Lexeme.token (w : Lexeme) : Token := ⟨w.kind, w.text, ⟨0, 0⟩, .start⟩

def Token.placeless (t : Token) : Token := t.lexeme.token

/-- The error about a token at no place in particular. Errors of the lexer stay as they are. -/
def ParseError.placeless : ParseError → ParseError
  | lex e => .lex e
  | unexpected x t => .unexpected x t.placeless
  | invalidLiteral sort t => .invalidLiteral sort t.placeless
  | tooDeep limit t => .tooDeep limit t.placeless

namespace Cursor

def placeless (c : Cursor) : Cursor where
  current := c.current.placeless
  rest := c.rest.map Token.placeless
  ending := c.ending.map fun _ => .start

theorem next_placeless : c.placeless.next = c.next.map placeless := by
  obtain ⟨t, ts, e⟩ := c
  cases ts with
  | cons u ts => rfl
  | nil => cases e <;> rfl

/-- Tokens of the same lexemes make the same cursor, but for their places. -/
theorem placeless_eq_of_lexemes {ts us : List Token} {p q : Position}
    (h : ts.map Token.lexeme = us.map Token.lexeme) :
    (ofStream ⟨ts, .ok p⟩).map placeless = (ofStream ⟨us, .ok q⟩).map placeless := by
  have hall : ts.map Token.placeless = us.map Token.placeless := by
    have htoken := congrArg (List.map Lexeme.token) h
    rwa [List.map_map, List.map_map] at htoken
  cases ts with
  | nil =>
      obtain rfl : us = [] := by simpa using h
      rfl
  | cons t ts =>
      cases us with
      | nil => cases h
      | cons u us =>
          simp only [List.map_cons, List.cons.injEq] at hall
          simp [ofStream, Except.map, placeless, hall]

end Cursor

namespace Parser

/-! ## Parsers that take no notice of places -/

/-- At the place of `c`, `q` does without places what `p` does with them. Its result is what `φ`
makes of that of `p`. -/
def PlacelessAt (c : Cursor) (φ : α → β) (p : Parser α) (q : Parser β) : Prop :=
  q.run c.placeless =
    (((p.run c).1.map φ).mapError ParseError.placeless, (p.run c).2.placeless)

def Placeless (p : Parser α) : Prop := ∀ c, PlacelessAt c id p p

variable {φ : α → β} {ψ : γ → δ} {p p₁ p₂ : Parser α} {q q₁ q₂ : Parser β}
variable {f : α → Parser γ} {g : β → Parser δ}

namespace PlacelessAt

theorem pure {a : α} {b : β} (h : φ a = b) :
    PlacelessAt c φ (Pure.pure a : Parser α) (Pure.pure b : Parser β) := by
  subst h
  rfl

theorem fail {e : ParseError} :
    PlacelessAt c φ (Parser.fail e : Parser α) (Parser.fail e.placeless : Parser β) := rfl

theorem bind (hp : PlacelessAt c φ p q)
    (hf : ∀ ⦃a c₁⦄, p.run c = (.ok a, c₁) → PlacelessAt c₁ ψ (f a) (g (φ a))) :
    PlacelessAt c ψ (p >>= f) (q >>= g) := by
  rw [PlacelessAt] at hp
  rw [PlacelessAt, run_bind, run_bind, hp]
  cases hrun : p.run c with
  | mk result c₁ =>
      cases result with
      | error e => rfl
      | ok a => exact hf hrun

theorem map (hp : PlacelessAt c id p p) {f : α → γ} :
    PlacelessAt c id (do return f (← p)) (do return f (← p)) :=
  hp.bind fun _ _ _ => .pure rfl

theorem current : PlacelessAt c Token.placeless Parser.current Parser.current := rfl

/-- What depends on the kind and the text of the current token has no use for its place. -/
theorem current_bind {f : Token → Parser α} (hf : ∀ t, f t.placeless = f t)
    (h : PlacelessAt c id (f c.current) (f c.current)) :
    PlacelessAt c id (Parser.current >>= f) (Parser.current >>= f) :=
  current.bind fun _ _ hrun => by
    cases hrun
    rw [hf]
    exact h

theorem looksAt {k : Kind} (h₁ : c.current.kind = k → PlacelessAt c φ p₁ q₁)
    (h₂ : c.current.kind ≠ k → PlacelessAt c φ p₂ q₂) :
    PlacelessAt c φ (Parser.looksAt k >>= fun b => if b = true then p₁ else p₂)
      (Parser.looksAt k >>= fun b => if b = true then q₁ else q₂) := by
  rw [PlacelessAt, run_looksAt_bind, run_looksAt_bind]
  show (if c.current.kind = k then q₁.run c.placeless else q₂.run c.placeless) = _
  split
  · next hk => exact h₁ hk
  · next hk => exact h₂ hk

theorem advance : PlacelessAt c Token.placeless Parser.advance Parser.advance := by
  simp only [PlacelessAt, Parser.advance, Cursor.next_placeless]
  cases c.next <;> rfl

theorem unexpected {x : Expected} :
    PlacelessAt c φ (Parser.unexpected x : Parser α) (Parser.unexpected x : Parser β) := rfl

theorem expect {k : Kind} {x : Expected} :
    PlacelessAt c Token.placeless (Parser.expect k x) (Parser.expect k x) :=
  .looksAt (fun _ => .advance) fun _ => .unexpected

end PlacelessAt

/-! ## Repetition and whole texts -/

variable {sep : Separator}

theorem Placeless.followed (h : Placeless p) : Placeless (followed sep p) := by
  intro c
  induction c using followedInduction sep p with
  | step c ih =>
      rw [followed_eq]
      apply PlacelessAt.looksAt
      · intro hk
        apply PlacelessAt.advance.bind
        intro _ c₁ hc₁
        apply (h c₁).bind
        intro a c₂ hc₂
        exact (ih hk hc₁ hc₂).map
      · intro _
        exact .pure rfl

theorem Placeless.separated (h : Placeless p) : Placeless (separated sep p) := by
  intro c
  apply (h c).bind
  intro _ c₁ _
  exact (h.followed c₁).map

theorem Placeless.whole (h : Placeless p) : Placeless (whole p) := by
  intro c
  apply (h c).bind
  intro _ c₁ _
  exact PlacelessAt.expect.bind fun _ _ _ => .pure rfl

/-- Texts of the same lexemes have the same tree, or errors that differ in their places alone. -/
theorem Placeless.readFrom_eq (h : Placeless p) {l l' : Lexer} {ts us : List Token}
    {pos pos' : Position} (hl : l.stream.significant = ⟨ts, .ok pos⟩)
    (hl' : l'.stream.significant = ⟨us, .ok pos'⟩)
    (hts : ts.map Token.lexeme = us.map Token.lexeme) :
    (p.readFrom l).mapError ParseError.placeless =
      (p.readFrom l').mapError ParseError.placeless := by
  obtain ⟨c, hc⟩ : ∃ c, Cursor.ofStream ⟨ts, .ok pos⟩ = .ok c := by cases ts <;> exact ⟨_, rfl⟩
  obtain ⟨d, hd⟩ : ∃ d, Cursor.ofStream ⟨us, .ok pos'⟩ = .ok d := by cases us <;> exact ⟨_, rfl⟩
  have heq := Cursor.placeless_eq_of_lexemes (p := pos) (q := pos') hts
  rw [hc, hd] at heq
  have hrun := (h c).symm.trans ((congrArg p.run (Except.ok.inj heq)).trans (h d))
  simp only [readFrom, Cursor.ofLexer, hl, hl', hc, hd]
  simpa using congrArg Prod.fst hrun

end Parser

end Sift
