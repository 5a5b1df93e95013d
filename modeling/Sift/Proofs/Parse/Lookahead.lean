import Sift.Proofs.Parse.Failure

/-!
# Parsers look at kinds

How far a parser reads is decided by the kinds of the tokens, as long as each of them can be read.
So two inputs whose tokens are of the same kinds up to a place are read alike up to there.
-/

namespace Sift

variable {α β γ δ : Type} {c c' c₁ d d' stop : Cursor}

/-! ## Samples of lexemes -/

/-- A lexeme of the kind that can be read. -/
def Lexeme.sample : Kind → Lexeme
  | .int => ⟨.int, "0"⟩
  | .float => ⟨.float, "0.0"⟩
  | .comparison => ⟨.comparison, Comparison.eq.symbol⟩
  | k => ⟨k, ""⟩

@[simp] theorem Lexeme.kind_sample (k : Kind) : (sample k).kind = k := by cases k <;> rfl

theorem Lexeme.readable_sample {k : Kind} (hk : k ≠ .eof) : (sample k).Readable := by
  cases k with
  | int => exact ⟨0, by decide⟩
  | float => exact ⟨.zero, by decide +kernel, rfl⟩
  | eof => exact absurd rfl hk
  | _ => trivial

/-! ## Inputs of the same kinds -/

/-- The tokens from `c` up to that of `stop` have the kinds of those from `d` on, all of which but
the last are samples. -/
inductive Alike (stop : Cursor) : Cursor → Cursor → Prop
  | here {d : Cursor} : stop.current.kind = d.current.kind → Alike stop stop d
  | next {c d c₁ d₁ : Cursor} : d.current.lexeme = .sample c.current.kind → c.next = .ok c₁ →
      d.next = .ok d₁ → Alike stop c₁ d₁ → Alike stop c d

theorem Alike.kind_eq (h : Alike stop c d) : c.current.kind = d.current.kind := by
  cases h with
  | here hk => exact hk
  | next hd _ _ _ => rw [← Lexeme.kind_sample c.current.kind, ← hd]; rfl

/-- Before `stop`, the second input goes on with the first. -/
theorem Alike.advance (h : Alike stop c d) (hk : c.current.kind ≠ .eof) (hn : c.next = .ok c₁)
    (hstop : stop.size ≤ c₁.size) :
    ∃ d₁, d.Passes [.sample c.current.kind] d₁ ∧ Alike stop c₁ d₁ := by
  cases h with
  | here _ => exact absurd hstop (Nat.not_le.2 (Cursor.size_next_lt hn hk))
  | @next _ _ _ d₁ hd hn' hnd h =>
      cases hn.symm.trans hn'
      exact ⟨d₁, ⟨hd, Lexeme.readable_sample hk, d₁, hnd, rfl⟩, h⟩

theorem alike_of_passes {ts : List Lexeme} (hts : c.Passes ts c')
    (hd : d.Passes (ts.map fun w => .sample w.kind) d') (hk : c'.current.kind = d'.current.kind) :
    Alike c' c d := by
  induction ts generalizing c d with
  | nil =>
      cases hts
      cases hd
      exact .here hk
  | cons w ts ih =>
      obtain ⟨rfl, -, c₁, hn, hts⟩ := hts
      obtain ⟨hw, -, d₁, hnd, hd⟩ := hd
      exact .next hw hn hnd (ih hts hd)

/-! ## Parsers that read alike -/

/-- The error is about the kind of a token. -/
def ParseError.Syntactic : ParseError → Prop
  | unexpected x _ => x ≠ .comparison
  | _ => False

/-- What `p` makes of the tokens from `c` on, `q` makes of tokens of the same kinds. -/
structure MimicsAt (c : Cursor) (p : Parser α) (q : Parser β) : Prop where
  ok : ∀ ⦃a c' stop d⦄, p.run c = (.ok a, c') → stop.size ≤ c'.size → Alike stop c d →
    ∃ b d', q.run d = (.ok b, d') ∧ Alike stop c' d'
  error : ∀ ⦃e c' d⦄, p.run c = (.error e, c') → e.Syntactic → Alike c' c d →
    ∃ e' d', q.run d = (.error e', d')

def Mimics (p : Parser α) (q : Parser β) : Prop := ∀ c, MimicsAt c p q

section

open Sift.Parser

variable {p p₁ p₂ : Parser α} {q q₁ q₂ : Parser β} {f : α → Parser γ} {g : β → Parser δ}

theorem MimicsAt.pure {a : α} {b : β} :
    MimicsAt c (Pure.pure a : Parser α) (Pure.pure b : Parser β) where
  ok a' c' stop d h hstop hd := by
    obtain ⟨rfl, rfl⟩ := run_pure_eq_ok.1 h
    exact ⟨b, d, rfl, hd⟩
  error e c' d h _ _ := absurd h run_pure_ne_error

theorem MimicsAt.bind (hp : MimicsAt c p q)
    (hf : ∀ ⦃a b c₁⦄, p.run c = (.ok a, c₁) → MimicsAt c₁ (f a) (g b)) :
    MimicsAt c (p >>= f) (q >>= g) where
  ok a' c' stop d h hstop hd := by
    obtain ⟨a, c₁, ha, h⟩ := run_bind_eq_ok.1 h
    have hsize := (f a).size_le c₁
    rw [h] at hsize
    obtain ⟨b, d₁, hb, hd₁⟩ := hp.ok ha (hstop.trans hsize) hd
    obtain ⟨b', d', hb', hd'⟩ := (hf ha).ok h hstop hd₁
    exact ⟨b', d', run_bind_eq_ok.2 ⟨b, d₁, hb, hb'⟩, hd'⟩
  error e c' d h he hd := by
    rcases run_bind_eq_error.1 h with h | ⟨a, c₁, ha, h⟩
    · obtain ⟨e', d', hq⟩ := hp.error h he hd
      exact ⟨e', d', run_bind_eq_error.2 (.inl hq)⟩
    · have hsize := (f a).size_le c₁
      rw [h] at hsize
      obtain ⟨b, d₁, hb, hd₁⟩ := hp.ok ha hsize hd
      obtain ⟨e', d', hq⟩ := (hf ha).error h he hd₁
      exact ⟨e', d', run_bind_eq_error.2 (.inr ⟨b, d₁, hb, hq⟩)⟩

theorem MimicsAt.map (hp : MimicsAt c p q) {f : α → γ} {g : β → δ} :
    MimicsAt c (do return f (← p)) (do return g (← q)) :=
  hp.bind fun _ _ _ _ => .pure

/-- Parsers that choose by the kind of the current token choose alike. -/
theorem MimicsAt.branch {P : Kind → Prop} [DecidablePred P]
    (hp : ∀ c, p.run c = if P c.current.kind then p₁.run c else p₂.run c)
    (hq : ∀ c, q.run c = if P c.current.kind then q₁.run c else q₂.run c)
    (h₁ : P c.current.kind → MimicsAt c p₁ q₁) (h₂ : ¬ P c.current.kind → MimicsAt c p₂ q₂) :
    MimicsAt c p q where
  ok a c' stop d h hstop hd := by
    rw [hp] at h
    rw [hq, ← hd.kind_eq]
    split at h
    · next hk =>
        rw [if_pos hk]
        exact (h₁ hk).ok h hstop hd
    · next hk =>
        rw [if_neg hk]
        exact (h₂ hk).ok h hstop hd
  error e c' d h he hd := by
    rw [hp] at h
    rw [hq, ← hd.kind_eq]
    split at h
    · next hk =>
        rw [if_pos hk]
        exact (h₁ hk).error h he hd
    · next hk =>
        rw [if_neg hk]
        exact (h₂ hk).error h he hd

theorem MimicsAt.looksAt {k : Kind} (h₁ : c.current.kind = k → MimicsAt c p₁ q₁)
    (h₂ : c.current.kind ≠ k → MimicsAt c p₂ q₂) :
    MimicsAt c (Parser.looksAt k >>= fun b => if b = true then p₁ else p₂)
      (Parser.looksAt k >>= fun b => if b = true then q₁ else q₂) :=
  branch (P := fun k' => k' = k) (fun _ => run_looksAt_bind k p₁ p₂)
    (fun _ => run_looksAt_bind k q₁ q₂) h₁ h₂

theorem MimicsAt.advance (hk : c.current.kind ≠ .eof) :
    MimicsAt c Parser.advance Parser.advance where
  ok t c' stop d h hstop hd := by
    obtain ⟨-, hn⟩ := run_advance_eq_ok.1 h
    obtain ⟨d₁, ⟨-, -, _, hnd, rfl⟩, hd₁⟩ := hd.advance hk hn hstop
    exact ⟨d.current, _, run_advance_eq_ok.2 ⟨rfl, hnd⟩, hd₁⟩
  error e c' d h he _ := by
    obtain ⟨err, -, rfl, -⟩ := run_advance_eq_error.1 h
    exact he.elim

theorem MimicsAt.unexpected {x : Expected} :
    MimicsAt c (Parser.unexpected x : Parser α) (Parser.unexpected x : Parser β) where
  ok _ _ _ _ h _ _ := absurd h run_unexpected_ne_ok
  error _ _ d _ _ _ := ⟨_, d, rfl⟩

theorem Mimics.expect {k : Kind} {x : Expected} (hk : k ≠ .eof) :
    Mimics (Parser.expect k x) (Parser.expect k x) :=
  fun _ => .looksAt (fun hc => .advance (hc ▸ hk)) fun _ => .unexpected

/-! ## Repetition -/

variable {sep : Separator}

theorem Mimics.followed (h : Mimics p q) :
    Mimics (Parser.followed sep p) (Parser.followed sep q) := by
  intro c
  induction c using Parser.followedInduction sep p with
  | step c ih =>
      rw [followed_eq (p := p), followed_eq (p := q)]
      apply MimicsAt.looksAt
      · intro hk
        apply (MimicsAt.advance (hk ▸ sep.kind_ne_eof)).bind
        intro _ _ c₁ hc₁
        apply (h c₁).bind
        intro a _ c₂ hc₂
        exact (ih hk hc₁ hc₂).map
      · intro _
        exact .pure

theorem Mimics.separated (h : Mimics p q) :
    Mimics (Parser.separated sep p) (Parser.separated sep q) := by
  intro c
  apply (h c).bind
  intro _ _ c₁ _
  exact (h.followed c₁).map

end

end Sift
