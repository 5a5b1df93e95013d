import Sift.Parse.Cursor

/-!
# Parsers

A parser looks at the current token and reads on from there. It never goes back, so the tokens left
never become more. When it fails, the cursor stays where the failure was found.
-/

namespace Sift

structure Parser (α : Type) where
  run : Cursor → Except ParseError α × Cursor
  size_le : ∀ c, (run c).2.size ≤ c.size

namespace Parser

variable {α β : Type}

protected def pure (a : α) : Parser α := ⟨fun c => (.ok a, c), fun _ => Nat.le_refl _⟩

protected def bind (p : Parser α) (f : α → Parser β) : Parser β where
  run c :=
    match p.run c with
    | (.ok a, c') => (f a).run c'
    | (.error e, c') => (.error e, c')
  size_le c := by
    have h := p.size_le c
    split <;> simp_all only
    exact Nat.le_trans ((_ : Parser β).size_le _) h

instance : Monad Parser where
  pure := Parser.pure
  bind := Parser.bind

@[simp] theorem run_pure (a : α) (c : Cursor) : (pure a : Parser α).run c = (.ok a, c) := rfl

theorem run_bind (p : Parser α) (f : α → Parser β) (c : Cursor) :
    (p >>= f).run c =
      match p.run c with
      | (.ok a, c') => (f a).run c'
      | (.error e, c') => (.error e, c') := rfl

theorem ext {p q : Parser α} (h : ∀ c, p.run c = q.run c) : p = q := by
  cases p; cases q; congr; exact funext h

instance : LawfulMonad Parser :=
  LawfulMonad.mk' Parser
    (fun p => by
      apply ext; intro c
      show (p >>= fun a => pure (id a)).run c = _
      rw [run_bind]
      cases p.run c with
      | mk result c' => cases result <;> rfl)
    (fun _ _ => rfl)
    (fun p f g => by
      apply ext; intro c
      simp only [run_bind]
      cases p.run c with
      | mk result c' => cases result <;> rfl)

def fail (e : ParseError) : Parser α := ⟨fun c => (.error e, c), fun _ => Nat.le_refl _⟩

/-- The current token, which stays current. -/
def current : Parser Token := ⟨fun c => (.ok c.current, c), fun _ => Nat.le_refl _⟩

/-- Moves to the next token and gives the one that was left. -/
def advance : Parser Token where
  run c :=
    match c.next with
    | .ok c' => (.ok c.current, c')
    | .error e => (.error (.lex e), c)
  size_le c := by
    split
    · next h => exact Cursor.size_next_le h
    · exact Nat.le_refl _

def unexpected (expected : Expected) : Parser α := do fail (.unexpected expected (← current))

/-- Whether the current token is of the kind. -/
def looksAt (kind : Kind) : Parser Bool := do return (← current).kind = kind

def expect (kind : Kind) (expected : Expected) : Parser Token := do
  if ← looksAt kind then advance else unexpected expected

/-! ## Repetition -/

/-- The tokens that stand between repeated parts. -/
inductive Separator where
  | andWord
  | orWord
  | comma
  | dot
deriving DecidableEq

def Separator.kind : Separator → Kind
  | andWord => .andWord
  | orWord => .orWord
  | comma => .comma
  | dot => .dot

theorem Separator.kind_ne_eof (sep : Separator) : sep.kind ≠ .eof := by
  cases sep <;> simp [kind]

/-- Reads `p` after each separator, as long as one is there. -/
def followedRun (sep : Separator) (p : Parser α) (c : Cursor) :
    Except ParseError (List α) × Cursor :=
  if _hc : c.current.kind = sep.kind then
    match _hn : c.next with
    | .error e => (.error (.lex e), c)
    | .ok c₁ =>
      match _hp : p.run c₁ with
      | (.error e, c₂) => (.error e, c₂)
      | (.ok a, c₂) =>
        let (more, c₃) := followedRun sep p c₂
        (more.map (a :: ·), c₃)
  else (.ok [], c)
termination_by c.size
decreasing_by
  have h₁ := Cursor.size_next_lt _hn (_hc ▸ sep.kind_ne_eof)
  have h₂ := p.size_le c₁
  rw [_hp] at h₂
  exact Nat.lt_of_le_of_lt h₂ h₁

theorem size_followedRun_le (sep : Separator) (p : Parser α) (c : Cursor) :
    (followedRun sep p c).2.size ≤ c.size := by
  fun_induction followedRun sep p c with
  | case1 => exact Nat.le_refl _
  | case2 c _ c₁ hn e c₂ hp =>
    have h := p.size_le c₁
    rw [hp] at h
    exact Nat.le_trans h (Cursor.size_next_le hn)
  | case3 c _ c₁ hn a c₂ hp more c₃ hm ih =>
    have h := p.size_le c₁
    rw [hp] at h
    rw [hm] at ih
    exact Nat.le_trans ih (Nat.le_trans h (Cursor.size_next_le hn))
  | case4 => exact Nat.le_refl _

def followed (sep : Separator) (p : Parser α) : Parser (List α) :=
  ⟨followedRun sep p, size_followedRun_le sep p⟩

/-- One or more times `p`, with a separator between them. -/
def separated (sep : Separator) (p : Parser α) : Parser (List α) := do
  let a ← p
  return a :: (← followed sep p)

/-! ## Whole texts -/

/-- What the parser makes of the tokens from the lexer's place on. -/
def readFrom (p : Parser α) (l : Lexer) : Except ParseError α :=
  match Cursor.ofLexer l with
  | .ok c => (p.run c).1
  | .error e => .error (.lex e)

/-- Reads `p`, after which the input has to end. -/
def whole (p : Parser α) : Parser α := do
  let a ← p
  let _ ← expect .eof .endOfInput
  return a

end Parser

end Sift
