import Sift.Proofs.Parse.Cursor

/-!
# One reader

A reader is a parser with all that it holds: a lexer, the token read last, and a count of the
parentheses that stand open, which it changes as it goes. A `Routine` is what a reader may be asked
to do. `Follows` says that a routine does what a parser does, and leaves the reader where the parser
leaves its cursor.
-/

namespace Sift

/-! ## Readers -/

structure Reader where
  lexer : Lexer
  current : Token
  /-- How many parentheses stand open. -/
  depth : Nat
  /-- The most that have stood open at once. -/
  deepest : Nat
  /-- The tokens that have been current and no longer are, without the end of the input. -/
  taken : List Token

namespace Reader

/-- A new reader, which stands on the first token. -/
def ofLexer (l : Lexer) : Except LexError Reader :=
  match l.next with
  | (.ok t, l') => .ok ⟨l', t, 0, 0, []⟩
  | (.error e, _) => .error e

/-- The tokens from the current one on. -/
def left (s : Reader) : List Token :=
  if s.current.kind = .eof then [] else s.current :: s.lexer.stream.significant.tokens

end Reader

def Routine (α : Type) : Type := Reader → Except ParseError α × Reader

namespace Routine

variable {α β γ : Type}

instance : Monad Routine where
  pure a := fun s => (.ok a, s)
  bind m f := fun s =>
    match m s with
    | (.ok a, s') => f a s'
    | (.error e, s') => (.error e, s')

theorem bind_apply (m : Routine α) (f : α → Routine β) (s : Reader) :
    (m >>= f) s =
      match m s with
      | (.ok a, s') => f a s'
      | (.error e, s') => (.error e, s') := rfl

def fail (e : ParseError) : Routine α := fun s => (.error e, s)

def current : Routine Token := fun s => (.ok s.current, s)

/-- Moves to the next token and gives the one that was left. -/
def advance : Routine Token := fun s =>
  match s.lexer.next with
  | (.ok t, l) =>
    let taken := if s.current.kind = .eof then s.taken else s.taken ++ [s.current]
    (.ok s.current, { s with lexer := l, current := t, taken })
  | (.error e, l) => (.error (.lex e), { s with lexer := l })

def unexpected (expected : Expected) : Routine α := do fail (.unexpected expected (← current))

def looksAt (kind : Kind) : Routine Bool := do return (← current).kind = kind

def expect (kind : Kind) (expected : Expected) : Routine Token := do
  if ← looksAt kind then advance else unexpected expected

/-- Where a bound on the steps has been used up. No reader comes here. -/
def stuck : Routine α := do fail (.tooDeep 0 (← current))

/-- Reads `m` after each separator, as long as one is there, `n - 1` times at most. -/
def followedWithin (sep : Parser.Separator) (m : Routine α) : Nat → Routine (List α)
  | 0 => stuck
  | n + 1 => do
    if ← looksAt sep.kind then
      let _ ← advance
      let a ← m
      return a :: (← followedWithin sep m n)
    else return []

/-- Each separator takes a character of the text, so that the rounds are enough. -/
def followed (sep : Parser.Separator) (m : Routine α) : Routine (List α) :=
  fun s => followedWithin sep m (s.lexer.rest.length + 2) s

def separated (sep : Parser.Separator) (m : Routine α) : Routine (List α) := do
  let a ← m
  return a :: (← followed sep m)

/-- Reads `m` with one more parenthesis open, unless `limit` of them are. Whether `m` fails or not,
the count is put back. -/
def nested (limit : Nat) (m : Routine α) : Routine α := fun s =>
  if limit ≤ s.depth then (.error (.tooDeep limit s.current), s)
  else
    match m { s with depth := s.depth + 1, deepest := max s.deepest (s.depth + 1) } with
    | (answer, s') => (answer, { s' with depth := s'.depth - 1 })

/-- Reads `m`, after which the input has to end. -/
def whole (m : Routine α) : Routine α := do
  let a ← m
  let _ ← expect .eof .endOfInput
  return a

end Routine

/-! ## The number of tokens -/

theorem Lexer.length_stream_le (l : Lexer) : l.stream.tokens.length ≤ l.rest.length := by
  induction l using readInduction with
  | nil l hnil => simp [stream_of_nil hnil]
  | error l hne hs => simp [stream_of_none hne hs]
  | token l k w rest hs ih =>
      rw [stream_of_some hs, Stream.cons, List.length_cons]
      exact ih.trans_lt (Grammar.length_lt_of_split? hs)

theorem Lexer.length_significant_le (l : Lexer) :
    l.stream.significant.tokens.length ≤ l.rest.length := by
  rw [Stream.significant, List.length_map]
  exact (List.length_filter_le _ _).trans l.length_stream_le

/-! ## Where a reader stands -/

/-- The reader stands in the stream `r` where the cursor does, it has taken all before that place,
and `d` more parentheses may be opened, so that never more than `limit` are. -/
structure Reader.At (r : Stream) (limit d : Nat) (c : Cursor) (s : Reader) : Prop where
  kind_ne_eof : ∀ t ∈ r.tokens, t.kind ≠ .eof
  current_eq : s.current = c.current
  stream_eq : s.lexer.stream.significant = ⟨c.rest, c.ending⟩
  exists_left : ∃ ts, r.tokens = s.taken ++ ts ∧ Cursor.ofStream ⟨ts, r.ending⟩ = .ok c
  depth_add : s.depth + d = limit
  deepest_le : s.deepest ≤ limit

namespace Reader.At

variable {r : Stream} {limit d : Nat} {c c' : Cursor} {s : Reader}

theorem size_le (h : s.At r limit d c) : c.size ≤ s.lexer.rest.length + 1 := by
  have hlength := s.lexer.length_significant_le
  rw [h.stream_eq] at hlength
  unfold Cursor.size
  dsimp only at hlength
  split <;> omega

/-- What is left to take is the current token and all after it, or nothing at the end. -/
theorem left_eq (h : s.At r limit d c) :
    r.tokens = s.taken ++ s.left ∧ Cursor.ofStream ⟨s.left, r.ending⟩ = .ok c := by
  obtain ⟨ts, htokens, hts⟩ := h.exists_left
  suffices hleft : s.left = ts by rw [hleft]; exact ⟨htokens, hts⟩
  unfold Reader.left
  rw [h.current_eq, h.stream_eq]
  cases ts with
  | cons t ts =>
      cases hts
      exact if_neg (h.kind_ne_eof t (by simp [htokens]))
  | nil =>
      cases hending : r.ending with
      | error e => simp [Cursor.ofStream, hending, Except.map] at hts
      | ok p =>
          rw [hending] at hts
          cases hts
          rfl

/-- Who goes on to the next token has taken the current one. -/
theorem take (h : s.At r limit d c) (hn : c.next = .ok c') :
    ∃ ts, r.tokens = (if c.current.kind = .eof then s.taken else s.taken ++ [c.current]) ++ ts ∧
      Cursor.ofStream ⟨ts, r.ending⟩ = .ok c' := by
  obtain ⟨ts, htokens, hts⟩ := h.exists_left
  split
  · next hk =>
      have hne : ∀ t ∈ ts, t.kind ≠ .eof := fun t ht => h.kind_ne_eof t (by simp [htokens, ht])
      cases (Cursor.next_of_eof hts hne hk).symm.trans hn
      exact ⟨ts, htokens, hts⟩
  · next hk =>
      obtain ⟨us, rfl, hnext⟩ := Cursor.exists_cons_of_ofStream hts hk
      exact ⟨us, by simp [htokens], hnext.symm.trans hn⟩

/-- Between two places a reader has taken what stands between them. -/
theorem exists_taken {d' : Nat} {s' : Reader} {ws : List Lexeme} (h : s.At r limit d c)
    (h' : s'.At r limit d' c') (hws : c.Passes ws c') :
    ∃ ts, ts.map Token.lexeme = ws ∧ s'.taken = s.taken ++ ts ∧ s.left = ts ++ s'.left := by
  obtain ⟨htokens, hleft⟩ := h.left_eq
  obtain ⟨htokens', hleft'⟩ := h'.left_eq
  obtain ⟨ts, us, hsplit, hts, hus⟩ := Cursor.exists_of_passes hleft hws
  have hne : ∀ t ∈ us, t.kind ≠ .eof := fun t ht => h.kind_ne_eof t (by simp [htokens, hsplit, ht])
  have hne' : ∀ t ∈ s'.left, t.kind ≠ .eof := fun t ht =>
    h.kind_ne_eof t (by simp [htokens', ht])
  obtain rfl : us = s'.left := Cursor.eq_of_ofStream hus hleft' hne hne'
  have htaken : s'.taken ++ s'.left = s.taken ++ ts ++ s'.left := by
    rw [← htokens', htokens, hsplit, List.append_assoc]
  exact ⟨ts, hts, List.append_cancel_right htaken, hsplit⟩

end Reader.At

/-! ## New readers -/

theorem Reader.at_ofLexer {l : Lexer} {s : Reader} (h : ofLexer l = .ok s) (limit : Nat) :
    ∃ c, s.At l.stream.significant limit limit c := by
  obtain ⟨hget, htail⟩ := l.next_eq_stream
  obtain ⟨a, l', hnext⟩ : ∃ a l', l.next = (a, l') := ⟨_, _, rfl⟩
  rw [hnext, Cursor.get_zero] at hget
  rw [hnext] at htail
  rw [ofLexer, hnext] at h
  cases hc : Cursor.ofStream l.stream.significant with
  | error e =>
      rw [hc] at hget
      obtain rfl : a = .error e := hget
      cases h
  | ok c =>
      rw [hc] at hget
      obtain rfl : a = .ok c.current := hget
      cases h
      refine ⟨c, fun t => Lexer.kind_ne_eof_of_mem_significant, rfl, ?_, ⟨_, rfl, hc⟩,
        Nat.zero_add limit, Nat.zero_le limit⟩
      rw [htail]
      exact Cursor.tail_of_ofStream hc

/-! ## Readers that follow a parser -/

open Sift.Parser (Separator)

variable {α β : Type} {limit d : Nat} {c : Cursor}

/-- From the place of `c` on, where `d` more parentheses may be opened, a reader answers to `m` what
`p` gives, and stands afterwards where `p` leaves the cursor. As many may be opened then. -/
def FollowsAt (limit d : Nat) (c : Cursor) (m : Routine α) (p : Parser α) : Prop :=
  ∀ ⦃r s⦄, Reader.At r limit d c s → (m s).1 = (p.run c).1 ∧ (m s).2.At r limit d (p.run c).2

def Follows (limit d : Nat) (m : Routine α) (p : Parser α) : Prop :=
  ∀ c, FollowsAt limit d c m p

variable {m m₁ m₂ : Routine α} {p p₁ p₂ : Parser α} {k : α → Routine β} {f : α → Parser β}

namespace FollowsAt

theorem pure (a : α) : FollowsAt limit d c (Pure.pure a) (Pure.pure a) :=
  fun _ _ hs => ⟨rfl, hs⟩

theorem fail (e : ParseError) :
    FollowsAt limit d c (Routine.fail e : Routine α) (Parser.fail e) :=
  fun _ _ hs => ⟨rfl, hs⟩

theorem bind (hm : FollowsAt limit d c m p)
    (hk : ∀ ⦃a c₁⦄, p.run c = (.ok a, c₁) → FollowsAt limit d c₁ (k a) (f a)) :
    FollowsAt limit d c (m >>= k) (p >>= f) := by
  intro r s hs
  obtain ⟨hanswer, hs'⟩ := hm hs
  obtain ⟨a, c₁, hrun⟩ : ∃ a c₁, p.run c = (a, c₁) := ⟨_, _, rfl⟩
  obtain ⟨b, s', hrun'⟩ : ∃ b s', m s = (b, s') := ⟨_, _, rfl⟩
  rw [hrun, hrun'] at hanswer hs'
  obtain rfl : b = a := hanswer
  rw [Routine.bind_apply, Parser.run_bind, hrun, hrun']
  cases b with
  | error e => exact ⟨rfl, hs'⟩
  | ok a => exact hk hrun hs'

theorem map (hm : FollowsAt limit d c m p) {f : α → β} :
    FollowsAt limit d c (do return f (← m)) (do return f (← p)) :=
  hm.bind fun a _ _ => .pure (f a)

theorem current : FollowsAt limit d c Routine.current Parser.current :=
  fun _ _ hs => ⟨congrArg Except.ok hs.current_eq, hs⟩

theorem current_bind {k : Token → Routine α} {f : Token → Parser α}
    (h : FollowsAt limit d c (k c.current) (f c.current)) :
    FollowsAt limit d c (Routine.current >>= k) (Parser.current >>= f) :=
  current.bind fun _ _ hrun => by
    cases hrun
    exact h

theorem unexpected {x : Expected} :
    FollowsAt limit d c (Routine.unexpected x : Routine α) (Parser.unexpected x) :=
  current_bind (.fail _)

theorem looksAt {kind : Kind} (h₁ : c.current.kind = kind → FollowsAt limit d c m₁ p₁)
    (h₂ : c.current.kind ≠ kind → FollowsAt limit d c m₂ p₂) :
    FollowsAt limit d c (Routine.looksAt kind >>= fun b => if b = true then m₁ else m₂)
      (Parser.looksAt kind >>= fun b => if b = true then p₁ else p₂) := by
  have hlooks : FollowsAt limit d c (Routine.looksAt kind) (Parser.looksAt kind) := current.map
  apply hlooks.bind
  intro b c₁ hrun
  cases hrun
  by_cases hk : c.current.kind = kind
  · simpa [hk] using h₁ hk
  · simpa [hk] using h₂ hk

theorem advance : FollowsAt limit d c Routine.advance Parser.advance := by
  intro r s hs
  obtain ⟨hget, htail⟩ := s.lexer.next_eq_stream
  obtain ⟨a, l, hnext⟩ : ∃ a l, s.lexer.next = (a, l) := ⟨_, _, rfl⟩
  rw [hnext, hs.stream_eq, Cursor.get_zero, ← Cursor.next_eq_ofStream c.current] at hget
  rw [hnext, hs.stream_eq] at htail
  change a = c.next.map Cursor.current at hget
  simp only [Routine.advance, Parser.advance, hnext]
  cases hn : c.next with
  | error e =>
      obtain rfl : a = .error e := by rw [hget, hn]; rfl
      -- The lexer may have left out space before the error, but nothing that carries meaning.
      have hrest := Cursor.rest_of_next_error hn
      refine ⟨rfl, hs.kind_ne_eof, hs.current_eq, ?_, hs.exists_left, hs.depth_add, hs.deepest_le⟩
      rw [htail, Stream.tail, hrest]
      rfl
  | ok c' =>
      obtain rfl : a = .ok c'.current := by rw [hget, hn]; rfl
      refine ⟨congrArg Except.ok hs.current_eq, hs.kind_ne_eof, rfl, ?_, ?_, hs.depth_add,
        hs.deepest_le⟩
      · rw [htail]
        exact Cursor.tail_of_ofStream ((Cursor.next_eq_ofStream _ _ _).symm.trans hn)
      · rw [hs.current_eq]
        exact hs.take hn

theorem expect {kind : Kind} {x : Expected} :
    FollowsAt limit d c (Routine.expect kind x) (Parser.expect kind x) :=
  .looksAt (fun _ => .advance) fun _ => .unexpected

end FollowsAt

/-! ## Repetition and parentheses -/

variable {sep : Separator}

theorem FollowsAt.followedWithin (h : Follows limit d m p) {n : Nat} (hn : c.size < n) :
    FollowsAt limit d c (Routine.followedWithin sep m n) (Parser.followed sep p) := by
  induction n generalizing c with
  | zero => exact absurd hn (Nat.not_lt_zero _)
  | succ n ih =>
      rw [Parser.followed_eq]
      apply FollowsAt.looksAt
      · intro hk
        apply FollowsAt.advance.bind
        intro _ c₁ hc₁
        apply (h c₁).bind
        intro a c₂ hc₂
        have hlt := Parser.size_lt_of_part hk hc₁ hc₂
        exact (ih (by omega)).map
      · intro _
        exact .pure []

theorem Follows.followed (h : Follows limit d m p) :
    Follows limit d (Routine.followed sep m) (Parser.followed sep p) := by
  intro c r s hs
  -- A round takes a token at least, and each token is made of characters that are left.
  exact FollowsAt.followedWithin h (Nat.lt_succ_of_le hs.size_le) hs

theorem Follows.separated (h : Follows limit d m p) :
    Follows limit d (Routine.separated sep m) (Parser.separated sep p) := by
  intro c
  apply (h c).bind
  intro a c₁ _
  exact (h.followed c₁).map

theorem Follows.whole (h : Follows limit d m p) :
    Follows limit d (Routine.whole m) (Parser.whole p) := by
  intro c
  apply (h c).bind
  intro a c₁ _
  exact FollowsAt.expect.bind fun _ _ _ => .pure a

/-- Within one more parenthesis one less may be opened. Afterwards it is as it was. -/
theorem Follows.nested (h : Follows limit d m p) :
    Follows limit (d + 1) (Routine.nested limit m) p := by
  intro c r s hs
  have hdepth := hs.depth_add
  have hentered : Reader.At r limit d c
      { s with depth := s.depth + 1, deepest := max s.deepest (s.depth + 1) } := by
    refine ⟨hs.kind_ne_eof, hs.current_eq, hs.stream_eq, hs.exists_left, ?_, ?_⟩
    · dsimp only; omega
    · exact max_le hs.deepest_le (by omega)
  obtain ⟨hanswer, hs'⟩ := h c hentered
  rw [Routine.nested, if_neg (by omega)]
  refine ⟨hanswer, hs'.kind_ne_eof, hs'.current_eq, hs'.stream_eq, hs'.exists_left, ?_,
    hs'.deepest_le⟩
  have hdepth' := hs'.depth_add
  dsimp only
  omega

/-- Where `limit` parentheses stand open, no other one is opened. -/
theorem Follows.nested_limit :
    Follows limit 0 (Routine.nested limit m) (do Parser.fail (.tooDeep limit (← Parser.current))) := by
  intro c r s hs
  rw [Routine.nested, if_pos (by have := hs.depth_add; omega), hs.current_eq]
  exact ⟨rfl, hs⟩

end Sift
