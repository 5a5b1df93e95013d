import Sift.Parse.Parser
import Sift.Proofs.Parse.Phrase

/-!
# What a parser recognizes

A parser recognizes a relation between lexemes and results when it gives a result exactly for the
lexemes that the relation has for it, as long as none follows that would go on with them. Reading
has to be possible for each lexeme by itself, so that numbers are in range.
-/

namespace Sift

variable {α β : Type} {c c' c₁ : Cursor}

/-- A token of the kind and text can be read: the number of a numeric one is in range. -/
def Lexeme.Readable (w : Lexeme) : Prop :=
  match w.kind with
  | .eof => False
  | .int => ∃ n, Decimal.int64? w.text.toList = some n
  | .float => ∃ x, Decimal.binary64? w.text.toList = some x ∧ x.isFinite = true
  | _ => True

theorem Lexeme.Readable.kind_ne_eof {w : Lexeme} (h : w.Readable) : w.kind ≠ .eof := by
  intro hk
  simp [Readable, hk] at h

theorem Lexeme.readable_of_kind {w : Lexeme} (h : w.kind ∉ [Kind.eof, .int, .float]) :
    w.Readable := by
  unfold Readable
  split <;> simp_all

/-- Reading `ws`, all of them readable, leads from one place to another. -/
def Cursor.Passes : Cursor → List Lexeme → Cursor → Prop
  | c, [], c' => c = c'
  | c, w :: ws, c' =>
    c.current.lexeme = w ∧ w.Readable ∧ ∃ c₁, c.next = .ok c₁ ∧ Passes c₁ ws c'

namespace Cursor

@[simp] theorem passes_nil : c.Passes [] c' ↔ c = c' := Iff.rfl

@[simp] theorem passes_cons {w : Lexeme} {ws : List Lexeme} :
    c.Passes (w :: ws) c' ↔
      c.current.lexeme = w ∧ w.Readable ∧ ∃ c₁, c.next = .ok c₁ ∧ c₁.Passes ws c' := Iff.rfl

@[simp] theorem passes_append {ts us : List Lexeme} :
    c.Passes (ts ++ us) c' ↔ ∃ c₁, c.Passes ts c₁ ∧ c₁.Passes us c' := by
  induction ts generalizing c with
  | nil => simp
  | cons w ts ih =>
      simp only [List.cons_append, passes_cons, ih]
      constructor
      · rintro ⟨hw, hread, c₁, hn, c₂, hts, hus⟩
        exact ⟨c₂, ⟨hw, hread, c₁, hn, hts⟩, hus⟩
      · rintro ⟨c₂, ⟨hw, hread, c₁, hn, hts⟩, hus⟩
        exact ⟨hw, hread, c₁, hn, c₂, hts, hus⟩

theorem passes_next (hn : c.next = .ok c') (hread : c.current.lexeme.Readable) :
    c.Passes [c.current.lexeme] c' :=
  ⟨rfl, hread, c', hn, rfl⟩

end Cursor

namespace Parser

/-! ## Successful runs -/

theorem run_bind_eq_ok {p : Parser α} {f : α → Parser β} {b : β} :
    (p >>= f).run c = (.ok b, c') ↔
      ∃ a c₁, p.run c = (.ok a, c₁) ∧ (f a).run c₁ = (.ok b, c') := by
  rw [run_bind]
  cases hp : p.run c with
  | mk result c₂ =>
      cases result with
      | error e => simp
      | ok a => simp

theorem run_pure_eq_ok {a b : α} : (pure a : Parser α).run c = (.ok b, c') ↔ a = b ∧ c = c' := by
  simp

@[simp] theorem run_current_bind (f : Token → Parser α) :
    (current >>= f).run c = (f c.current).run c := rfl

@[simp] theorem run_looksAt_bind (k : Kind) (p q : Parser α) :
    (looksAt k >>= fun b => if b = true then p else q).run c =
      if c.current.kind = k then p.run c else q.run c := by
  show (if decide (c.current.kind = k) = true then p else q).run c = _
  by_cases hk : c.current.kind = k <;> simp [hk]

@[simp] theorem run_fail_ne_ok {e : ParseError} {a : α} : (fail e).run c ≠ (.ok a, c') := by
  simp [fail]

@[simp] theorem run_unexpected_ne_ok {e : Expected} {a : α} :
    (unexpected e : Parser α).run c ≠ (.ok a, c') := by
  simp [unexpected]

theorem run_advance_eq_ok {t : Token} :
    advance.run c = (.ok t, c') ↔ c.current = t ∧ c.next = .ok c' := by
  simp only [advance]
  cases c.next <;> simp

theorem run_expect_eq_ok {k : Kind} {e : Expected} {t : Token} :
    (expect k e).run c = (.ok t, c') ↔ c.current.kind = k ∧ c.current = t ∧ c.next = .ok c' := by
  rw [expect, run_looksAt_bind]
  by_cases hk : c.current.kind = k
  · simp [hk, run_advance_eq_ok]
  · simp [hk]

theorem run_whole_eq_ok {p : Parser α} {a : α} :
    (whole p).run c = (.ok a, c') ↔
      ∃ c₁, p.run c = (.ok a, c₁) ∧ c₁.current.kind = .eof ∧ c₁.next = .ok c' := by
  simp only [whole, run_bind_eq_ok, run_expect_eq_ok, run_pure_eq_ok]
  constructor
  · rintro ⟨_, c₁, ha, _, _, ⟨hk, rfl, hn⟩, rfl, rfl⟩
    exact ⟨c₁, ha, hk, hn⟩
  · rintro ⟨c₁, ha, hk, hn⟩
    exact ⟨a, c₁, ha, _, c', ⟨hk, rfl, hn⟩, rfl, rfl⟩

/-- Repetition takes one part and goes on. -/
theorem followed_eq {sep : Separator} {p : Parser α} :
    followed sep p = do
      if ← looksAt sep.kind then
        let _ ← advance
        let a ← p
        return a :: (← followed sep p)
      else return [] := by
  apply ext
  intro c
  rw [run_looksAt_bind]
  change followedRun sep p c = _
  rw [followedRun]
  split
  · split
    · next err hn => simp [run_bind, advance, hn]
    · next c₁ hn =>
        have hadvance : advance.run c = (.ok c.current, c₁) := run_advance_eq_ok.2 ⟨rfl, hn⟩
        rw [run_bind, hadvance]
        dsimp only
        rw [run_bind]
        split
        · next hp => rw [hp]
        · next a c₂ hp =>
            rw [hp]
            dsimp only
            rw [run_bind, show (followed sep p).run c₂ = followedRun sep p c₂ from rfl]
            cases followedRun sep p c₂ with
            | mk more c₃ => cases more <;> rfl
  · rfl

/-- After a separator and a part, less is left to read. -/
theorem size_lt_of_part {sep : Separator} {p : Parser α} {t : Token} {a : α} {c₂ : Cursor}
    (hk : c.current.kind = sep.kind) (hadvance : advance.run c = (.ok t, c₁))
    (hp : p.run c₁ = (.ok a, c₂)) : c₂.size < c.size := by
  have hle := p.size_le c₁
  rw [hp] at hle
  exact Nat.lt_of_le_of_lt hle
    (Cursor.size_next_lt (run_advance_eq_ok.1 hadvance).2 (hk ▸ sep.kind_ne_eof))

/-- Induction along a repetition: from behind each part to before its separator. -/
@[elab_as_elim]
theorem followedInduction (sep : Separator) (p : Parser α) {P : Cursor → Prop}
    (step : ∀ c, (∀ ⦃t c₁ a c₂⦄, c.current.kind = sep.kind → advance.run c = (.ok t, c₁) →
      p.run c₁ = (.ok a, c₂) → P c₂) → P c) (c : Cursor) : P c := by
  induction hn : c.size using Nat.strongRecOn generalizing c with
  | _ n ih =>
      subst hn
      exact step c fun _ _ _ _ hk hadvance hp => ih _ (size_lt_of_part hk hadvance hp) _ rfl

/-! ## Recognition -/

/-- The parser reads the phrases of `D` whose trees have `Q`, and reads all of them where no lexeme
of a kind in `more` follows. -/
structure Recognizes (p : Parser α) (D : List Lexeme → α → Prop) (Q : α → Prop)
    (more : List Kind) : Prop where
  sound : ∀ ⦃c c' : Cursor⦄ ⦃a : α⦄, p.run c = (.ok a, c') →
    ∃ ts, c.Passes ts c' ∧ D ts a ∧ Q a
  complete : ∀ ⦃c c' : Cursor⦄ ⦃ts : List Lexeme⦄ ⦃a : α⦄, D ts a → Q a → c.Passes ts c' →
    c'.current.kind ∉ more → p.run c = (.ok a, c')

variable {p : Parser α} {D : List Lexeme → α → Prop} {Q : α → Prop} {more : List Kind}
variable {sep : Separator}

theorem followedRun_of_ne (hk : c.current.kind ≠ sep.kind) : followedRun sep p c = (.ok [], c) := by
  rw [followedRun, dif_neg hk]

theorem followedRun_of_ok {a : α} {as : List α} {c₂ c₃ : Cursor} (hk : c.current.kind = sep.kind)
    (hn : c.next = .ok c₁) (hp : p.run c₁ = (.ok a, c₂))
    (hm : followedRun sep p c₂ = (.ok as, c₃)) : followedRun sep p c = (.ok (a :: as), c₃) := by
  rw [followedRun, dif_pos hk]
  split
  · simp_all
  · next c₁' hn' =>
      cases hn.symm.trans hn'
      split
      · simp_all
      · next a' c₂' hp' =>
          cases hp.symm.trans hp'
          simp [hm, Except.map]

/-- Where separators and parts follow, a separator is next, or what comes after them all. -/
theorem current_of_followed {k : Kind} {ts : List Lexeme} {as : List α} (hk : k ∉ more)
    (h : Followed k D ts as) (hts : c.Passes ts c') (hc' : c'.current.kind ∉ k :: more) :
    c.current.kind ∉ more := by
  cases h with
  | nil =>
      cases hts
      exact List.not_mem_of_not_mem_cons hc'
  | cons _ _ => rwa [show c.current.kind = k from congrArg Lexeme.kind hts.1]

theorem Recognizes.followed_sound (hp : Recognizes p D Q more) {as : List α}
    (h : followedRun sep p c = (.ok as, c')) :
    ∃ ts, c.Passes ts c' ∧ Followed sep.kind D ts as ∧ ∀ a ∈ as, Q a := by
  fun_induction followedRun sep p c generalizing as c' with
  | case1 => cases h
  | case2 => cases h
  | case3 c hk c₁ hn a c₂ hp' more' c₃ hm ih =>
      cases more' with
      | error e => cases h
      | ok as' =>
          cases h
          obtain ⟨ts, hts, hD, hQ⟩ := hp.sound hp'
          obtain ⟨us, hus, hF, hall⟩ := ih hm
          have hread : Lexeme.Readable ⟨sep.kind, c.current.text⟩ :=
            Lexeme.readable_of_kind (by cases sep <;> simp [Separator.kind])
          refine ⟨⟨sep.kind, c.current.text⟩ :: (ts ++ us), ?_, .cons hD hF, by simp_all⟩
          simp only [Cursor.passes_cons, Cursor.passes_append]
          exact ⟨by rw [Token.lexeme, hk], hread, c₁, hn, c₂, hts, hus⟩
  | case4 =>
      cases h
      exact ⟨[], rfl, .nil, by simp⟩

theorem Recognizes.followed_complete (hp : Recognizes p D Q more) (hsep : sep.kind ∉ more)
    {ts : List Lexeme} {as : List α} (h : Followed sep.kind D ts as) (hQ : ∀ a ∈ as, Q a)
    (hts : c.Passes ts c') (hc' : c'.current.kind ∉ sep.kind :: more) :
    followedRun sep p c = (.ok as, c') := by
  induction h generalizing c with
  | nil =>
      cases hts
      exact followedRun_of_ne (List.ne_of_not_mem_cons hc')
  | @cons x ts us a as ha has ih =>
      simp only [Cursor.passes_cons, Cursor.passes_append] at hts
      obtain ⟨hw, -, c₁, hn, c₂, hts, hus⟩ := hts
      simp only [List.forall_mem_cons] at hQ
      have hc₂ := current_of_followed hsep has hus hc'
      exact followedRun_of_ok (congrArg Lexeme.kind hw) hn (hp.complete ha hQ.1 hts hc₂)
        (ih hQ.2 hus)

theorem Recognizes.followed (hp : Recognizes p D Q more) (hsep : sep.kind ∉ more) :
    Recognizes (followed sep p) (Followed sep.kind D) (fun as => ∀ a ∈ as, Q a)
      (sep.kind :: more) where
  sound _ _ _ h := hp.followed_sound h
  complete _ _ _ _ h hQ hts hc' := hp.followed_complete hsep h hQ hts hc'

theorem Recognizes.separated (hp : Recognizes p D Q more) (hsep : sep.kind ∉ more) :
    Recognizes (separated sep p) (Separated sep.kind D) (fun as => ∀ a ∈ as, Q a)
      (sep.kind :: more) where
  sound c c' as h := by
    simp only [Parser.separated, run_bind_eq_ok, run_pure_eq_ok] at h
    obtain ⟨a, c₁, ha, as, c₂, has, rfl, rfl⟩ := h
    obtain ⟨ts, hts, hD, hQ⟩ := hp.sound ha
    obtain ⟨us, hus, hF, hall⟩ := (hp.followed hsep).sound has
    exact ⟨ts ++ us, Cursor.passes_append.2 ⟨c₁, hts, hus⟩, .mk hD hF, by simp_all⟩
  complete c c' ts as h hQ hts hc' := by
    obtain ⟨ha, has⟩ := h
    obtain ⟨c₁, hts, hus⟩ := Cursor.passes_append.1 hts
    simp only [List.forall_mem_cons] at hQ
    have ha := hp.complete ha hQ.1 hts (current_of_followed hsep has hus hc')
    have has := (hp.followed hsep).complete has hQ.2 hus hc'
    simp only [Parser.separated, run_bind_eq_ok, run_pure_eq_ok]
    exact ⟨_, c₁, ha, _, c', has, rfl, rfl⟩

end Parser

/-! ## Whole texts -/

namespace Cursor

theorem Passes.readable {ws : List Lexeme} (h : c.Passes ws c') : ∀ w ∈ ws, w.Readable := by
  induction ws generalizing c with
  | nil => simp
  | cons w ws ih =>
      obtain ⟨-, hw, c₁, -, h⟩ := h
      simpa using And.intro hw (ih h)

theorem next_eq_ofStream (t : Token) (ts : List Token) (e : Except LexError Position) :
    next ⟨t, ts, e⟩ = ofStream ⟨ts, e⟩ := by
  cases ts with
  | cons _ _ => rfl
  | nil => cases e <;> rfl

theorem passes_of_stream {ts : List Token} (p : Position) (hts : ∀ t ∈ ts, t.lexeme.Readable) :
    ∃ c, ofStream ⟨ts, .ok p⟩ = .ok c ∧ c.Passes (ts.map Token.lexeme) ⟨.eof p, [], .ok p⟩ := by
  induction ts with
  | nil => exact ⟨_, rfl, rfl⟩
  | cons t ts ih =>
      simp only [List.forall_mem_cons] at hts
      obtain ⟨c, hc, hpass⟩ := ih hts.2
      exact ⟨_, rfl, rfl, hts.1, c, (next_eq_ofStream t ts _).trans hc, hpass⟩

/-- Who stands at the end of the input has passed the whole stream. -/
theorem stream_of_passes {ts : List Token} {e : Except LexError Position} {ws : List Lexeme}
    (hc : ofStream ⟨ts, e⟩ = .ok c) (h : c.Passes ws c') (hend : c'.current.kind = .eof)
    (hts : ∀ t ∈ ts, t.kind ≠ .eof) : ts.map Token.lexeme = ws ∧ ∃ p, e = .ok p := by
  induction ts generalizing c ws with
  | nil =>
      cases e with
      | error e => cases hc
      | ok p =>
          cases hc
          cases ws with
          | nil => exact ⟨rfl, p, rfl⟩
          | cons w ws =>
              obtain ⟨rfl, hw, -⟩ := h
              exact absurd rfl hw.kind_ne_eof
  | cons t ts ih =>
      cases hc
      simp only [List.forall_mem_cons] at hts
      cases ws with
      | nil =>
          cases h
          exact absurd hend hts.1
      | cons w ws =>
          obtain ⟨rfl, -, c₁, hn, h⟩ := h
          obtain ⟨rfl, he⟩ := ih ((next_eq_ofStream t ts e).symm.trans hn) h hts.2
          exact ⟨rfl, he⟩

end Cursor

/-- A whole text is accepted when its tokens are, and the lexer finds no error in it. -/
theorem Parser.Recognizes.readFrom_whole_iff {p : Parser α} {D : List Lexeme → α → Prop}
    {Q : α → Prop} {more : List Kind} (hp : p.Recognizes D Q more) (hmore : .eof ∉ more)
    {l : Lexer} {a : α} :
    (whole p).readFrom l = .ok a ↔
      ∃ ws, l.grammar.Reads l.rest ws ∧ D ws a ∧ Q a ∧ ∀ w ∈ ws, w.Readable := by
  simp only [Lexer.reads_iff_stream, readFrom, Cursor.ofLexer]
  constructor
  · intro h
    cases hc : Cursor.ofStream l.stream.significant with
    | error e => simp [hc] at h
    | ok c =>
        simp only [hc] at h
        have hrun : (whole p).run c = (.ok a, ((whole p).run c).2) := Prod.ext h rfl
        obtain ⟨c₁, ha, hend, -⟩ := run_whole_eq_ok.1 hrun
        obtain ⟨ws, hws, hD, hQ⟩ := hp.sound ha
        obtain ⟨rfl, he⟩ := Cursor.stream_of_passes hc hws hend
          fun t ht => Lexer.kind_ne_eof_of_mem_significant ht
        exact ⟨_, ⟨he.choose, he.choose_spec, rfl⟩, hD, hQ, hws.readable⟩
  · rintro ⟨_, ⟨pos, hpos, rfl⟩, hD, hQ, hread⟩
    obtain ⟨c, hc, hws⟩ := Cursor.passes_of_stream pos (by simpa using hread)
    have ha := hp.complete hD hQ hws hmore
    have hrun := run_whole_eq_ok.2 ⟨_, ha, rfl, rfl⟩
    have hstream : l.stream.significant = ⟨l.stream.significant.tokens, .ok pos⟩ := by
      rw [← hpos]
      rfl
    rw [hstream]
    simp [hc, hrun]

end Sift
