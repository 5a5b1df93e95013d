import Sift.Proofs.Parse.Cursor
import Sift.Proofs.Parse.Nesting

/-!
# Where a parser fails

What has been read when a parser fails is the beginning of a phrase, and the error tells how it
cannot go on from there.
-/

namespace Sift

variable {α β : Type} {c c' c₁ : Cursor} {ts us pre : List Lexeme}

/-! ## Beginnings of phrases -/

/-- The lexemes begin a phrase whose tree has `Q`, and those to come are readable. -/
def Begins (D : List Lexeme → α → Prop) (Q : α → Prop) (ts : List Lexeme) : Prop :=
  ∃ us a, D (ts ++ us) a ∧ Q a ∧ ∀ w ∈ us, w.Readable

/-- The phrases of `D` stand after `pre` in phrases of `E`, where `Q` gives `R`. -/
def Embeds (pre : List Lexeme) (D : List Lexeme → α → Prop) (Q : α → Prop)
    (E : List Lexeme → β → Prop) (R : β → Prop) : Prop :=
  ∀ ⦃ts a⦄, D ts a → ∃ us b, E (pre ++ (ts ++ us)) b ∧ (Q a → R b) ∧ ∀ w ∈ us, w.Readable

/-- Any tree will do. -/
abbrev Any : α → Prop := fun _ => True

section

variable {D : List Lexeme → α → Prop} {Q : α → Prop} {E : List Lexeme → β → Prop} {R : β → Prop}

theorem Embeds.any (h : Embeds pre D Q E R) : Embeds pre D Any E Any := by
  intro ts a ha
  obtain ⟨us, b, hb, -, hus⟩ := h ha
  exact ⟨us, b, hb, fun _ => trivial, hus⟩

theorem Begins.any (h : Begins D Q ts) : Begins D Any ts := by
  obtain ⟨us, a, ha, -, hus⟩ := h
  exact ⟨us, a, ha, trivial, hus⟩

theorem Begins.embed (h : Begins D Q ts) (he : Embeds pre D Q E R) : Begins E R (pre ++ ts) := by
  obtain ⟨us, a, ha, hQ, hus⟩ := h
  obtain ⟨vs, b, hb, hR, hvs⟩ := he ha
  refine ⟨us ++ vs, b, ?_, hR hQ, ?_⟩
  · simpa only [List.append_assoc] using hb
  · exact List.forall_mem_append.2 ⟨hus, hvs⟩

/-- A phrase that can be read begins with nothing read yet. -/
theorem begins_nil {a : α} (ha : D ts a) (hQ : Q a) (hts : ∀ w ∈ ts, w.Readable) :
    Begins D Q [] :=
  ⟨ts, a, ha, hQ, hts⟩

theorem Begins.of_append (h : Begins D Q (ts ++ us)) (hus : ∀ w ∈ us, w.Readable) :
    Begins D Q ts := by
  obtain ⟨vs, a, ha, hQ, hvs⟩ := h
  exact ⟨us ++ vs, a, by simpa only [List.append_assoc] using ha, hQ,
    List.forall_mem_append.2 ⟨hus, hvs⟩⟩

/-- A phrase begins as far as it goes. -/
theorem begins_self {a : α} (ha : D ts a) (hQ : Q a) : Begins D Q ts :=
  ⟨[], a, by simpa using ha, hQ, by simp⟩

end

/-! ## Faults -/

/-- The kind of lexeme that holds a number of this sort. -/
def NumberKind.kind : NumberKind → Kind
  | integer => .int
  | float => .float

theorem NumberKind.kind_injective : Function.Injective NumberKind.kind := by
  intro sort sort' h
  cases sort <;> cases sort' <;> first | rfl | cases h

theorem NumberKind.kind_ne_openParen (sort : NumberKind) : sort.kind ≠ .openParen := by
  cases sort <;> simp [NumberKind.kind]

/-- How a parser of `D` fails before the current token, when `ts` has been read and `d` parentheses
could be opened at the outset. -/
inductive Fault (D : List Lexeme → α → Prop) (Q : α → Prop) (limit : Nat) (d : Int) (c : Cursor)
    (ts : List Lexeme) : ParseError → Prop
  /-- The current token goes on with the phrase, and the next one cannot be read. -/
  | lex {e : LexError} : c.next = .error e → c.current.lexeme.Readable →
      Begins D Q (ts ++ [c.current.lexeme]) → Fault D Q limit d c ts (.lex e)
  /-- A lexeme of kind `comparison` is asked to be an operator only where its kind is right. -/
  | unexpected {x : Expected} :
      (x = .comparison → c.current.kind = .comparison ∧ ¬ c.current.lexeme.Proper) →
      Begins D Q ts → Fault D Q limit d c ts (.unexpected x c.current)
  /-- Another number would go on with the phrase. -/
  | invalidLiteral {sort : NumberKind} {w : Lexeme} : c.current.kind = sort.kind →
      ¬ c.current.lexeme.Readable → w.kind = c.current.kind → w.Readable →
      Begins D Q (ts ++ [w]) → Fault D Q limit d c ts (.invalidLiteral sort c.current)
  | tooDeep : c.current.kind = .openParen → opened ts = d → Begins D Q ts →
      Begins D Any (ts ++ [c.current.lexeme]) → Fault D Q limit d c ts (.tooDeep limit c.current)

/-- Reading on from `c` fails at `c'`. -/
def Cursor.Fails (D : List Lexeme → α → Prop) (Q : α → Prop) (limit : Nat) (d : Int)
    (c c' : Cursor) (e : ParseError) : Prop :=
  ∃ ts, c.Passes ts c' ∧ Fault D Q limit d c' ts e

variable {limit : Nat} {d d' : Int} {e : ParseError}
variable {D : List Lexeme → α → Prop} {Q : α → Prop} {E : List Lexeme → β → Prop} {R : β → Prop}

theorem Fault.embed (h : Fault D Q limit d c ts e) (he : Embeds pre D Q E R)
    (hd : opened pre + d = d') : Fault E R limit d' c (pre ++ ts) e := by
  cases h with
  | lex hn hread hbegins =>
      refine .lex hn hread ?_
      rw [List.append_assoc]
      exact hbegins.embed he
  | unexpected hx hbegins => exact .unexpected hx (hbegins.embed he)
  | invalidLiteral hk hread hw hw' hbegins =>
      refine .invalidLiteral hk hread hw hw' ?_
      rw [List.append_assoc]
      exact hbegins.embed he
  | tooDeep hk hopened hbegins hany =>
      refine .tooDeep hk ?_ (hbegins.embed he) ?_
      · rw [opened_append, hopened, hd]
      · rw [List.append_assoc]
        exact hany.embed he.any

/-- What fails after `pre` has been read fails as a whole. -/
theorem Cursor.Fails.after (h : c₁.Fails D Q limit d c' e) (hpre : c.Passes pre c₁)
    (he : Embeds pre D Q E R) (hd : opened pre + d = d') : c.Fails E R limit d' c' e := by
  obtain ⟨ts, hts, hfault⟩ := h
  exact ⟨pre ++ ts, Cursor.passes_append.2 ⟨c₁, hpre, hts⟩, hfault.embed he hd⟩

/-- What fails within a phrase fails at its beginning. -/
theorem Cursor.Fails.within (h : c.Fails D Q limit d c' e) (he : Embeds [] D Q E R) :
    c.Fails E R limit d c' e :=
  h.after (Cursor.passes_nil.2 rfl) he (by simp)

/-! ## Failing runs -/

namespace Parser

theorem run_bind_eq_error {p : Parser α} {f : α → Parser β} :
    (p >>= f).run c = (.error e, c') ↔
      p.run c = (.error e, c') ∨
        ∃ a c₁, p.run c = (.ok a, c₁) ∧ (f a).run c₁ = (.error e, c') := by
  rw [run_bind]
  cases hp : p.run c with
  | mk result c₂ => cases result <;> simp

theorem run_pure_ne_error {a : α} : (pure a : Parser α).run c ≠ (.error e, c') := by
  simp

theorem run_advance_eq_error :
    advance.run c = (.error e, c') ↔ ∃ err, c.next = .error err ∧ .lex err = e ∧ c = c' := by
  simp only [advance]
  cases c.next <;> simp

theorem run_unexpected_eq_error {x : Expected} :
    (unexpected x : Parser α).run c = (.error e, c') ↔ .unexpected x c.current = e ∧ c = c' := by
  simp [unexpected, fail]

theorem run_expect_eq_error {k : Kind} {x : Expected} :
    (expect k x).run c = (.error e, c') ↔
      c.current.kind = k ∧ (∃ err, c.next = .error err ∧ .lex err = e ∧ c = c') ∨
        c.current.kind ≠ k ∧ .unexpected x c.current = e ∧ c = c' := by
  rw [expect, run_looksAt_bind]
  by_cases hk : c.current.kind = k
  · simp [hk, run_advance_eq_error]
  · simp [hk, run_unexpected_eq_error]

/-- A lexeme that would go on with the phrase is missing, or what follows it cannot be read. -/
theorem fails_of_expect {k : Kind} {x : Expected} (h : (expect k x).run c₁ = (.error e, c'))
    (hpre : c.Passes pre c₁) (hx : x ≠ .comparison) (hk : k ∉ [Kind.eof, .int, .float])
    (hbegins : Begins D Q (pre ++ [⟨k, c₁.current.text⟩])) : c.Fails D Q limit d c' e := by
  have hread : Lexeme.Readable ⟨k, c₁.current.text⟩ := Lexeme.readable_of_kind hk
  rcases run_expect_eq_error.1 h with ⟨rfl, err, hn, rfl, rfl⟩ | ⟨-, rfl, rfl⟩
  · exact ⟨pre, hpre, .lex hn hread hbegins⟩
  · exact ⟨pre, hpre, .unexpected (fun he => absurd he hx)
      (hbegins.of_append (by simpa using hread))⟩

/-- Wherever the parser fails, it has read the beginning of a phrase of `D`. -/
def Fails (p : Parser α) (D : List Lexeme → α → Prop) (Q : α → Prop) (limit : Nat) (d : Int) :
    Prop :=
  ∀ ⦃c c' : Cursor⦄ ⦃e : ParseError⦄, p.run c = (.error e, c') → c.Fails D Q limit d c' e

/-! ## Repetition and parentheses -/

variable {p : Parser α} {more : List Kind} {sep : Separator}

/-- As many parentheses are closed as are opened. -/
def Balanced (D : List Lexeme → α → Prop) : Prop := ∀ ⦃ts a⦄, D ts a → opened ts = 0

theorem Separator.readable {w : Lexeme} (h : w.kind = sep.kind) : w.Readable :=
  Lexeme.readable_of_kind (by rw [h]; cases sep <;> simp [Separator.kind])

theorem Separator.opened_eq {w : Lexeme} (h : w.kind = sep.kind) : opened [w] = 0 :=
  opened_of_kind (by rw [h]; cases sep <;> simp [Separator.kind])

theorem Fails.followed (hfail : Fails p D Q limit d) (hp : Recognizes p D Q more)
    (hsample : Begins D Q []) (hbalanced : Balanced D) :
    Fails (followed sep p) (Followed sep.kind D) (fun as => ∀ a ∈ as, Q a) limit d := by
  intro c c' e h
  change followedRun sep p c = (.error e, c') at h
  fun_induction followedRun sep p c generalizing e c' with
  | case1 c hk err hn =>
      cases h
      obtain ⟨us, a, ha, hQ, hus⟩ := hsample
      refine ⟨[], rfl, .lex hn (Separator.readable hk) ⟨us, [a], ?_, by simpa using hQ, hus⟩⟩
      have hfollowed : Followed sep.kind D (⟨sep.kind, c.current.text⟩ :: (us ++ [])) [a] :=
        .cons ha .nil
      simpa [Token.lexeme, hk] using hfollowed
  | case2 c hk c₁ hn err c₂ hrun =>
      cases h
      refine (hfail hrun).after (Cursor.passes_next hn (Separator.readable hk)) ?_ ?_
      · intro ts a ha
        refine ⟨[], [a], ?_, by simp, by simp⟩
        have hfollowed : Followed sep.kind D (⟨sep.kind, c.current.text⟩ :: (ts ++ [])) [a] :=
          .cons ha .nil
        simpa [Token.lexeme, hk] using hfollowed
      · rw [Separator.opened_eq hk, zero_add]
  | case3 c hk c₁ hn a c₂ hrun more' c₃ hm ih =>
      cases more' with
      | ok as => cases h
      | error err =>
          cases h
          obtain ⟨ts, hts, ha, hQ⟩ := hp.sound hrun
          have hpre : c.Passes (c.current.lexeme :: ts) c₂ :=
            ⟨rfl, Separator.readable hk, c₁, hn, hts⟩
          refine (ih hm).after hpre ?_ ?_
          · intro us as has
            refine ⟨[], a :: as, ?_, by simpa using fun h => ⟨hQ, h⟩, by simp⟩
            have hfollowed : Followed sep.kind D (⟨sep.kind, c.current.text⟩ :: (ts ++ us))
              (a :: as) := .cons ha has
            simpa [Token.lexeme, hk] using hfollowed
          · rw [← List.singleton_append, opened_append, Separator.opened_eq hk, hbalanced ha]
            simp
  | case4 => cases h

theorem Fails.separated (hfail : Fails p D Q limit d) (hp : Recognizes p D Q more)
    (hsample : Begins D Q []) (hbalanced : Balanced D) :
    Fails (separated sep p) (Separated sep.kind D) (fun as => ∀ a ∈ as, Q a) limit d := by
  intro c c' e h
  simp only [Parser.separated, run_bind_eq_error, run_pure_ne_error, and_false, exists_false,
    or_false] at h
  rcases h with h | ⟨a, c₁, ha, h⟩
  · apply (hfail h).within
    intro ts a ha
    exact ⟨[], [a], .one (by simpa using ha), by simp, by simp⟩
  · obtain ⟨ts, hts, ha, hQ⟩ := hp.sound ha
    apply (hfail.followed hp hsample hbalanced h).after hts
    · intro us as has
      exact ⟨[], a :: as, by simpa using Separated.mk ha has, by simpa using fun h => ⟨hQ, h⟩,
        by simp⟩
    · rw [hbalanced ha, zero_add]

end Parser

/-! ## Whole texts -/

/-- A place where the next token cannot be read is the last one before the error of the stream. -/
theorem Cursor.Fails.ending_eq {us : List Token} {ending : Except LexError Position}
    {err : LexError} (hc : ofStream ⟨us, ending⟩ = .ok c) (h : c.Fails D Q limit d c' (.lex err)) :
    ending = .error err := by
  obtain ⟨ts, hts, hfault⟩ := h
  cases hfault with
  | lex hn hread _ =>
      obtain ⟨_, vs, rfl, -, hvs⟩ := exists_of_passes hc hts
      obtain ⟨vs, rfl, hnext⟩ := exists_cons_of_ofStream hvs hread.kind_ne_eof
      exact ending_of_ofStream_error (hnext.symm.trans hn)

namespace Parser

variable {p : Parser α} {more : List Kind}

/-- What follows a phrase fails at the first token there, where the input does not end. -/
theorem Fails.whole (hfail : Fails p D Q limit d) (hp : Recognizes p D Q more) {us : List Token}
    {ending : Except LexError Position} (hc : Cursor.ofStream ⟨us, ending⟩ = .ok c)
    (hus : ∀ t ∈ us, t.kind ≠ .eof) (h : (whole p).run c = (.error e, c')) :
    c.Fails D Q limit d c' e := by
  simp only [Parser.whole, run_bind_eq_error, run_pure_ne_error, and_false, exists_false,
    or_false] at h
  rcases h with h | ⟨a, c₁, ha, h⟩
  · exact hfail h
  · obtain ⟨ts, hts, ha, hQ⟩ := hp.sound ha
    rcases run_expect_eq_error.1 h with ⟨hend, err, hn, -, -⟩ | ⟨-, rfl, rfl⟩
    · obtain ⟨_, vs, rfl, -, hvs⟩ := Cursor.exists_of_passes hc hts
      have hstay := Cursor.next_of_eof hvs (fun t ht => hus t (List.mem_append_right _ ht)) hend
      rw [hstay] at hn
      cases hn
    · exact ⟨ts, hts, .unexpected (by simp) (begins_self ha hQ)⟩

/-- The parser reports a lexical error only where the tokens end in it. -/
theorem Fails.ending_of_readFrom (hfail : Fails p D Q limit d) (hp : Recognizes p D Q more)
    {l : Lexer} {err : LexError} (h : (Parser.whole p).readFrom l = .error (.lex err)) :
    l.stream.ending = .error err := by
  unfold readFrom at h
  cases hc : Cursor.ofLexer l with
  | error err' =>
      simp only [hc, Except.error.injEq, ParseError.lex.injEq] at h
      subst h
      have hending : l.stream.significant.ending = .error err' :=
        Cursor.ending_of_ofStream_error hc
      exact hending
  | ok c =>
      simp only [hc] at h
      have hrun : (Parser.whole p).run c = (.error (.lex err), _) := Prod.ext h rfl
      exact (hfail.whole hp hc (fun t => Lexer.kind_ne_eof_of_mem_significant) hrun).ending_eq hc

/-- The parser accepts only what has tokens up to its end. -/
theorem Recognizes.ending_of_readFrom (hp : Recognizes p D Q more) (hmore : .eof ∉ more)
    {l : Lexer} {a : α} (h : (Parser.whole p).readFrom l = .ok a) :
    ∃ pos, l.stream.ending = .ok pos := by
  obtain ⟨ws, hws, -⟩ := (hp.readFrom_whole_iff hmore).1 h
  obtain ⟨pos, hpos, -⟩ := Lexer.reads_iff_stream.1 hws
  exact ⟨pos, hpos⟩

end Parser

end Sift
