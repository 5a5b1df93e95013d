import Sift.Proofs.Filter.Acceptance
import Sift.Proofs.Filter.Lookahead
import Sift.Proofs.Parse.Cursor

/-!
# The first error of a text

The error of a text that is refused is about the first token that no filter can have there. The
sort of error tells what is wrong with that token: it cannot be read, the grammar does not allow
its kind, its number is out of range, or it opens a parenthesis too many.
-/

namespace Sift

open Sift.Parser

/-- The token that the error is about, or the error that reading it gives. -/
def ParseError.found : ParseError → Except LexError Token
  | lex e => .error e
  | unexpected _ t | invalidLiteral _ t | tooDeep _ t => .ok t

namespace Filter

/-- The error `e` is about what is found after the tokens `before`, which begin a filter. -/
structure FirstError (l : Lexer) (before : List Token) (e : ParseError) : Prop where
  reads : ∀ i (h : i < before.length), l.tokenAt i = .ok before[i]
  found : l.tokenAt before.length = e.found
  begins : ∃ more f, Filter.Derived (before.map Token.lexeme ++ more) f ∧ depth f ≤ maxDepth ∧
    ∀ w ∈ more, w.InRange
  inRange : ∀ t ∈ before, t.lexeme.InRange
  opened_le : ∀ ts, ts <+: before → opened (ts.map Token.lexeme) ≤ maxDepth
  lex : ∀ err, e = .lex err ↔ l.tokenAt before.length = .error err
  unexpected : ∀ t, (∃ x, e = .unexpected x t) ↔
    l.tokenAt before.length = .ok t ∧ ¬ Continues (before.map Token.kind) t.kind
  tooDeep : ∀ limit t, e = .tooDeep limit t ↔
    l.tokenAt before.length = .ok t ∧ limit = maxDepth ∧ t.kind = .openParen ∧
      Continues (before.map Token.kind) t.kind ∧ opened (before.map Token.lexeme) = maxDepth
  invalidLiteral : ∀ sort t, e = .invalidLiteral sort t ↔
    l.tokenAt before.length = .ok t ∧ t.kind = sort.kind ∧
      Continues (before.map Token.kind) t.kind ∧ ¬ t.lexeme.InRange
  ne_comparison : ∀ t, e ≠ .unexpected .comparison t

end Filter

variable {c c' : Cursor} {e : ParseError}

theorem Lexeme.Readable.inRange {w : Lexeme} (h : w.Readable) : w.InRange := by
  unfold Readable at h
  unfold InRange
  split at h
  · exact h.elim
  · next hk =>
      obtain ⟨n, hn⟩ := h
      have := (Decimal.int64?_eq_some_iff.1 hn).2
      have := n.toInt_lt
      simp only [hk]
      omega
  · next hk => simpa [hk] using h
  · split <;> trivial

namespace Filter

/-! ## Where the parser of whole texts fails -/

/-- What is found after the tokens `before`, and why it does not go on with them. -/
inductive Refused (l : Lexer) (before : List Token) : ParseError → Prop
  | lex {err : LexError} : l.tokenAt before.length = .error err → Refused l before (.lex err)
  | unexpected {x : Expected} {t : Token} : l.tokenAt before.length = .ok t → x ≠ .comparison →
      ¬ Continues (before.map Token.kind) t.kind → Refused l before (.unexpected x t)
  | invalidLiteral {sort : NumberKind} {t : Token} : l.tokenAt before.length = .ok t →
      t.kind = sort.kind → Continues (before.map Token.kind) t.kind → ¬ t.lexeme.InRange →
      Refused l before (.invalidLiteral sort t)
  | tooDeep {t : Token} : l.tokenAt before.length = .ok t → t.kind = .openParen →
      Continues (before.map Token.kind) t.kind → opened (before.map Token.lexeme) = maxDepth →
      Refused l before (.tooDeep maxDepth t)

theorem continues_of_derived {ts us : List Lexeme} {w : Lexeme} {f : Filter}
    (h : Filter.Derived (ts ++ w :: us) f) : Continues (ts.map Lexeme.kind) w.kind := by
  rw [Continues, if_neg (h.nested.kind_ne_eof w (by simp))]
  exact ⟨us.map Lexeme.kind, _, f, h, by simp⟩

theorem continues_of_begins {Q : Filter → Prop} {ts : List Lexeme} {w : Lexeme}
    (h : Begins Filter.Derived Q (ts ++ [w])) : Continues (ts.map Lexeme.kind) w.kind := by
  obtain ⟨us, f, hf, -, -⟩ := h
  rw [List.append_assoc, List.singleton_append] at hf
  exact continues_of_derived hf

theorem map_kind_lexeme (ts : List Token) :
    (ts.map Token.lexeme).map Lexeme.kind = ts.map Token.kind :=
  List.map_map

theorem exists_refused {l : Lexer} (hg : l.grammar = .filter) (hc : Cursor.ofLexer l = .ok c)
    (h : (whole parser).run c = (.error e, c')) :
    ∃ before, (∀ i (h : i < before.length), l.tokenAt i = .ok before[i]) ∧
      Begins Filter.Derived (fun f => depth f ≤ maxDepth) (before.map Token.lexeme) ∧
      (∀ t ∈ before, t.lexeme.Readable) ∧ Refused l before e := by
  obtain ⟨ts, ending, hs⟩ : ∃ ts ending, l.stream.significant = ⟨ts, ending⟩ := ⟨_, _, rfl⟩
  have hproper : ∀ t ∈ ts, t.lexeme.Proper := fun t ht =>
    Lexer.proper_of_mem_significant hg (by rw [hs]; exact ht)
  have heof : ∀ t ∈ ts, t.kind ≠ .eof := fun t ht =>
    Lexer.kind_ne_eof_of_mem_significant (by rw [hs]; exact ht)
  rw [Cursor.ofLexer, hs] at hc
  obtain ⟨ws, hws, hfault⟩ := Fails.whole fails recognizes hc heof h
  obtain ⟨us, vs, rfl, rfl, hvs⟩ := Cursor.exists_of_passes hc hws
  obtain ⟨hreads, hfound⟩ := Lexer.tokenAt_of_stream hs
  rw [hvs] at hfound
  have hreadable : ∀ t ∈ us, t.lexeme.Readable := fun t ht =>
    hws.readable _ (List.mem_map_of_mem ht)
  cases hfault with
  | @lex err hn hread hbegins =>
      -- The current token has been read as well, and what is wrong comes after it.
      obtain ⟨vs, rfl, hnext⟩ := Cursor.exists_cons_of_ofStream hvs hread.kind_ne_eof
      rw [← List.singleton_append, ← List.append_assoc] at hs
      obtain ⟨hreads, hfound⟩ := Lexer.tokenAt_of_stream hs
      rw [← hnext, hn] at hfound
      refine ⟨us ++ [c'.current], hreads, ?_, ?_, .lex hfound⟩
      · rwa [List.map_append]
      · exact List.forall_mem_append.2 ⟨hreadable, by simpa using hread⟩
  | @unexpected x hx hbegins =>
      have hx : x ≠ .comparison := by
        intro he
        obtain ⟨hk, hproper'⟩ := hx he
        obtain ⟨vs, rfl, -⟩ := Cursor.exists_cons_of_ofStream hvs (by simp [hk])
        exact hproper' (hproper _ (List.mem_append_right us List.mem_cons_self))
      refine ⟨us, hreads, hbegins, hreadable, .unexpected hfound hx ?_⟩
      rw [← map_kind_lexeme]
      exact not_continues_of_syntactic h hx hws
  | @invalidLiteral sort w hk hread hw hw' hbegins =>
      have hne : c'.current.kind ≠ .eof := hw ▸ hw'.kind_ne_eof
      obtain ⟨vs, rfl, -⟩ := Cursor.exists_cons_of_ofStream hvs hne
      have hproper := hproper _ (List.mem_append_right us List.mem_cons_self)
      refine ⟨us, hreads, hbegins.of_append (by simpa using hw'), hreadable,
        .invalidLiteral hfound hk ?_ fun hrange => hread (hproper.readable_iff.2 hrange)⟩
      rw [← map_kind_lexeme, ← hw]
      exact continues_of_begins hbegins
  | tooDeep hk hopened hbegins hany =>
      refine ⟨us, hreads, hbegins, hreadable, .tooDeep hfound hk ?_ hopened⟩
      rw [← map_kind_lexeme]
      exact continues_of_begins hany

/-- The sorts of errors exclude each other, so that each one is told by what is wrong. -/
theorem FirstError.of_refused {l : Lexer} {before : List Token}
    (hreads : ∀ i (h : i < before.length), l.tokenAt i = .ok before[i])
    (hbegins : Begins Filter.Derived (fun f => depth f ≤ maxDepth) (before.map Token.lexeme))
    (hreadable : ∀ t ∈ before, t.lexeme.Readable) (h : Refused l before e) :
    FirstError l before e := by
  obtain ⟨more, f, hf, hdepth, hmore⟩ := hbegins
  constructor
  case reads => exact hreads
  case found => cases h <;> assumption
  case begins => exact ⟨more, f, hf, hdepth, fun w hw => (hmore w hw).inRange⟩
  case inRange => exact fun t ht => (hreadable t ht).inRange
  case opened_le =>
    intro ts hts
    have hprefix : ts.map Token.lexeme <+: before.map Token.lexeme ++ more :=
      (hts.map _).trans (List.prefix_append _ _)
    exact (hf.nested.opened_le _ hprefix).trans (Int.ofNat_le.2 hdepth)
  case lex => cases h with | _ hfound => simp [hfound]
  case unexpected =>
    cases h with
    | lex hfound => simp [hfound]
    | unexpected hfound _ hcontinues => simp [hfound, hcontinues]
    | invalidLiteral hfound _ hcontinues _ => simp [hfound, hcontinues]
    | tooDeep hfound _ hcontinues _ => simp [hfound, hcontinues]
  case tooDeep =>
    cases h with
    | lex hfound => simp [hfound]
    | unexpected hfound _ hcontinues => simp [hfound, hcontinues]
    | invalidLiteral hfound hk _ _ => simp [hfound, hk, NumberKind.kind_ne_openParen]
    | tooDeep hfound hk hcontinues hopened =>
        intro limit t
        constructor
        · intro he
          cases he
          exact ⟨hfound, rfl, hk, hcontinues, hopened⟩
        · intro ht
          obtain ⟨ht, rfl, -⟩ := ht
          cases hfound.symm.trans ht
          rfl
  case invalidLiteral =>
    cases h with
    | lex hfound => simp [hfound]
    | unexpected hfound _ hcontinues => simp [hfound, hcontinues]
    | invalidLiteral hfound hk hcontinues hrange =>
        intro sort t
        constructor
        · intro he
          cases he
          exact ⟨hfound, hk, hcontinues, hrange⟩
        · intro ht
          obtain ⟨ht, hsort, -⟩ := ht
          cases hfound.symm.trans ht
          rw [NumberKind.kind_injective (hk.symm.trans hsort)]
    | tooDeep hfound hk _ _ => simp [hfound, hk, (NumberKind.kind_ne_openParen _).symm]
  case ne_comparison =>
    cases h with
    | unexpected _ hx _ => simp [hx]
    | _ => simp

namespace FirstError

variable {l : Lexer} {b b' : List Token} {e' : ParseError}

theorem prefix_of_length_le (h : FirstError l b e) (h' : FirstError l b' e')
    (hlength : b.length ≤ b'.length) : b <+: b' :=
  Lexer.prefix_of_tokenAt h.reads h'.reads hlength

/-- Where more tokens go on with a filter, the error would not be about the first of them. -/
theorem length_le (h : FirstError l b e) (h' : FirstError l b' e') : b'.length ≤ b.length := by
  apply Nat.le_of_not_lt
  intro hlt
  obtain ⟨r, rfl⟩ := h.prefix_of_length_le h' hlt.le
  cases r with
  | nil => simp at hlt
  | cons t r =>
      have hfound : l.tokenAt b.length = .ok t := by simpa using h'.reads b.length hlt
      have hcontinues : Continues (b.map Token.kind) t.kind := by
        obtain ⟨more, f, hf, -⟩ := h'.begins
        rw [List.map_append, List.append_assoc, List.map_cons, List.cons_append] at hf
        rw [← map_kind_lexeme]
        exact continues_of_derived hf
      have hrange := h'.inRange t (by simp)
      have hopened := h'.opened_le (b ++ [t]) (by simp)
      cases e with
      | lex err =>
          have := (h.lex err).1 rfl
          simp [hfound] at this
      | unexpected x u =>
          obtain ⟨hu, hne⟩ := (h.unexpected u).1 ⟨x, rfl⟩
          cases hfound.symm.trans hu
          exact hne hcontinues
      | invalidLiteral sort u =>
          obtain ⟨hu, -, -, hne⟩ := (h.invalidLiteral sort u).1 rfl
          cases hfound.symm.trans hu
          exact hne hrange
      | tooDeep limit u =>
          obtain ⟨hu, -, hk, -, hmax⟩ := (h.tooDeep limit u).1 rfl
          cases hfound.symm.trans hu
          rw [List.map_append, opened_append, hmax, List.map_singleton, Token.lexeme, hk,
            opened_openParen] at hopened
          omega

/-- There is one first error only. -/
theorem unique (h : FirstError l b e) (h' : FirstError l b' e') : b = b' := by
  have hlength := h'.length_le h
  exact (h.prefix_of_length_le h' hlength).eq_of_length (Nat.le_antisymm hlength (h.length_le h'))

end FirstError

/-- The error of a text that is refused is the first one. -/
theorem existsUnique_firstError {text : String} (h : parse text = .error e) :
    ∃! before, FirstError (.ofText .filter text) before e := by
  apply existsUnique_of_exists_of_unique ?_ fun b b' hb hb' => hb.unique hb'
  simp only [parse, readFrom] at h
  cases hc : Cursor.ofLexer (.ofText .filter text) with
  | ok c =>
      simp only [hc] at h
      have hrun : (whole parser).run c = (.error e, ((whole parser).run c).2) := Prod.ext h rfl
      obtain ⟨before, hreads, hbegins, hreadable, hrefused⟩ := exists_refused rfl hc hrun
      exact ⟨before, .of_refused hreads hbegins hreadable hrefused⟩
  | error err =>
      simp only [hc, Except.error.injEq] at h
      subst h
      have hs : (Lexer.ofText .filter text).stream.significant = ⟨[] ++ _, _⟩ := rfl
      have hfound := (Lexer.tokenAt_of_stream hs).2
      refine ⟨[], .of_refused (by simp) begins (by simp) (.lex (hfound.trans ?_))⟩
      exact congrArg (Except.map Cursor.current) hc

theorem existsUnique_firstError_of_closeParen :
    let e := ParseError.unexpected .value ⟨.closeParen, ")", ⟨5, 6⟩, ⟨5, 1, 6⟩⟩
    parse "a OR )" = .error e ∧ ∃! before, FirstError (.ofText .filter "a OR )") before e := by
  intro e
  -- Equality of trees is not decided, so a tree is left out before errors are compared.
  have hmap : (parse "a OR )").map (fun _ => ()) = .error e := by decide +kernel
  have he : parse "a OR )" = .error e := by
    cases h : parse "a OR )" with
    | ok f => simp [h, Except.map] at hmap
    | error err => simpa [h, Except.map] using hmap
  exact ⟨he, existsUnique_firstError he⟩

end Filter

end Sift
