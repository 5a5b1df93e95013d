import Sift.Proofs.Filter.Recognition
import Sift.Proofs.Filter.Sentence

/-!
# Where the parser of filters fails

Each parser fails only after the beginning of a phrase of its part of the grammar.
-/

namespace Sift

open Sift.Parser

variable {c c' : Cursor} {e : ParseError} {limit : Nat} {d : Int}

/-! ## Phrases of one lexeme -/

theorem Value.derived_star : Value.Derived [⟨.star, "*"⟩] .wildcard := .star

theorem Comparable.derived_star : Comparable.Derived [⟨.star, "*"⟩] (.plain .wildcard []) :=
  .plain Value.derived_star .nil

theorem readable_star : ∀ w ∈ [(⟨.star, "*"⟩ : Lexeme)], w.Readable := by
  intro w hw
  rw [List.mem_singleton.1 hw]
  trivial

/-! ## Values and paths -/

namespace Value

theorem balanced : Balanced Value.Derived := fun _ _ h => (h.nested (d := 0)).opened_eq

theorem fails_of_accept {v : Value} {k : Kind} (hk : c.current.kind = k)
    (hread : Lexeme.Readable ⟨k, c.current.text⟩) (hv : v.Derived [⟨k, c.current.text⟩])
    (h : (accept v).run c = (.error e, c')) : c.Fails Value.Derived Any limit d c' e := by
  subst hk
  simp only [accept, run_bind_eq_error, run_advance_eq_error, run_pure_ne_error, and_false,
    exists_false, or_false] at h
  obtain ⟨err, hn, rfl, rfl⟩ := h
  exact ⟨[], rfl, .lex hn hread (begins_self hv trivial)⟩

theorem fails_of_invalid {sort : NumberKind} (h : (invalid sort).run c = (.error e, c'))
    (hk : c.current.kind = sort.kind) (hread : ¬ c.current.lexeme.Readable) :
    c.Fails Value.Derived Any limit d c' e := by
  simp only [invalid, run_current_bind, fail, Prod.mk.injEq, Except.error.injEq] at h
  obtain ⟨rfl, rfl⟩ := h
  have hsort : sort.kind ∈ kinds := by cases sort <;> decide
  obtain ⟨v, hv⟩ := derived_sample hsort
  refine ⟨[], rfl, .invalidLiteral hk hread ?_ ?_ (begins_self hv trivial)⟩
  · rw [Lexeme.kind_sample, hk]
  · exact Lexeme.readable_sample (by cases sort <;> decide)

theorem fails : Fails parser Value.Derived Any limit d := by
  intro c c' e h
  simp only [parser, run_current_bind] at h
  split at h
  · next hk => exact fails_of_accept hk trivial .star h
  · next hk =>
      unfold acceptFloat at h
      split at h
      · next x hx =>
          split at h
          · next hfin => exact fails_of_accept hk ⟨x, hx, hfin⟩ (.float hx) h
          · next hfin =>
              refine fails_of_invalid h hk ?_
              simp [Lexeme.Readable, Token.lexeme, hk, hx, hfin]
      · next hx =>
          refine fails_of_invalid h hk ?_
          simp [Lexeme.Readable, Token.lexeme, hk, hx]
  · next hk =>
      unfold acceptInt at h
      split at h
      · next n hn =>
          exact fails_of_accept hk ⟨n, hn⟩ (.int (Decimal.int64?_eq_some_iff.1 hn).2) h
      · next hn =>
          refine fails_of_invalid h hk ?_
          simp [Lexeme.Readable, Token.lexeme, hk, hn]
  · next hk => exact fails_of_accept hk trivial .string h
  · next hk => exact fails_of_accept hk trivial .trueWord h
  · next hk => exact fails_of_accept hk trivial .falseWord h
  · next hk => exact fails_of_accept hk trivial .ident h
  · obtain ⟨rfl, rfl⟩ := run_unexpected_eq_error.1 h
    exact ⟨[], rfl, .unexpected (by simp) (begins_nil derived_star trivial readable_star)⟩

end Value

namespace Field

theorem balanced : Balanced Field.Derived := fun _ _ h => (h.nested (d := 0)).opened_eq

theorem begins : Begins Field.Derived Any [] :=
  begins_nil (.value Value.derived_star) trivial readable_star

theorem fails : Fails parser Field.Derived Any limit d := by
  intro c c' e h
  rw [parser_run] at h
  split at h
  · next hk =>
      simp only [run_bind_eq_error, run_advance_eq_error, run_pure_ne_error, and_false,
        exists_false, or_false] at h
      obtain ⟨err, hn, rfl, rfl⟩ := h
      exact ⟨[], rfl, .lex hn (readable_of_keyword hk) (begins_self (.keyword hk) trivial)⟩
  · simp only [run_bind_eq_error, run_pure_ne_error, and_false, exists_false, or_false] at h
    apply (Value.fails h).within
    intro ts v hv
    exact ⟨[], .value v, .value (by simpa using hv), fun _ => trivial, by simp⟩

end Field

theorem Path.fails : Fails parser Path.Derived Any limit d := by
  have hpath : Fails parser Path.Derived (fun path => ∀ f ∈ path, True) limit d :=
    Field.fails.followed Field.recognizes Field.begins Field.balanced
  simpa using hpath

/-! ## From parentheses to filters -/

section

variable {α β : Type} {p : Parser α} {D : List Lexeme → α → Prop} {Q : α → Prop}
variable {E : List Lexeme → β → Prop} {R : β → Prop} {pre : List Lexeme}

theorem inParens_fails (hfail : Fails p D Q limit d)
    (hsound : ∀ ⦃c c' a⦄, p.run c = (.ok a, c') → ∃ ts, c.Passes ts c' ∧ D ts a ∧ Q a)
    (hbegins : Begins D Q []) :
    Fails (inParens p) (InParens D) Q limit (d + 1) := by
  intro c c' e h
  simp only [inParens, run_bind_eq_error, run_expect_eq_ok, run_pure_ne_error,
    and_false, exists_false, or_false] at h
  rcases h with h | ⟨_, c₁, ⟨hopen, rfl, hn₁⟩, h | ⟨a, c₂, ha, h⟩⟩
  · refine fails_of_expect h (Cursor.passes_nil.2 rfl) (by simp) (by simp) ?_
    obtain ⟨us, a, ha, hQ, hus⟩ := hbegins
    refine ⟨us ++ [⟨.closeParen, ")"⟩], a, .mk ha, hQ, ?_⟩
    exact List.forall_mem_append.2 ⟨hus, by simp [Lexeme.Readable]⟩
  · have hread : c.current.lexeme.Readable := by simp [Lexeme.Readable, Token.lexeme, hopen]
    apply (hfail h).after (Cursor.passes_next hn₁ hread)
    · intro ts a ha
      refine ⟨[⟨.closeParen, ")"⟩], a, ?_, id, by simp [Lexeme.Readable]⟩
      rw [Token.lexeme, hopen]
      exact .mk ha
    · rw [Token.lexeme, hopen, opened_openParen]
      omega
  · obtain ⟨ts, hts, hD, hQ⟩ := hsound ha
    have hpre : c.Passes (⟨.openParen, c.current.text⟩ :: ts) c₂ :=
      ⟨by rw [Token.lexeme, hopen], trivial, c₁, hn₁, hts⟩
    exact fails_of_expect h hpre (by simp) (by simp) (begins_self (.mk hD) hQ)

/-- Before an opening parenthesis the parser fails after the beginning of a phrase, or at once where
none may be opened. -/
def FailsAtParen (p : Parser α) (D : List Lexeme → α → Prop) (Q : α → Prop) (limit : Nat)
    (d : Int) : Prop :=
  ∀ ⦃c c' : Cursor⦄ ⦃e : ParseError⦄, c.current.kind = .openParen → p.run c = (.error e, c') →
    c.Fails D Q limit d c' e ∨ d = 0 ∧ .tooDeep limit c.current = e ∧ c = c'

theorem FailsAtParen.after {c₁ : Cursor} (hp : FailsAtParen p (InParens D) Q limit d)
    (hk : c₁.current.kind = .openParen) (h : p.run c₁ = (.error e, c')) (hpre : c.Passes pre c₁)
    (he : Embeds pre (InParens D) Q E R) (hopened : opened pre = 0) (hbegins : Begins E R pre)
    (hD : Begins D Any []) : c.Fails E R limit d c' e := by
  rcases hp hk h with h | ⟨rfl, rfl, rfl⟩
  · exact h.after hpre he (by rw [hopened, zero_add])
  · obtain ⟨us, a, ha, -, hus⟩ := hD
    have hparen : Begins (InParens D) Any [c₁.current.lexeme] := by
      refine ⟨us ++ [⟨.closeParen, ")"⟩], a, ?_, trivial, ?_⟩
      · rw [Token.lexeme, hk]
        exact .mk ha
      · exact List.forall_mem_append.2 ⟨hus, by simp [Lexeme.Readable]⟩
    exact ⟨pre, hpre, .tooDeep hk hopened hbegins (hparen.embed he.any)⟩

end

theorem Arg.begins {d : Nat} : Begins Derived (fun a => a.depth ≤ d) [] :=
  begins_nil (.comparable Comparable.derived_star) (Nat.zero_le d) readable_star

theorem Simple.begins {d : Nat} : Begins Derived (fun s => s.depth ≤ d) [] :=
  begins_nil (.test Comparable.derived_star) (Nat.zero_le d) readable_star

theorem Term.begins {d : Nat} : Begins Derived (fun t => t.depth ≤ d) [] :=
  begins_nil (.plain (.test Comparable.derived_star)) (Nat.zero_le d) readable_star

theorem Clause.begins {d : Nat} : Begins Clause.Derived (fun c => ∀ t ∈ c, t.depth ≤ d) [] :=
  begins_nil (.one (.plain (.test Comparable.derived_star)))
    (by simp [Term.depth, Simple.depth, Comparable.depth]) readable_star

theorem Filter.begins {d : Nat} : Begins Derived (fun f => depth f ≤ d) [] :=
  begins_nil (.one (.one (.plain (.test Comparable.derived_star)))) (Nat.zero_le d) readable_star

theorem Args.begins {d : Nat} : Begins Derived (fun as => depth as ≤ d) [] :=
  begins_nil .nil (Nat.zero_le d) (by simp)

section

-- What stands in parentheses is recognized and fails in its own phrases, up to `d` parentheses, as
-- an induction on `d` provides.
variable {d : Nat} {inner : Enclosed}
variable (hgroup : Recognizes inner.group (InParens Filter.Derived)
  (fun f => Filter.depth f + 1 ≤ d) [])
variable (hargs : Recognizes inner.args (InParens Args.Derived)
  (fun as => Args.depth as + 1 ≤ d) [])
variable (hgroup' : FailsAtParen inner.group (InParens Filter.Derived)
  (fun f => Filter.depth f + 1 ≤ d) limit d)
variable (hargs' : FailsAtParen inner.args (InParens Args.Derived)
  (fun as => Args.depth as + 1 ≤ d) limit d)

theorem Comparable.Derived.of_value {ts : List Lexeme} {v : Value} (hv : v.Derived ts) :
    Comparable.Derived ts (.plain v []) := by
  simpa using Comparable.Derived.plain hv .nil

include hargs' in
theorem Comparable.fails :
    Fails (parser inner) Comparable.Derived (fun x => x.depth ≤ d) limit d := by
  intro c c' e h
  simp only [parser, run_bind_eq_error, run_looksAt_bind] at h
  rcases h with h | ⟨v, c₁, hv, h | ⟨path, c₂, hpath, h⟩⟩
  · apply (Value.fails h).within
    intro ts v hv
    exact ⟨[], .plain v [], by simpa using .of_value hv, fun _ => Nat.zero_le d, by simp⟩
  · obtain ⟨ts, hts, hv, -⟩ := Value.recognizes.sound hv
    apply (Path.fails h).after hts
    · intro us path hpath
      exact ⟨[], .plain v path, .plain hv (by simpa using hpath), fun _ => Nat.zero_le d, by simp⟩
    · rw [Value.balanced hv, zero_add]
  · obtain ⟨ts, hts, hv, -⟩ := Value.recognizes.sound hv
    obtain ⟨us, hus, hpath, -⟩ := Path.recognizes.sound hpath
    split at h
    · next hopen =>
        simp only [run_bind_eq_error, run_pure_ne_error, and_false, exists_false, or_false] at h
        refine hargs'.after hopen h (Cursor.passes_append.2 ⟨c₁, hts, hus⟩) ?_ ?_ ?_
          (Args.begins (d := 0)).any
        · intro vs args hin
          exact ⟨[], .call v path args, .call hv hpath (by simpa using hin), id, by simp⟩
        · rw [opened_append, Value.balanced hv, (Path.nested (d := d) hpath).opened_eq, zero_add]
        · exact begins_self (.plain hv hpath) (Nat.zero_le d)
    · exact absurd h run_pure_ne_error

include hgroup' hargs' in
theorem Arg.fails : Fails (parser inner) Arg.Derived (fun a => a.depth ≤ d) limit d := by
  intro c c' e h
  simp only [parser, run_looksAt_bind] at h
  split at h
  · next hopen =>
      simp only [run_bind_eq_error, run_pure_ne_error, and_false, exists_false, or_false] at h
      refine hgroup'.after hopen h (Cursor.passes_nil.2 rfl) ?_ opened_nil Arg.begins
        (Filter.begins (d := 0)).any
      intro ts f hf
      exact ⟨[], .group f, .group (by simpa using hf), id, by simp⟩
  · simp only [run_bind_eq_error, run_pure_ne_error, and_false, exists_false, or_false] at h
    apply (Comparable.fails hargs' h).within
    intro ts x hx
    exact ⟨[], .comparable x, .comparable (by simpa using hx), id, by simp⟩

/-- Where the lexeme is a comparison by its kind, it is one by its text, or no lexeme of a text. -/
theorem Comparison.run_parser_eq_error (hk : c.current.kind = .comparison) :
    parser.run c = (.error e, c') ↔
      (∃ op : Comparison, op.symbol = c.current.text) ∧
        (∃ err, c.next = .error err ∧ .lex err = e ∧ c = c') ∨
      ¬ c.current.lexeme.Proper ∧ .unexpected .comparison c.current = e ∧ c = c' := by
  have hproper : c.current.lexeme.Proper ↔ ∃ op : Comparison, op.symbol = c.current.text := by
    simp [Lexeme.Proper, Token.lexeme, hk]
  simp only [parser, run_current_bind, hproper, ← ofSymbol?_eq_some_iff]
  split
  · next op hop =>
      simp only [run_bind_eq_error, run_advance_eq_error, run_pure_ne_error, hop]
      simp
  · next hop => simp [run_unexpected_eq_error, hop]

include hargs hgroup' hargs' in
theorem Simple.fails : Fails (parser inner) Simple.Derived (fun s => s.depth ≤ d) limit d := by
  intro c c' e h
  simp only [parser, run_looksAt_bind] at h
  split at h
  · next hopen =>
      simp only [run_bind_eq_error, run_pure_ne_error, and_false, exists_false, or_false] at h
      refine hgroup'.after hopen h (Cursor.passes_nil.2 rfl) ?_ opened_nil Simple.begins
        (Filter.begins (d := 0)).any
      intro ts f hf
      exact ⟨[], .group f, .group (by simpa using hf), id, by simp⟩
  · simp only [run_bind_eq_error, run_looksAt_bind] at h
    rcases h with h | ⟨x, c₁, hx, h⟩
    · apply (Comparable.fails hargs' h).within
      intro ts x hx
      exact ⟨[], .test x, .test (by simpa using hx), id, by simp⟩
    · obtain ⟨ts, hts, hx, hdepth⟩ := (Comparable.recognizes hargs).sound hx
      split at h
      · next hk =>
          have hread : c₁.current.lexeme.Readable :=
            Lexeme.readable_of_kind (by simp [Token.lexeme, hk])
          have hop {op : Comparison} (hop : op.symbol = c₁.current.text) :
              c₁.current.lexeme = ⟨.comparison, op.symbol⟩ := by rw [Token.lexeme, hk, hop]
          simp only [run_bind_eq_error, Comparison.run_parser_eq_error hk,
            Comparison.run_parser_eq_ok, run_pure_ne_error, and_false, exists_false, or_false] at h
          rcases h with (⟨⟨op, hsymbol⟩, err, hn, rfl, rfl⟩ | ⟨hproper, rfl, rfl⟩) |
            ⟨op, c₂, ⟨hsymbol, hn⟩, ha⟩
          · refine ⟨ts, hts, .lex hn hread ?_⟩
            rw [hop hsymbol]
            refine ⟨_, .compare x op (.comparable (.plain .wildcard [])), ?_, ?_, readable_star⟩
            · simpa using Simple.Derived.compare hx (.comparable Comparable.derived_star)
            · exact max_le hdepth (Nat.zero_le d)
          · exact ⟨ts, hts, .unexpected (fun _ => ⟨hk, hproper⟩) (begins_self (.test hx) hdepth)⟩
          · have hpre : c.Passes (ts ++ [c₁.current.lexeme]) c₂ :=
              Cursor.passes_append.2 ⟨c₁, hts, Cursor.passes_next hn hread⟩
            apply (Arg.fails hgroup' hargs' ha).after hpre
            · intro us a ha
              refine ⟨[], .compare x op a, ?_, max_le hdepth, by simp⟩
              rw [hop hsymbol]
              simpa using Simple.Derived.compare hx ha
            · rw [opened_append, (hx.nested).opened_eq, hop hsymbol, opened_of_kind (by simp)]
              simp
      · exact absurd h run_pure_ne_error

include hargs hgroup' hargs' in
theorem Term.fails : Fails (parser inner) Term.Derived (fun t => t.depth ≤ d) limit d := by
  intro c c' e h
  rw [parser_run] at h
  split at h
  · next hk =>
      have hparens : ∀ k ∈ negations, k ∉ [Kind.openParen, .closeParen] := by decide
      have hread : c.current.lexeme.Readable := readable_of_negation hk
      simp only [run_bind_eq_error, run_advance_eq_error, run_advance_eq_ok, run_pure_ne_error,
        and_false, exists_false, or_false] at h
      rcases h with ⟨err, hn, rfl, rfl⟩ | ⟨_, c₁, ⟨rfl, hn⟩, hs⟩
      · refine ⟨[], rfl, .lex hn hread ⟨_, .mk true (.test (.plain .wildcard [])), ?_, ?_,
          readable_star⟩⟩
        · exact .negated hk (.test Comparable.derived_star)
        · exact Nat.zero_le d
      · apply (Simple.fails hargs hgroup' hargs' hs).after (Cursor.passes_next hn hread)
        · intro ts s hs
          exact ⟨[], .mk true s, by simpa using .negated hk hs, id, by simp⟩
        · rw [opened_of_kind (hparens _ hk), zero_add]
  · simp only [run_bind_eq_error, run_pure_ne_error, and_false, exists_false, or_false] at h
    apply (Simple.fails hargs hgroup' hargs' h).within
    intro ts s hs
    exact ⟨[], .mk false s, .plain (by simpa using hs), id, by simp⟩

include hgroup hargs hgroup' hargs' in
theorem Filter.fails_within :
    Fails (parserWithin inner) Filter.Derived (fun f => Filter.depth f ≤ d) limit d := by
  have hterm := Term.recognizes hgroup hargs
  have hclause : Fails (Clause.parser inner) Clause.Derived (fun c => ∀ t ∈ c, t.depth ≤ d)
      limit d :=
    (Term.fails hargs hgroup' hargs').separated hterm Term.begins fun _ _ h => h.nested.opened_eq
  have hrecognizes : Recognizes (Clause.parser inner) Clause.Derived
      (fun c => ∀ t ∈ c, t.depth ≤ d) Clause.more := hterm.separated (by decide)
  simp only [Filter.depth_le_iff, Clause.depth_le_iff]
  exact hclause.separated hrecognizes Clause.begins
    fun _ _ h => (Clause.Derived.nested h).opened_eq

include hgroup hargs hgroup' hargs' in
theorem Args.fails :
    Fails (parser inner) Args.Derived (fun as => Args.depth as ≤ d) limit d := by
  have harg := Arg.recognizes hgroup hargs
  have hseries : Fails (separated .comma (Arg.parser inner)) (Separated .comma Arg.Derived)
      (fun as => ∀ a ∈ as, a.depth ≤ d) limit d :=
    (Arg.fails hgroup' hargs').separated harg Arg.begins fun _ _ h => h.nested.opened_eq
  simp only [Args.depth_le_iff]
  intro c c' e h
  rw [parser, run_looksAt_bind] at h
  split at h
  · exact absurd h run_pure_ne_error
  · apply (hseries h).within
    intro ts as has
    exact ⟨[], as, .some (by simpa using has), id, by simp⟩

include hgroup hargs in
theorem Args.parser_sound {as : List Arg} (h : (parser inner).run c = (.ok as, c')) :
    ∃ ts, c.Passes ts c' ∧ Args.Derived ts as ∧ Args.depth as ≤ d := by
  rw [parser, run_looksAt_bind] at h
  split at h
  · obtain ⟨rfl, rfl⟩ := run_pure_eq_ok.1 h
    exact ⟨[], rfl, .nil, Nat.zero_le d⟩
  · have hseries : Recognizes (separated .comma (Arg.parser inner)) (Separated .comma Arg.Derived)
        (fun as => ∀ a ∈ as, a.depth ≤ d) Args.more :=
      (Arg.recognizes hgroup hargs).separated (by decide)
    obtain ⟨ts, hts, has, hdepth⟩ := hseries.sound h
    exact ⟨ts, hts, .some has, Args.depth_le_iff.2 hdepth⟩

end

theorem Filter.fails_enclosed (d : Nat) :
    FailsAtParen (enclosed d).group (InParens Filter.Derived) (fun f => Filter.depth f + 1 ≤ d)
        maxDepth d ∧
      FailsAtParen (enclosed d).args (InParens Args.Derived) (fun as => Args.depth as + 1 ≤ d)
        maxDepth d := by
  -- As for what is recognized, each parenthesis leaves one less to open.
  induction d with
  | zero =>
      have hdeep {α : Type} {c c' : Cursor} {e : ParseError}
          (h : (tooDeep : Parser α).run c = (.error e, c')) :
          .tooDeep maxDepth c.current = e ∧ c = c' := by simpa [tooDeep, fail] using h
      exact ⟨fun _ _ _ _ h => .inr ⟨rfl, hdeep h⟩, fun _ _ _ _ h => .inr ⟨rfl, hdeep h⟩⟩
  | succ d ih =>
      obtain ⟨hgroup, hargs⟩ := recognizes_enclosed d
      simp only [Nat.add_le_add_iff_right]
      have hfilter := inParens_fails (fails_within hgroup hargs ih.1 ih.2)
        (fun _ _ _ h => (recognizes_within hgroup hargs).sound h) Filter.begins
      have hargs := inParens_fails (Args.fails hgroup hargs ih.1 ih.2)
        (fun _ _ _ h => Args.parser_sound hgroup hargs h) Args.begins
      exact ⟨fun _ _ _ _ h => .inl (hfilter h), fun _ _ _ _ h => .inl (hargs h)⟩

/-- Where no filter is read, the beginning of one has been, and what is next does not go on with it
or opens a parenthesis too many. -/
theorem Filter.fails :
    Fails parser Filter.Derived (fun f => Filter.depth f ≤ maxDepth) maxDepth maxDepth :=
  fails_within (recognizes_enclosed maxDepth).1 (recognizes_enclosed maxDepth).2
    (fails_enclosed maxDepth).1 (fails_enclosed maxDepth).2

end Sift
