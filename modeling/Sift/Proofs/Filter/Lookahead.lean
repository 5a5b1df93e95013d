import Sift.Proofs.Filter.Failure

/-!
# The parser of filters looks at kinds

Where a token is unexpected, no sentence goes on with its kind: a parser that may open more
parentheses would read the sentence up to the same place, and find the same fault there.
-/

namespace Sift

open Sift.Parser

variable {c c' d : Cursor} {e : ParseError}

/-! ## Values and paths -/

namespace Value

theorem not_syntactic_of_accept {v : Value} (h : (accept v).run c = (.error e, c')) :
    ¬ e.Syntactic := by
  simp only [accept, run_bind_eq_error, run_advance_eq_error, run_pure_ne_error, and_false,
    exists_false, or_false] at h
  obtain ⟨err, -, rfl, -⟩ := h
  exact id

theorem not_syntactic_of_invalid {sort : NumberKind} (h : (invalid sort).run c = (.error e, c')) :
    ¬ e.Syntactic := by
  simp only [invalid, run_current_bind, fail, Prod.mk.injEq, Except.error.injEq] at h
  obtain ⟨rfl, -⟩ := h
  exact id

/-- A token that has the kind of a value is refused for its text, or for what follows. -/
theorem not_mem_kinds_of_syntactic (h : parser.run c = (.error e, c')) (he : e.Syntactic) :
    c.current.kind ∉ kinds := by
  simp only [parser, run_current_bind] at h
  split at h
  · exact absurd he (not_syntactic_of_accept h)
  · unfold acceptFloat at h
    split at h
    · split at h
      · exact absurd he (not_syntactic_of_accept h)
      · exact absurd he (not_syntactic_of_invalid h)
    · exact absurd he (not_syntactic_of_invalid h)
  · unfold acceptInt at h
    split at h
    · exact absurd he (not_syntactic_of_accept h)
    · exact absurd he (not_syntactic_of_invalid h)
  · exact absurd he (not_syntactic_of_accept h)
  · exact absurd he (not_syntactic_of_accept h)
  · exact absurd he (not_syntactic_of_accept h)
  · exact absurd he (not_syntactic_of_accept h)
  · simp_all [kinds]

theorem run_parser_of_not_mem (hk : c.current.kind ∉ kinds) :
    parser.run c = (.error (.unexpected .value c.current), c) := by
  simp only [kinds, List.mem_cons, List.not_mem_nil, or_false, not_or] at hk
  simp only [parser, run_current_bind]
  split <;> simp_all [unexpected, fail]

theorem mimics : Mimics parser parser := by
  intro c
  constructor
  · intro v c' stop d h hstop hd
    obtain ⟨ts, hts, hv, -⟩ := parser_sound h
    obtain ⟨w, rfl, hw⟩ := hv.exists_lexeme
    obtain ⟨rfl, hread, _, hn, rfl⟩ := hts
    obtain ⟨d₁, hpass, hd₁⟩ := hd.advance hread.kind_ne_eof hn hstop
    obtain ⟨v', hv'⟩ := derived_sample hw
    exact ⟨v', d₁, parser_complete hv' hpass, hd₁⟩
  · intro e c' d h he hd
    have hk := not_mem_kinds_of_syntactic h he
    exact ⟨_, _, run_parser_of_not_mem (hd.kind_eq ▸ hk)⟩

end Value

theorem Field.mimics : Mimics parser parser := by
  intro c
  apply MimicsAt.branch parser_run parser_run
  · intro hk
    have hread : c.current.lexeme.Readable := readable_of_keyword hk
    exact (MimicsAt.advance hread.kind_ne_eof).map
  · intro _
    exact (Value.mimics c).map

theorem Path.mimics : Mimics parser parser := Field.mimics.followed

/-! ## From parentheses to filters -/

theorem inParens_mimics {α β : Type} {p : Parser α} {q : Parser β} (h : Mimics p q) :
    Mimics (inParens p) (inParens q) := by
  intro c
  apply (Mimics.expect (by simp) c).bind
  intro _ _ c₁ _
  apply (h c₁).bind
  intro _ _ c₂ _
  exact (Mimics.expect (by simp) c₂).bind fun _ _ _ _ => .pure

/-- Before a lexeme that is a comparison by its kind. -/
theorem Comparison.mimics (hk : c.current.kind = .comparison) : MimicsAt c parser parser where
  ok op c' stop d h hstop hd := by
    obtain ⟨-, hn⟩ := run_parser_eq_ok.1 h
    obtain ⟨d₁, ⟨hw, -, _, hnd, rfl⟩, hd₁⟩ := hd.advance (by simp [hk]) hn hstop
    rw [hk] at hw
    exact ⟨.eq, _, run_parser_eq_ok.2 ⟨(congrArg Lexeme.text hw).symm, hnd⟩, hd₁⟩
  error e c' d h he _ := by
    rcases (run_parser_eq_error hk).1 h with ⟨-, err, -, rfl, -⟩ | ⟨-, rfl, -⟩
    · exact he.elim
    · exact absurd rfl he

section

variable {inner inner' : Enclosed}
variable (hgroup : Mimics inner.group inner'.group) (hargs : Mimics inner.args inner'.args)

include hargs in
theorem Comparable.mimics : Mimics (parser inner) (parser inner') := by
  intro c
  apply (Value.mimics c).bind
  intro _ _ c₁ _
  apply (Path.mimics c₁).bind
  intro _ _ c₂ _
  exact .looksAt (fun _ => (hargs c₂).map) fun _ => .pure

include hgroup hargs in
theorem Arg.mimics : Mimics (parser inner) (parser inner') :=
  fun c => .looksAt (fun _ => (hgroup c).map) fun _ => (Comparable.mimics hargs c).map

include hgroup hargs in
theorem Args.mimics : Mimics (parser inner) (parser inner') :=
  fun c => .looksAt (fun _ => .pure) fun _ => (Arg.mimics hgroup hargs).separated c

include hgroup hargs in
theorem Simple.mimics : Mimics (parser inner) (parser inner') := by
  intro c
  apply MimicsAt.looksAt
  · intro _
    exact (hgroup c).map
  · intro _
    apply (Comparable.mimics hargs c).bind
    intro _ _ c₁ _
    apply MimicsAt.looksAt
    · intro hk
      apply (Comparison.mimics hk).bind
      intro _ _ c₂ _
      exact (Arg.mimics hgroup hargs c₂).map
    · intro _
      exact .pure

include hgroup hargs in
theorem Term.mimics : Mimics (parser inner) (parser inner') := by
  intro c
  apply MimicsAt.branch parser_run parser_run
  · intro hk
    have hread : c.current.lexeme.Readable := readable_of_negation hk
    apply (MimicsAt.advance hread.kind_ne_eof).bind
    intro _ _ c₁ _
    exact (Simple.mimics hgroup hargs c₁).map
  · intro _
    exact (Simple.mimics hgroup hargs c).map

include hgroup hargs in
theorem Filter.mimics_within : Mimics (parserWithin inner) (parserWithin inner') :=
  ((Term.mimics hgroup hargs).separated).separated

end

namespace Filter

theorem mimics_tooDeep {α β : Type} {p : Parser β} : Mimics (tooDeep : Parser α) p := by
  intro c
  constructor
  · intro a c' stop d h
    simp [tooDeep] at h
  · intro e c' d h he
    simp only [tooDeep, run_current_bind, fail, Prod.mk.injEq, Except.error.injEq] at h
    obtain ⟨rfl, -⟩ := h
    exact he.elim

/-- Who may open more parentheses reads at least as far. -/
theorem mimics_enclosed {m n : Nat} (h : m ≤ n) :
    Mimics (enclosed m).group (enclosed n).group ∧ Mimics (enclosed m).args (enclosed n).args := by
  induction m generalizing n with
  | zero => exact ⟨mimics_tooDeep, mimics_tooDeep⟩
  | succ m ih =>
      cases n with
      | zero => exact absurd h (Nat.not_succ_le_zero m)
      | succ n =>
          obtain ⟨hgroup, hargs⟩ := ih (Nat.le_of_succ_le_succ h)
          exact ⟨inParens_mimics (mimics_within hgroup hargs),
            inParens_mimics (Args.mimics hgroup hargs)⟩

theorem mimics {n : Nat} (h : maxDepth ≤ n) : Mimics parser (parserWithin (enclosed n)) :=
  mimics_within (mimics_enclosed h).1 (mimics_enclosed h).2

/-! ## Unexpected tokens -/

/-- The parser that may open enough parentheses reads each sentence, in samples. -/
theorem Sentence.exists_run {ks : List Kind} (h : Sentence ks) :
    ∃ n d d' f, maxDepth ≤ n ∧ d.Passes (ks.map Lexeme.sample) d' ∧ d'.current.kind = .eof ∧
      (parserWithin (enclosed n)).run d = (.ok f, d') := by
  obtain ⟨⟨f, hf⟩, hread⟩ := h.exists_derived
  let n := max maxDepth (depth f)
  have hrecognizes := recognizes_within (recognizes_enclosed n).1 (recognizes_enclosed n).2
  let ts : List Token := (ks.map Lexeme.sample).map fun w => ⟨w.kind, w.text, ⟨0, 0⟩, .start⟩
  have hts : ts.map Token.lexeme = ks.map Lexeme.sample := by
    rw [List.map_map]
    exact List.map_id _
  have hread : ∀ t ∈ ts, t.lexeme.Readable := fun t ht =>
    hread _ (hts ▸ List.mem_map_of_mem ht)
  obtain ⟨d, -, hd⟩ := Cursor.passes_of_stream .start hread
  rw [hts] at hd
  exact ⟨n, d, _, f, le_max_left _ _, hd, rfl,
    hrecognizes.complete hf (le_max_right _ _) hd (by decide)⟩

/-- Where a kind goes on with a sentence, there is one to be read up to a token of that kind. -/
theorem Continues.exists_run {ks : List Kind} {k : Kind} (h : Continues ks k) :
    ∃ n d d₁ d' f, maxDepth ≤ n ∧ d.Passes (ks.map Lexeme.sample) d₁ ∧ d₁.current.kind = k ∧
      d'.current.kind = .eof ∧ (parserWithin (enclosed n)).run d = (.ok f, d') := by
  unfold Continues at h
  split at h
  · next hk =>
      obtain ⟨n, d, d', f, hn, hd, hend, hrun⟩ := h.exists_run
      exact ⟨n, d, d', d', f, hn, hd, hend.trans hk.symm, hend, hrun⟩
  · obtain ⟨more, h⟩ := h
    obtain ⟨n, d, d', f, hn, hd, hend, hrun⟩ := h.exists_run
    rw [List.map_append, Cursor.passes_append] at hd
    obtain ⟨d₁, hd, hmore⟩ := hd
    have hk : d₁.current.kind = k := (congrArg Lexeme.kind hmore.1).trans (Lexeme.kind_sample k)
    exact ⟨n, d, d₁, d', f, hn, hd, hk, hend, hrun⟩

/-- Where the parser finds a token unexpected, no sentence goes on with its kind. -/
theorem not_continues_of_syntactic {ts : List Lexeme} (h : (whole parser).run c = (.error e, c'))
    (he : e.Syntactic) (hts : c.Passes ts c') :
    ¬ Continues (ts.map Lexeme.kind) c'.current.kind := by
  intro hcontinues
  obtain ⟨n, d, d₁, d', f, hn, hd, hk, hend, hrun⟩ := hcontinues.exists_run
  have hd : d.Passes (ts.map fun w => .sample w.kind) d₁ := by
    rwa [List.map_map] at hd
  have halike : Alike c' c d := alike_of_passes hts hd hk.symm
  simp only [whole, run_bind_eq_error, run_pure_ne_error, and_false, exists_false, or_false] at h
  rcases h with h | ⟨g, c₁, hg, h⟩
  · obtain ⟨e', d'', herror⟩ := (mimics hn c).error h he halike
    rw [hrun] at herror
    cases herror
  · rcases run_expect_eq_error.1 h with ⟨-, err, -, rfl, -⟩ | ⟨hne, -, rfl⟩
    · exact he.elim
    · obtain ⟨g', d'', hok, halike⟩ := (mimics hn c).ok hg (Nat.le_refl _) halike
      rw [hrun] at hok
      cases hok
      exact hne (halike.kind_eq.trans hend)

end Filter

end Sift
