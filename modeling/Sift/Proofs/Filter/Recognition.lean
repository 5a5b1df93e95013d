import Sift.Filter.Parser
import Sift.Proofs.Filter.Unambiguous
import Sift.Proofs.Parse.Recognition

/-!
# The parser of filters recognizes the grammar

Each parser recognizes its part of the grammar, for trees that open no more parentheses than the
parser may.
-/

namespace Sift

open Sift.Parser

variable {c c' : Cursor}

/-! ## Values and paths -/

namespace Value

theorem run_accept_eq_ok {v w : Value} :
    (accept v).run c = (.ok w, c') ↔ v = w ∧ c.next = .ok c' := by
  simp only [accept, run_bind_eq_ok, run_advance_eq_ok, run_pure_eq_ok]
  constructor
  · rintro ⟨_, _, ⟨rfl, hn⟩, rfl, rfl⟩
    exact ⟨rfl, hn⟩
  · rintro ⟨rfl, hn⟩
    exact ⟨_, c', ⟨rfl, hn⟩, rfl, rfl⟩

theorem run_invalid_ne_ok {kind : NumberKind} {v : Value} :
    (invalid kind).run c ≠ (.ok v, c') := by
  simp [invalid]

theorem run_acceptInt_eq_ok {t : Token} {v : Value} :
    (acceptInt t).run c = (.ok v, c') ↔
      ∃ n, Decimal.int64? t.text.toList = some n ∧ .int n = v ∧ c.next = .ok c' := by
  unfold acceptInt
  split
  · next n hn => simp [run_accept_eq_ok, hn]
  · next hn => simp [run_invalid_ne_ok, hn]

theorem run_acceptFloat_eq_ok {t : Token} {v : Value} :
    (acceptFloat t).run c = (.ok v, c') ↔
      ∃ x, Decimal.binary64? t.text.toList = some x ∧ x.isFinite = true ∧ .float x = v ∧
        c.next = .ok c' := by
  unfold acceptFloat
  split
  · next x hx =>
      split
      · next hfin => simp [run_accept_eq_ok, hx, hfin]
      · next hfin => simp [run_invalid_ne_ok, hx, hfin]
  · next hx => simp [run_invalid_ne_ok, hx]

theorem derived_of_next {k : Kind} {v : Value} (hk : c.current.kind = k) (hn : c.next = .ok c')
    (hread : Lexeme.Readable ⟨k, c.current.text⟩) (hv : v.Derived [⟨k, c.current.text⟩]) :
    ∃ ts, c.Passes ts c' ∧ v.Derived ts ∧ True := by
  subst hk
  exact ⟨_, Cursor.passes_next hn hread, hv, trivial⟩

theorem parser_sound {v : Value} (h : parser.run c = (.ok v, c')) :
    ∃ ts, c.Passes ts c' ∧ v.Derived ts ∧ True := by
  simp only [parser, run_current_bind] at h
  split at h
  · next hk =>
      obtain ⟨rfl, hn⟩ := run_accept_eq_ok.1 h
      exact derived_of_next hk hn trivial .star
  · next hk =>
      obtain ⟨x, hx, hfin, rfl, hn⟩ := run_acceptFloat_eq_ok.1 h
      exact derived_of_next hk hn ⟨x, hx, hfin⟩ (.float hx)
  · next hk =>
      obtain ⟨n, hint, rfl, hn⟩ := run_acceptInt_eq_ok.1 h
      exact derived_of_next hk hn ⟨n, hint⟩ (.int (Decimal.int64?_eq_some_iff.1 hint).2)
  · next hk =>
      obtain ⟨rfl, hn⟩ := run_accept_eq_ok.1 h
      exact derived_of_next hk hn trivial .string
  · next hk =>
      obtain ⟨rfl, hn⟩ := run_accept_eq_ok.1 h
      exact derived_of_next hk hn trivial .trueWord
  · next hk =>
      obtain ⟨rfl, hn⟩ := run_accept_eq_ok.1 h
      exact derived_of_next hk hn trivial .falseWord
  · next hk =>
      obtain ⟨rfl, hn⟩ := run_accept_eq_ok.1 h
      exact derived_of_next hk hn trivial .ident
  · exact absurd h run_unexpected_ne_ok

theorem parser_complete {v : Value} {ts : List Lexeme} (h : v.Derived ts) (hts : c.Passes ts c') :
    parser.run c = (.ok v, c') := by
  obtain ⟨w, rfl, -⟩ := h.exists_lexeme
  obtain ⟨rfl, hread, _, hn, rfl⟩ := hts
  generalize hw : c.current.lexeme = w at h hread
  have hkind := congrArg Lexeme.kind hw
  have htext := congrArg Lexeme.text hw
  simp only [Token.lexeme] at hkind htext
  cases h with
  | int hint =>
      obtain ⟨m, hm⟩ := hread
      obtain rfl := Int64.toInt_inj.1 (hint.trans (Decimal.int64?_eq_some_iff.1 hm).2.symm)
      simp only [parser, run_current_bind, hkind]
      exact run_acceptInt_eq_ok.2 ⟨_, by rw [htext, hm], rfl, hn⟩
  | float hx =>
      obtain ⟨y, hy, hfin⟩ := hread
      obtain rfl := Option.some.inj (hx.symm.trans hy)
      simp only [parser, run_current_bind, hkind]
      exact run_acceptFloat_eq_ok.2 ⟨_, by rw [htext, hx], hfin, rfl, hn⟩
  | string | ident =>
      simp only [parser, run_current_bind, hkind, htext]
      exact run_accept_eq_ok.2 ⟨rfl, hn⟩
  | star | trueWord | falseWord =>
      simp only [parser, run_current_bind, hkind]
      exact run_accept_eq_ok.2 ⟨rfl, hn⟩

theorem recognizes : Recognizes parser Value.Derived (fun _ => True) [] where
  sound _ _ _ h := parser_sound h
  complete _ _ _ _ h _ hts _ := parser_complete h hts

end Value

namespace Field

theorem parser_run (c : Cursor) :
    parser.run c =
      if c.current.kind ∈ keywords then
        (do return .keyword (← advance).text : Parser Field).run c
      else (do return .value (← Value.parser) : Parser Field).run c := by
  simp only [parser, run_current_bind]
  split <;> simp_all [keywords]

theorem parser_sound {f : Field} (h : parser.run c = (.ok f, c')) :
    ∃ ts, c.Passes ts c' ∧ f.Derived ts ∧ True := by
  rw [parser_run] at h
  split at h
  · next hk =>
      simp only [run_bind_eq_ok, run_advance_eq_ok, run_pure_eq_ok] at h
      obtain ⟨_, _, ⟨rfl, hn⟩, rfl, rfl⟩ := h
      have hkinds : ∀ k ∈ keywords, k ∉ [Kind.eof, .int, .float] := by decide
      have hread : c.current.lexeme.Readable := Lexeme.readable_of_kind (hkinds _ hk)
      exact ⟨_, Cursor.passes_next hn hread, .keyword hk, trivial⟩
  · simp only [run_bind_eq_ok, run_pure_eq_ok] at h
    obtain ⟨v, _, hv, rfl, rfl⟩ := h
    obtain ⟨ts, hts, hD, -⟩ := Value.parser_sound hv
    exact ⟨ts, hts, .value hD, trivial⟩

theorem parser_complete {f : Field} {ts : List Lexeme} (h : f.Derived ts)
    (hts : c.Passes ts c') : parser.run c = (.ok f, c') := by
  rw [parser_run]
  cases h with
  | value hv =>
      have hrun := Value.parser_complete hv hts
      obtain ⟨⟨k, x⟩, rfl, -⟩ := hv.exists_lexeme
      have hk : c.current.kind = k := congrArg Lexeme.kind hts.1
      rw [if_neg (hk ▸ hv.not_keyword)]
      simp only [run_bind_eq_ok, run_pure_eq_ok]
      exact ⟨_, c', hrun, rfl, rfl⟩
  | @keyword k x hk =>
      obtain ⟨hw, -, _, hn, rfl⟩ := hts
      have hkind : c.current.kind = k := congrArg Lexeme.kind hw
      have htext : c.current.text = x := congrArg Lexeme.text hw
      rw [if_pos (hkind ▸ hk)]
      simp only [run_bind_eq_ok, run_advance_eq_ok, run_pure_eq_ok]
      exact ⟨_, _, ⟨rfl, hn⟩, by rw [htext], rfl⟩

theorem recognizes : Recognizes parser Field.Derived (fun _ => True) [] where
  sound _ _ _ h := parser_sound h
  complete _ _ _ _ h _ hts _ := parser_complete h hts

end Field

theorem Path.recognizes : Recognizes parser Path.Derived (fun _ => True) [.dot] := by
  have hpath : Recognizes parser Path.Derived (fun path => ∀ f ∈ path, True) [.dot] :=
    Field.recognizes.followed List.not_mem_nil
  simpa using hpath

/-! ## From parentheses to filters -/

/-- What stands in parentheses need only be read up to a closing one. -/
theorem inParens_recognizes {α : Type} {p : Parser α} {D : List Lexeme → α → Prop} {Q : α → Prop}
    (sound : ∀ {c c' a}, p.run c = (.ok a, c') → ∃ ts, c.Passes ts c' ∧ D ts a ∧ Q a)
    (complete : ∀ {c c' ts a}, D ts a → Q a → c.Passes ts c' → c'.current.kind = .closeParen →
      p.run c = (.ok a, c')) :
    Recognizes (inParens p) (InParens D) Q [] where
  sound c c' a h := by
    simp only [inParens, run_bind_eq_ok, run_expect_eq_ok, run_pure_eq_ok] at h
    obtain ⟨_, c₁, ⟨ho, rfl, hn₁⟩, a, c₂, ha, _, c₃, ⟨hc, rfl, hn₃⟩, rfl, rfl⟩ := h
    obtain ⟨ts, hts, hD, hQ⟩ := sound ha
    refine ⟨⟨.openParen, c.current.text⟩ :: (ts ++ [⟨.closeParen, c₂.current.text⟩]), ?_,
      .mk hD, hQ⟩
    simp only [Cursor.passes_cons, Cursor.passes_append, Cursor.passes_nil]
    exact ⟨by rw [Token.lexeme, ho], trivial, c₁, hn₁, c₂, hts, by rw [Token.lexeme, hc],
      trivial, _, hn₃, rfl⟩
  complete c c' ts a h hQ hts _ := by
    obtain ⟨hD⟩ := h
    simp only [Cursor.passes_cons, Cursor.passes_append, Cursor.passes_nil] at hts
    obtain ⟨ho, -, c₁, hn₁, c₂, hts, hc, -, _, hn₃, rfl⟩ := hts
    have hopen : c.current.kind = .openParen := congrArg Lexeme.kind ho
    have hclose : c₂.current.kind = .closeParen := congrArg Lexeme.kind hc
    have ha := complete hD hQ hts hclose
    simp only [inParens, run_bind_eq_ok, run_expect_eq_ok, run_pure_eq_ok]
    exact ⟨_, c₁, ⟨hopen, rfl, hn₁⟩, a, c₂, ha, _, _, ⟨hclose, rfl, hn₃⟩, rfl, rfl⟩

theorem Starts.current {α : Type} {D : List Lexeme → α → Prop} {first : List Kind} {a : α}
    {ts : List Lexeme} (h : Starts D first) (ha : D ts a) (hts : c.Passes ts c') :
    c.current.kind ∈ first := by
  obtain ⟨w, r, rfl, hw⟩ := h ha
  rwa [show c.current.kind = w.kind from congrArg Lexeme.kind hts.1]

theorem InParens.current {α : Type} {D : List Lexeme → α → Prop} {a : α} {ts : List Lexeme}
    (h : InParens D ts a) (hts : c.Passes ts c') : c.current.kind = .openParen :=
  List.mem_singleton.1 (Starts.inParens.current h hts)

theorem Comparable.Derived.current {x : Comparable} {ts : List Lexeme} (h : x.Derived ts)
    (hts : c.Passes ts c') : c.current.kind ≠ .openParen := by
  intro hopen
  have := Comparable.starts.current h hts
  simp [hopen, Value.kinds] at this

section

-- What stands in parentheses is recognized, up to `d` parentheses, as an induction on `d` provides.
variable {d : Nat} {inner : Enclosed}
variable (hgroup : Recognizes inner.group (InParens Filter.Derived)
  (fun f => Filter.depth f + 1 ≤ d) [])
variable (hargs : Recognizes inner.args (InParens Args.Derived)
  (fun as => Args.depth as + 1 ≤ d) [])

include hargs in
theorem Comparable.recognizes :
    Recognizes (parser inner) Comparable.Derived (fun c => c.depth ≤ d) Comparable.more where
  sound c c' a h := by
    simp only [parser, run_bind_eq_ok, run_looksAt_bind] at h
    obtain ⟨v, c₁, hv, path, c₂, hpath, h⟩ := h
    obtain ⟨ts, hts, hv, -⟩ := Value.recognizes.sound hv
    obtain ⟨us, hus, hpath, -⟩ := Path.recognizes.sound hpath
    split at h
    · simp only [run_bind_eq_ok, run_pure_eq_ok] at h
      obtain ⟨args, c₃, hin, rfl, rfl⟩ := h
      obtain ⟨vs, hvs, hin, hdepth⟩ := hargs.sound hin
      refine ⟨ts ++ us ++ vs, ?_, .call hv hpath hin, hdepth⟩
      simp only [Cursor.passes_append]
      exact ⟨c₂, ⟨c₁, hts, hus⟩, hvs⟩
    · obtain ⟨rfl, rfl⟩ := run_pure_eq_ok.1 h
      exact ⟨ts ++ us, Cursor.passes_append.2 ⟨c₁, hts, hus⟩, .plain hv hpath, Nat.zero_le d⟩
  complete c c' ts a h hQ hts hc' := by
    simp only [more, List.mem_cons, List.not_mem_nil, or_false, not_or] at hc'
    simp only [parser, run_bind_eq_ok, run_looksAt_bind]
    cases h with
    | plain hv hpath =>
        obtain ⟨c₁, hts, hus⟩ := Cursor.passes_append.1 hts
        have hv := Value.recognizes.complete hv trivial hts List.not_mem_nil
        have hpath := Path.recognizes.complete hpath trivial hus (by simp [hc'.1])
        refine ⟨_, c₁, hv, _, c', hpath, ?_⟩
        simp [hc'.2]
    | call hv hpath hin =>
        simp only [Cursor.passes_append] at hts
        obtain ⟨c₂, ⟨c₁, hts, hus⟩, hvs⟩ := hts
        have hopen := hin.current hvs
        have hv := Value.recognizes.complete hv trivial hts List.not_mem_nil
        have hpath := Path.recognizes.complete hpath trivial hus (by simp [hopen])
        have hin := hargs.complete hin hQ hvs List.not_mem_nil
        refine ⟨_, c₁, hv, _, c₂, hpath, ?_⟩
        rw [if_pos hopen, run_bind_eq_ok]
        exact ⟨_, c', hin, rfl⟩

include hgroup hargs in
theorem Arg.recognizes :
    Recognizes (parser inner) Arg.Derived (fun a => a.depth ≤ d) Comparable.more where
  sound c c' a h := by
    simp only [parser, run_looksAt_bind] at h
    split at h
    · simp only [run_bind_eq_ok, run_pure_eq_ok] at h
      obtain ⟨f, _, hf, rfl, rfl⟩ := h
      obtain ⟨ts, hts, hf, hdepth⟩ := hgroup.sound hf
      exact ⟨ts, hts, .group hf, hdepth⟩
    · simp only [run_bind_eq_ok, run_pure_eq_ok] at h
      obtain ⟨x, _, hx, rfl, rfl⟩ := h
      obtain ⟨ts, hts, hx, hdepth⟩ := (Comparable.recognizes hargs).sound hx
      exact ⟨ts, hts, .comparable hx, hdepth⟩
  complete c c' ts a h hQ hts hc' := by
    rw [parser, run_looksAt_bind]
    cases h with
    | group hf =>
        rw [if_pos (hf.current hts), run_bind_eq_ok]
        exact ⟨_, c', hgroup.complete hf hQ hts List.not_mem_nil, rfl⟩
    | comparable hx =>
        rw [if_neg (hx.current hts), run_bind_eq_ok]
        exact ⟨_, c', (Comparable.recognizes hargs).complete hx hQ hts hc', rfl⟩

theorem Comparison.run_parser_eq_ok {op : Comparison} :
    parser.run c = (.ok op, c') ↔ op.symbol = c.current.text ∧ c.next = .ok c' := by
  simp only [parser, run_current_bind, ← ofSymbol?_eq_some_iff]
  split
  · next op' hop =>
      simp only [run_bind_eq_ok, run_advance_eq_ok, run_pure_eq_ok, hop, Option.some.injEq]
      constructor
      · rintro ⟨_, _, ⟨rfl, hn⟩, rfl, rfl⟩
        exact ⟨rfl, hn⟩
      · rintro ⟨rfl, hn⟩
        exact ⟨_, c', ⟨rfl, hn⟩, rfl, rfl⟩
  · next hop => simp [hop]

include hgroup hargs in
theorem Simple.recognizes :
    Recognizes (parser inner) Simple.Derived (fun s => s.depth ≤ d) Simple.more where
  sound c c' s h := by
    simp only [parser, run_looksAt_bind] at h
    split at h
    · simp only [run_bind_eq_ok, run_pure_eq_ok] at h
      obtain ⟨f, _, hf, rfl, rfl⟩ := h
      obtain ⟨ts, hts, hf, hdepth⟩ := hgroup.sound hf
      exact ⟨ts, hts, .group hf, hdepth⟩
    · simp only [run_bind_eq_ok, run_looksAt_bind] at h
      obtain ⟨x, c₁, hx, h⟩ := h
      obtain ⟨ts, hts, hx, hdepth⟩ := (Comparable.recognizes hargs).sound hx
      split at h
      · next hk =>
          simp only [run_bind_eq_ok, Comparison.run_parser_eq_ok, run_pure_eq_ok] at h
          obtain ⟨op, c₂, ⟨hop, hn⟩, a, _, ha, rfl, rfl⟩ := h
          obtain ⟨us, hus, ha, hdepth'⟩ := (Arg.recognizes hgroup hargs).sound ha
          refine ⟨ts ++ ⟨.comparison, op.symbol⟩ :: us, ?_, .compare hx ha, max_le hdepth hdepth'⟩
          simp only [Cursor.passes_append, Cursor.passes_cons]
          exact ⟨c₁, hts, by rw [Token.lexeme, hk, hop], trivial, c₂, hn, hus⟩
      · obtain ⟨rfl, rfl⟩ := run_pure_eq_ok.1 h
        exact ⟨ts, hts, .test hx, hdepth⟩
  complete c c' ts s h hQ hts hc' := by
    have hmore : c'.current.kind ∉ Comparable.more := List.not_mem_of_not_mem_cons hc'
    rw [parser, run_looksAt_bind]
    cases h with
    | group hf =>
        rw [if_pos (hf.current hts), run_bind_eq_ok]
        exact ⟨_, c', hgroup.complete hf hQ hts List.not_mem_nil, rfl⟩
    | test hx =>
        have hrun := (Comparable.recognizes hargs).complete hx hQ hts hmore
        rw [if_neg (hx.current hts), run_bind_eq_ok]
        refine ⟨_, c', hrun, ?_⟩
        rw [run_looksAt_bind, if_neg (List.ne_of_not_mem_cons hc')]
        rfl
    | compare hx ha =>
        simp only [Cursor.passes_append, Cursor.passes_cons] at hts
        obtain ⟨c₁, hts, hop, -, c₂, hn, hus⟩ := hts
        have hkind : c₁.current.kind = .comparison := congrArg Lexeme.kind hop
        have hQ := max_le_iff.1 hQ
        have hrun := (Comparable.recognizes hargs).complete hx hQ.1 hts (hkind ▸ by decide)
        have hrun' := (Arg.recognizes hgroup hargs).complete ha hQ.2 hus hmore
        rw [if_neg (hx.current hts), run_bind_eq_ok]
        refine ⟨_, c₁, hrun, ?_⟩
        rw [run_looksAt_bind, if_pos hkind]
        simp only [run_bind_eq_ok, Comparison.run_parser_eq_ok, run_pure_eq_ok]
        exact ⟨_, c₂, ⟨(congrArg Lexeme.text hop).symm, hn⟩, _, c', hrun', rfl, rfl⟩

theorem Term.parser_run (c : Cursor) :
    (parser inner).run c =
      if c.current.kind ∈ negations then
        (do let _ ← advance; return .mk true (← Simple.parser inner) : Parser Term).run c
      else (do return .mk false (← Simple.parser inner) : Parser Term).run c := by
  simp only [parser, run_current_bind, negations]
  by_cases hnot : c.current.kind = .notWord
  · simp [hnot]
  · by_cases hminus : c.current.kind = .minus <;> simp [hnot, hminus]

include hgroup hargs in
theorem Term.recognizes :
    Recognizes (parser inner) Term.Derived (fun t => t.depth ≤ d) Simple.more where
  sound c c' t h := by
    rw [parser_run] at h
    split at h
    · next hk =>
        simp only [run_bind_eq_ok, run_advance_eq_ok, run_pure_eq_ok] at h
        obtain ⟨_, c₁, ⟨rfl, hn⟩, s, _, hs, rfl, rfl⟩ := h
        obtain ⟨ts, hts, hs, hdepth⟩ := (Simple.recognizes hgroup hargs).sound hs
        have hkinds : ∀ k ∈ negations, k ∉ [Kind.eof, .int, .float] := by decide
        have hread : c.current.lexeme.Readable := Lexeme.readable_of_kind (hkinds _ hk)
        exact ⟨c.current.lexeme :: ts, ⟨rfl, hread, c₁, hn, hts⟩, .negated hk hs, hdepth⟩
    · simp only [run_bind_eq_ok, run_pure_eq_ok] at h
      obtain ⟨s, _, hs, rfl, rfl⟩ := h
      obtain ⟨ts, hts, hs, hdepth⟩ := (Simple.recognizes hgroup hargs).sound hs
      exact ⟨ts, hts, .plain hs, hdepth⟩
  complete c c' ts t h hQ hts hc' := by
    rw [parser_run]
    cases h with
    | plain hs =>
        have hrun := (Simple.recognizes hgroup hargs).complete hs hQ hts hc'
        have hdisj : ∀ k ∈ Kind.openParen :: Value.kinds, k ∉ negations := by decide
        rw [if_neg (hdisj _ (Simple.starts.current hs hts)), run_bind_eq_ok]
        exact ⟨_, c', hrun, rfl⟩
    | negated hk hs =>
        obtain ⟨hw, -, c₁, hn, hts⟩ := hts
        have hrun := (Simple.recognizes hgroup hargs).complete hs hQ hts hc'
        have hkind := congrArg Lexeme.kind hw
        simp only [Token.lexeme] at hkind
        rw [if_pos (hkind ▸ hk)]
        simp only [run_bind_eq_ok, run_advance_eq_ok, run_pure_eq_ok]
        exact ⟨_, c₁, ⟨rfl, hn⟩, _, c', hrun, rfl, rfl⟩

include hgroup hargs in
theorem Filter.recognizes_within :
    Recognizes (parserWithin inner) Filter.Derived (fun f => Filter.depth f ≤ d) Filter.more := by
  have hclause : Recognizes (Clause.parser inner) Clause.Derived (fun c => ∀ t ∈ c, t.depth ≤ d)
      Clause.more := (Term.recognizes hgroup hargs).separated (by decide)
  simp only [Filter.depth_le_iff, Clause.depth_le_iff]
  exact hclause.separated (by decide)

include hgroup hargs in
theorem Args.recognizes_inParens :
    Recognizes (inParens (parser inner)) (InParens Args.Derived) (fun as => Args.depth as ≤ d)
      [] := by
  have hseries : Recognizes (separated .comma (Arg.parser inner)) (Separated .comma Arg.Derived)
      (fun as => ∀ a ∈ as, a.depth ≤ d) Args.more :=
    (Arg.recognizes hgroup hargs).separated (by decide)
  simp only [Args.depth_le_iff]
  refine inParens_recognizes (fun h => ?_) (fun h hQ hts hclose => ?_)
  · rw [parser, run_looksAt_bind] at h
    split at h
    · obtain ⟨rfl, rfl⟩ := run_pure_eq_ok.1 h
      exact ⟨[], rfl, .nil, by simp⟩
    · obtain ⟨ts, hts, hD, hdepth⟩ := hseries.sound h
      exact ⟨ts, hts, .some hD, hdepth⟩
  · rw [parser, run_looksAt_bind]
    cases h with
    | nil =>
        cases hts
        rw [if_pos hclose, run_pure]
    | some hD =>
        have hfirst := Arg.starts.separated.current hD hts
        have hdisj : ∀ k ∈ Kind.openParen :: Value.kinds, k ≠ .closeParen := by decide
        rw [if_neg (hdisj _ hfirst)]
        exact hseries.complete hD hQ hts (hclose ▸ by decide)

end

theorem Filter.recognizes_enclosed (d : Nat) :
    Recognizes (enclosed d).group (InParens Filter.Derived) (fun f => Filter.depth f + 1 ≤ d) [] ∧
      Recognizes (enclosed d).args (InParens Args.Derived) (fun as => Args.depth as + 1 ≤ d)
        [] := by
  -- What stands in parentheses is a filter again, with one parenthesis less to open.
  induction d with
  | zero =>
      have hdeep {α : Type} {a : α} {c c' : Cursor} : tooDeep.run c ≠ (.ok a, c') := by
        simp [tooDeep]
      exact ⟨⟨fun _ _ _ h => absurd h hdeep, fun _ _ _ _ _ hQ => by simp at hQ⟩,
        ⟨fun _ _ _ h => absurd h hdeep, fun _ _ _ _ _ hQ => by simp at hQ⟩⟩
  | succ d ih =>
      simp only [Nat.add_le_add_iff_right]
      have hfilter := Filter.recognizes_within ih.1 ih.2
      exact ⟨inParens_recognizes (fun h => hfilter.sound h)
        (fun h hQ hts hclose => hfilter.complete h hQ hts (hclose ▸ by decide)),
        Args.recognizes_inParens ih.1 ih.2⟩

theorem Filter.recognizes :
    Recognizes parser Filter.Derived (fun f => Filter.depth f ≤ maxDepth) Filter.more :=
  recognizes_within (recognizes_enclosed maxDepth).1 (recognizes_enclosed maxDepth).2

/-- What the parser makes of a text, in terms of the lexemes of the text. -/
theorem Filter.parse_eq_ok_iff {text : String} {f : Filter} :
    parse text = .ok f ↔
      ∃ ws, Grammar.filter.Reads text.toList ws ∧ f.Derived ws ∧ Filter.depth f ≤ maxDepth ∧
        ∀ w ∈ ws, w.Readable :=
  Filter.recognizes.readFrom_whole_iff (by decide)

end Sift
