import Sift.Proofs.Filter.Derivation
import Sift.Proofs.Value.Comparison

/-!
# One tree at most

No sequence of lexemes has two trees. `Comparable.more` and its like are the kinds of lexeme that
would go on with a phrase.
-/

namespace Sift

variable {k : Kind} {ts us r r' : List Lexeme}

/-! ## What operands and terms begin with -/

def Value.kinds : List Kind := [.star, .int, .float, .string, .trueWord, .falseWord, .ident]

/-- The kinds that would go on with an operand. -/
def Comparable.more : List Kind := [.dot, .openParen]

def Args.more : List Kind := .comma :: Comparable.more

def Simple.more : List Kind := .comparison :: Comparable.more

def Clause.more : List Kind := .orWord :: Simple.more

def Filter.more : List Kind := .andWord :: Clause.more

theorem Value.Derived.exists_lexeme {v : Value} (h : v.Derived ts) :
    ∃ w, ts = [w] ∧ w.kind ∈ Value.kinds := by
  cases h <;> exact ⟨_, rfl, by simp [Value.kinds]⟩

theorem Comparable.starts : Starts Comparable.Derived Value.kinds := by
  intro ts c h
  cases h with
  | plain hv _ | call hv _ _ =>
      obtain ⟨w, rfl, hw⟩ := hv.exists_lexeme
      exact ⟨w, _, rfl, hw⟩

theorem Arg.starts : Starts Arg.Derived (.openParen :: Value.kinds) := by
  intro ts a h
  cases h with
  | group hf =>
      obtain ⟨w, s, rfl, hw⟩ := Starts.inParens hf
      exact ⟨w, s, rfl, by simp_all⟩
  | comparable hc =>
      obtain ⟨w, s, rfl, hw⟩ := Comparable.starts hc
      exact ⟨w, s, rfl, List.mem_cons_of_mem _ hw⟩

theorem Simple.starts : Starts Simple.Derived (.openParen :: Value.kinds) := by
  intro ts s h
  cases h with
  | group hf =>
      obtain ⟨w, s, rfl, hw⟩ := Starts.inParens hf
      exact ⟨w, s, rfl, by simp_all⟩
  | test hc | compare hc _ =>
      obtain ⟨w, s, rfl, hw⟩ := Comparable.starts hc
      exact ⟨w, _, rfl, List.mem_cons_of_mem _ hw⟩

/-! ## From values to filters -/

theorem Value.unambiguous : Unambiguous Value.Derived (fun _ => True) [] := by
  intro ts us r r' v v' h h' _ _ heq _ _
  obtain ⟨w, rfl, -⟩ := h.exists_lexeme
  obtain ⟨w', rfl, -⟩ := h'.exists_lexeme
  cases heq
  refine ⟨rfl, ?_⟩
  cases h with
  | int hn =>
      cases h' with
      | int hn' => rw [Int64.toInt_inj.1 (hn.trans hn'.symm)]
  | float hx =>
      cases h' with
      | float hx' => rw [Option.some.inj (hx.symm.trans hx')]
  | _ => cases h'; rfl

theorem Value.Derived.not_keyword {v : Value} {x : String} (h : v.Derived [⟨k, x⟩]) :
    k ∉ Field.keywords := by
  cases h <;> decide

theorem Field.unambiguous : Unambiguous Field.Derived (fun _ => True) [] := by
  intro ts us r r' f f' h h' hq hq' heq hr hr'
  cases h with
  | value hv =>
      cases h' with
      | value hv' =>
          obtain ⟨rfl, rfl⟩ := Value.unambiguous hv hv' hq hq' heq hr hr'
          exact ⟨rfl, rfl⟩
      | keyword hk =>
          obtain ⟨w, rfl, -⟩ := hv.exists_lexeme
          cases heq
          exact absurd hk hv.not_keyword
  | keyword hk =>
      cases h' with
      | value hv' =>
          obtain ⟨w, rfl, -⟩ := hv'.exists_lexeme
          cases heq
          exact absurd hk hv'.not_keyword
      | keyword hk' =>
          cases heq
          exact ⟨rfl, rfl⟩

theorem Path.unambiguous : Unambiguous Path.Derived (fun _ => True) [.dot] := by
  intro ts us r r' p p' h h' _ _ heq hr hr'
  exact Field.unambiguous.followed (by simp) h h' (by simp) (by simp) heq hr hr'

/-- Where neither path goes on, two operands that begin one text have one value and one path. -/
theorem Path.unambiguous_after_value {us us' vs vs' : List Lexeme} {v v' : Value}
    {p p' : List Field} (hv : v.Derived us) (hv' : v'.Derived us') (hp : Path.Derived vs p)
    (hp' : Path.Derived vs' p') (heq : us ++ (vs ++ r) = us' ++ (vs' ++ r'))
    (hr : Stops [.dot] r) (hr' : Stops [.dot] r') :
    us = us' ∧ v = v' ∧ vs = vs' ∧ p = p' ∧ r = r' := by
  obtain ⟨rfl, rfl⟩ := Value.unambiguous hv hv' trivial trivial heq (stops_nil _) (stops_nil _)
  have heq := List.append_cancel_left heq
  obtain ⟨rfl, rfl⟩ := Path.unambiguous hp hp' trivial trivial heq hr hr'
  exact ⟨rfl, rfl, rfl, rfl, List.append_cancel_left heq⟩

section

-- Groups and arguments that open at most `d` parentheses, as an induction on `d` provides them.
variable {d : Nat}
variable (hgroup : Unambiguous (InParens Filter.Derived) (fun f => Filter.depth f + 1 ≤ d) [])
variable (hargs : Unambiguous (InParens Args.Derived) (fun as => Args.depth as + 1 ≤ d) [])

include hargs in
theorem Comparable.unambiguous :
    Unambiguous Comparable.Derived (fun c => c.depth ≤ d) Comparable.more := by
  intro ts us r r' c c' h h' hq hq' heq hr hr'
  have hdot : [Kind.dot] ⊆ Comparable.more := by simp [Comparable.more]
  have hopen : [Kind.openParen] ⊆ Comparable.more := by simp [Comparable.more]
  have hdisj : ∀ k ∈ [Kind.openParen], k ∉ [Kind.dot] := by decide
  cases h with
  | plain hv hp =>
      cases h' with
      | plain hv' hp' =>
          simp only [List.append_assoc] at heq
          obtain ⟨rfl, rfl, rfl, rfl, -⟩ :=
            Path.unambiguous_after_value hv hv' hp hp' heq (hr.mono hdot) (hr'.mono hdot)
          exact ⟨rfl, rfl⟩
      | call hv' hp' ha' =>
          simp only [List.append_assoc] at heq
          obtain ⟨-, -, -, -, rfl⟩ := Path.unambiguous_after_value hv hv' hp hp' heq
            (hr.mono hdot) (Starts.inParens.stops ha' hdisj)
          exact absurd hr (Starts.inParens.not_stops ha' hopen)
  | call hv hp ha =>
      cases h' with
      | plain hv' hp' =>
          simp only [List.append_assoc] at heq
          obtain ⟨-, -, -, -, rfl⟩ := Path.unambiguous_after_value hv hv' hp hp' heq
            (Starts.inParens.stops ha hdisj) (hr'.mono hdot)
          exact absurd hr' (Starts.inParens.not_stops ha hopen)
      | call hv' hp' ha' =>
          simp only [List.append_assoc] at heq
          obtain ⟨rfl, rfl, rfl, rfl, heq⟩ := Path.unambiguous_after_value hv hv' hp hp' heq
            (Starts.inParens.stops ha hdisj) (Starts.inParens.stops ha' hdisj)
          obtain ⟨rfl, rfl⟩ := hargs ha ha' hq hq' heq (stops_nil _) (stops_nil _)
          exact ⟨rfl, rfl⟩

include hgroup hargs in
theorem Arg.unambiguous : Unambiguous Arg.Derived (fun a => a.depth ≤ d) Comparable.more := by
  intro ts us r r' a a' h h' hq hq' heq hr hr'
  have hdisj : ∀ k ∈ [Kind.openParen], k ∉ Value.kinds := by decide
  cases h with
  | group hf =>
      cases h' with
      | group hf' =>
          obtain ⟨rfl, rfl⟩ := hgroup hf hf' hq hq' heq (stops_nil _) (stops_nil _)
          exact ⟨rfl, rfl⟩
      | comparable hc' =>
          exact absurd heq (Starts.inParens.append_ne Comparable.starts hf hc' hdisj)
  | comparable hc =>
      cases h' with
      | group hf' =>
          exact absurd heq.symm (Starts.inParens.append_ne Comparable.starts hf' hc hdisj)
      | comparable hc' =>
          obtain ⟨rfl, rfl⟩ := Comparable.unambiguous hargs hc hc' hq hq' heq hr hr'
          exact ⟨rfl, rfl⟩

include hgroup hargs in
theorem Simple.unambiguous : Unambiguous Simple.Derived (fun s => s.depth ≤ d) Simple.more := by
  intro ts us r r' s s' h h' hq hq' heq hr hr'
  have hdisj : ∀ k ∈ [Kind.openParen], k ∉ Value.kinds := by decide
  have hmore : Comparable.more ⊆ Simple.more := List.subset_cons_self _ _
  have hcomparison : Kind.comparison ∉ Comparable.more := by decide
  cases h with
  | group hf =>
      cases h' with
      | group hf' =>
          obtain ⟨rfl, rfl⟩ := hgroup hf hf' hq hq' heq (stops_nil _) (stops_nil _)
          exact ⟨rfl, rfl⟩
      | test hc' => exact absurd heq (Starts.inParens.append_ne Comparable.starts hf hc' hdisj)
      | compare hl' _ =>
          rw [List.append_assoc] at heq
          exact absurd heq (Starts.inParens.append_ne Comparable.starts hf hl' hdisj)
  | test hc =>
      cases h' with
      | group hf' =>
          exact absurd heq.symm (Starts.inParens.append_ne Comparable.starts hf' hc hdisj)
      | test hc' =>
          obtain ⟨rfl, rfl⟩ :=
            Comparable.unambiguous hargs hc hc' hq hq' heq (hr.mono hmore) (hr'.mono hmore)
          exact ⟨rfl, rfl⟩
      | compare hl' _ =>
          rw [List.append_assoc] at heq
          obtain ⟨rfl, rfl⟩ := Comparable.unambiguous hargs hc hl' hq (max_le_iff.1 hq').1 heq
            (hr.mono hmore) (.cons hcomparison _)
          rw [List.append_cancel_left heq] at hr
          exact absurd List.mem_cons_self hr.not_mem
  | compare hl ha =>
      rw [List.append_assoc] at heq
      cases h' with
      | group hf' =>
          exact absurd heq.symm (Starts.inParens.append_ne Comparable.starts hf' hl hdisj)
      | test hc' =>
          obtain ⟨rfl, rfl⟩ := Comparable.unambiguous hargs hl hc' (max_le_iff.1 hq).1 hq' heq
            (.cons hcomparison _) (hr'.mono hmore)
          rw [← List.append_cancel_left heq] at hr'
          exact absurd List.mem_cons_self hr'.not_mem
      | compare hl' ha' =>
          rw [List.append_assoc] at heq
          have hq := max_le_iff.1 hq
          have hq' := max_le_iff.1 hq'
          obtain ⟨rfl, rfl⟩ := Comparable.unambiguous hargs hl hl' hq.1 hq'.1 heq
            (.cons hcomparison _) (.cons hcomparison _)
          have heq := List.append_cancel_left heq
          simp only [List.cons_append, List.cons.injEq, Lexeme.mk.injEq, true_and] at heq
          obtain ⟨hop, heq⟩ := heq
          obtain ⟨rfl, rfl⟩ := Arg.unambiguous hgroup hargs ha ha' hq.2 hq'.2 heq
            (hr.mono hmore) (hr'.mono hmore)
          obtain rfl := Comparison.symbol_injective hop
          exact ⟨rfl, rfl⟩

include hgroup hargs in
theorem Term.unambiguous : Unambiguous Term.Derived (fun t => t.depth ≤ d) Simple.more := by
  intro ts us r r' t t' h h' hq hq' heq hr hr'
  have hdisj : ∀ k ∈ Kind.openParen :: Value.kinds, k ∉ Term.negations := by decide
  cases h with
  | plain hs =>
      cases h' with
      | plain hs' =>
          obtain ⟨rfl, rfl⟩ := Simple.unambiguous hgroup hargs hs hs' hq hq' heq hr hr'
          exact ⟨rfl, rfl⟩
      | negated hk' hs' =>
          obtain ⟨w, s, rfl, hw⟩ := Simple.starts hs
          simp only [List.cons_append, List.cons.injEq] at heq
          obtain ⟨rfl, -⟩ := heq
          exact absurd hk' (hdisj _ hw)
  | negated hk hs =>
      cases h' with
      | plain hs' =>
          obtain ⟨w, s, rfl, hw⟩ := Simple.starts hs'
          simp only [List.cons_append, List.cons.injEq] at heq
          obtain ⟨rfl, -⟩ := heq
          exact absurd hk (hdisj _ hw)
      | negated hk' hs' =>
          simp only [List.cons_append, List.cons.injEq] at heq
          obtain ⟨hx, heq⟩ := heq
          obtain ⟨rfl, rfl⟩ := Simple.unambiguous hgroup hargs hs hs' hq hq' heq hr hr'
          exact ⟨by rw [hx], rfl⟩

include hgroup hargs in
theorem Filter.unambiguous_of_depth :
    Unambiguous Filter.Derived (fun f => Filter.depth f ≤ d) Filter.more := by
  intro ts us r r' f f' h h' hq hq' heq hr hr'
  have hclause : Unambiguous Clause.Derived (fun c => ∀ t ∈ c, t.depth ≤ d) Clause.more :=
    (Term.unambiguous hgroup hargs).separated (by decide)
  simp only [Filter.depth_le_iff, Clause.depth_le_iff] at hq hq'
  exact hclause.separated (by decide) h h' hq hq' heq hr hr'

include hgroup hargs in
theorem Args.unambiguous_of_depth : Unambiguous Args.Derived (fun as => Args.depth as ≤ d)
    (.openParen :: Value.kinds ++ Args.more) := by
  intro ts us r r' as as' h h' hq hq' heq hr hr'
  have hseries : Unambiguous (Separated .comma Arg.Derived) (fun as => ∀ a ∈ as, a.depth ≤ d)
      Args.more := (Arg.unambiguous hgroup hargs).separated (by decide)
  simp only [Args.depth_le_iff] at hq hq'
  exact hseries.optionally Arg.starts.separated h h' hq hq' heq hr hr'

end

theorem enclosed_unambiguous (d : Nat) :
    Unambiguous (InParens Filter.Derived) (fun f => Filter.depth f + 1 ≤ d) [] ∧
      Unambiguous (InParens Args.Derived) (fun as => Args.depth as + 1 ≤ d) [] := by
  induction d with
  | zero => exact ⟨fun _ _ _ _ _ _ _ _ hq => by simp at hq, fun _ _ _ _ _ _ _ _ hq => by simp at hq⟩
  | succ d ih =>
      simp only [Nat.add_le_add_iff_right]
      exact ⟨(Filter.unambiguous_of_depth ih.1 ih.2).inParens (by decide),
        (Args.unambiguous_of_depth ih.1 ih.2).inParens (by decide)⟩

/-- No sequence of lexemes has two trees. -/
theorem Filter.Derived.unique {f g : Filter} (hf : f.Derived ts) (hg : g.Derived ts) : f = g := by
  -- Both trees are within the depth of the deeper one.
  obtain ⟨hgroup, hargs⟩ := enclosed_unambiguous (max (Filter.depth f) (Filter.depth g))
  have hend : Stops Filter.more [] := by simp [Stops]
  exact (Filter.unambiguous_of_depth hgroup hargs hf hg (Nat.le_max_left _ _)
    (Nat.le_max_right _ _) rfl hend hend).2

end Sift
