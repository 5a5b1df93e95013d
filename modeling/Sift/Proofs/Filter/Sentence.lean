import Sift.Proofs.Filter.Depth
import Sift.Proofs.Parse.Lookahead

/-!
# Sentences

What the grammar of filters says about kinds alone. Whether some lexemes are a filter depends on
their texts only through the numbers, so that each sentence is the kinds of a filter of samples.
-/

namespace Sift

namespace Filter

/-- The kinds of the lexemes of a filter. -/
def Sentence (ks : List Kind) : Prop :=
  ∃ ws f, Filter.Derived ws f ∧ ws.map Lexeme.kind = ks

/-- After lexemes of the kinds `ks` one of kind `k` goes on with a sentence, or, as the end of the
input, completes one. -/
def Continues (ks : List Kind) (k : Kind) : Prop :=
  if k = .eof then Sentence ks else ∃ more, Sentence (ks ++ k :: more)

end Filter

/-! ## Samples of phrases -/

/-- Lexemes of the same kinds that can be read. -/
def samples (ts : List Lexeme) : List Lexeme := ts.map fun w => .sample w.kind

variable {ts us : List Lexeme}

@[simp] theorem samples_nil : samples [] = [] := rfl

@[simp] theorem samples_cons (w : Lexeme) : samples (w :: ts) = .sample w.kind :: samples ts := rfl

@[simp] theorem samples_append : samples (ts ++ us) = samples ts ++ samples us := List.map_append

theorem readable_of_mem_samples {ts : List Lexeme} (hts : ∀ w ∈ ts, w.kind ≠ .eof) :
    ∀ w ∈ samples ts, w.Readable := by
  intro w hw
  obtain ⟨v, hv, rfl⟩ := List.mem_map.1 hw
  exact Lexeme.readable_sample (hts v hv)

theorem InParens.samples {α β : Type} {D : List Lexeme → α → Prop} {E : List Lexeme → β → Prop}
    {a : α} (h : InParens D ts a) (hD : ∀ {ts}, D ts a → ∃ b, E (samples ts) b) :
    ∃ b, InParens E (Sift.samples ts) b := by
  obtain ⟨ha⟩ := h
  obtain ⟨b, hb⟩ := hD ha
  refine ⟨b, ?_⟩
  rw [samples_cons, samples_append]
  exact .mk hb

theorem Optionally.samples {α β : Type} {D : List Lexeme → List α → Prop}
    {E : List Lexeme → List β → Prop} {as : List α} (h : Optionally D ts as)
    (hD : D ts as → ∃ bs, E (samples ts) bs) : ∃ bs, Optionally E (Sift.samples ts) bs := by
  cases h with
  | nil => exact ⟨[], .nil⟩
  | some h =>
      obtain ⟨bs, hbs⟩ := hD h
      exact ⟨bs, .some hbs⟩

theorem Field.readable_of_keyword {w : Lexeme} (h : w.kind ∈ keywords) : w.Readable := by
  have hkinds : ∀ k ∈ keywords, k ∉ [Kind.eof, .int, .float] := by decide
  exact Lexeme.readable_of_kind (hkinds _ h)

theorem Term.readable_of_negation {w : Lexeme} (h : w.kind ∈ negations) : w.Readable := by
  have hkinds : ∀ k ∈ negations, k ∉ [Kind.eof, .int, .float] := by decide
  exact Lexeme.readable_of_kind (hkinds _ h)

theorem Value.derived_sample {k : Kind} (hk : k ∈ kinds) : ∃ v : Value, v.Derived [.sample k] := by
  simp only [kinds, List.mem_cons, List.not_mem_nil, or_false] at hk
  rcases hk with rfl | rfl | rfl | rfl | rfl | rfl | rfl
  · exact ⟨_, .star⟩
  · exact ⟨.int 0, .int (by decide)⟩
  · exact ⟨.float .zero, .float (by decide +kernel)⟩
  · exact ⟨_, .string⟩
  · exact ⟨_, .trueWord⟩
  · exact ⟨_, .falseWord⟩
  · exact ⟨_, .ident⟩

theorem Value.Derived.samples {v : Value} (h : v.Derived ts) :
    ∃ v' : Value, v'.Derived (samples ts) := by
  obtain ⟨w, rfl, hw⟩ := h.exists_lexeme
  exact Value.derived_sample hw

theorem Field.Derived.samples {f : Field} (h : f.Derived ts) :
    ∃ f' : Field, f'.Derived (samples ts) := by
  cases h with
  | value hv =>
      obtain ⟨v, hv⟩ := hv.samples
      exact ⟨_, .value hv⟩
  | @keyword k x hk =>
      have hkeyword : ∀ k ∈ Field.keywords, Lexeme.sample k = ⟨k, ""⟩ := by decide
      refine ⟨.keyword "", ?_⟩
      rw [samples_cons, hkeyword k hk]
      exact .keyword hk

theorem Path.samples {path : List Field} (h : Path.Derived ts path) :
    ∃ path', Path.Derived (samples ts) path' := by
  induction h with
  | nil => exact ⟨[], .nil⟩
  | cons hf _ ih =>
      obtain ⟨f, hf⟩ := hf.samples
      obtain ⟨path, hpath⟩ := ih
      refine ⟨f :: path, ?_⟩
      rw [samples_cons, samples_append]
      exact .cons hf hpath

mutual

theorem Term.Derived.samples {ts : List Lexeme} :
    {t : Term} → t.Derived ts → ∃ t' : Term, t'.Derived (samples ts)
  | .mk _ body, .plain hs => by
      obtain ⟨s, hs⟩ := Simple.Derived.samples hs
      exact ⟨_, .plain hs⟩
  | .mk _ body, .negated hk hs => by
      obtain ⟨s, hs⟩ := Simple.Derived.samples hs
      have hnegation : ∀ k ∈ Term.negations, Lexeme.sample k = ⟨k, ""⟩ := by decide
      refine ⟨.mk true s, ?_⟩
      rw [samples_cons, hnegation _ hk]
      exact .negated hk hs

theorem Simple.Derived.samples {ts : List Lexeme} :
    {s : Simple} → s.Derived ts → ∃ s' : Simple, s'.Derived (samples ts)
  | .group f, .group hf => by
      obtain ⟨f, hf⟩ := hf.samples fun h => Filter.Derived.samples h
      exact ⟨_, .group hf⟩
  | .test x, .test hx => by
      obtain ⟨x, hx⟩ := Comparable.Derived.samples hx
      exact ⟨_, .test hx⟩
  | .compare x op a, .compare hx ha => by
      obtain ⟨x, hx⟩ := Comparable.Derived.samples hx
      obtain ⟨a, ha⟩ := Arg.Derived.samples ha
      refine ⟨.compare x .eq a, ?_⟩
      rw [samples_append, samples_cons]
      exact .compare hx ha

theorem Comparable.Derived.samples {ts : List Lexeme} :
    {x : Comparable} → x.Derived ts → ∃ x' : Comparable, x'.Derived (samples ts)
  | .plain v path, .plain hv hpath => by
      obtain ⟨v, hv⟩ := hv.samples
      obtain ⟨path, hpath⟩ := Path.samples hpath
      refine ⟨.plain v path, ?_⟩
      rw [samples_append]
      exact .plain hv hpath
  | .call v path args, .call hv hpath hargs => by
      obtain ⟨v, hv⟩ := hv.samples
      obtain ⟨path, hpath⟩ := Path.samples hpath
      obtain ⟨args, hargs⟩ := hargs.samples fun h => h.samples fun h => Args.samples h
      refine ⟨.call v path args, ?_⟩
      rw [samples_append, samples_append]
      exact .call hv hpath hargs

theorem Arg.Derived.samples {ts : List Lexeme} :
    {a : Arg} → a.Derived ts → ∃ a' : Arg, a'.Derived (samples ts)
  | .group f, .group hf => by
      obtain ⟨f, hf⟩ := hf.samples fun h => Filter.Derived.samples h
      exact ⟨_, .group hf⟩
  | .comparable x, .comparable hx => by
      obtain ⟨x, hx⟩ := Comparable.Derived.samples hx
      exact ⟨_, .comparable hx⟩

theorem Args.samples {ts : List Lexeme} : {args : List Arg} →
    Separated .comma Arg.Derived ts args → ∃ args', Separated .comma Arg.Derived (samples ts) args'
  | a :: r, h => by
      rcases h.uncons with ⟨rfl, ha⟩ | ⟨us, x, vs, rfl, ha, h⟩
      · obtain ⟨a, ha⟩ := Arg.Derived.samples ha
        exact ⟨[a], .one ha⟩
      · obtain ⟨a, ha⟩ := Arg.Derived.samples ha
        obtain ⟨r, hr⟩ := Args.samples h
        refine ⟨a :: r, ?_⟩
        rw [samples_append, samples_cons]
        exact .cons ha hr

theorem Clause.Derived.samples {ts : List Lexeme} :
    {c : List Term} → Clause.Derived ts c → ∃ c', Clause.Derived (samples ts) c'
  | t :: r, h => by
      rcases h.uncons with ⟨rfl, ht⟩ | ⟨us, x, vs, rfl, ht, h⟩
      · obtain ⟨t, ht⟩ := Term.Derived.samples ht
        exact ⟨[t], .one ht⟩
      · obtain ⟨t, ht⟩ := Term.Derived.samples ht
        obtain ⟨r, hr⟩ := Clause.Derived.samples h
        refine ⟨t :: r, ?_⟩
        rw [samples_append, samples_cons]
        exact .cons ht hr

theorem Filter.Derived.samples {ts : List Lexeme} :
    {f : List (List Term)} → Filter.Derived ts f → ∃ f', Filter.Derived (samples ts) f'
  | c :: r, h => by
      rcases h.uncons with ⟨rfl, hc⟩ | ⟨us, x, vs, rfl, hc, h⟩
      · obtain ⟨c, hc⟩ := Clause.Derived.samples hc
        exact ⟨[c], .one hc⟩
      · obtain ⟨c, hc⟩ := Clause.Derived.samples hc
        obtain ⟨r, hr⟩ := Filter.Derived.samples h
        refine ⟨c :: r, ?_⟩
        rw [samples_append, samples_cons]
        exact .cons hc hr

end

/-- Each sentence is the kinds of a filter of samples, which can be read. -/
theorem Filter.Sentence.exists_derived {ks : List Kind} (h : Sentence ks) :
    (∃ f, Filter.Derived (ks.map Lexeme.sample) f) ∧ ∀ w ∈ ks.map Lexeme.sample, w.Readable := by
  obtain ⟨ws, f, hf, rfl⟩ := h
  rw [List.map_map]
  exact ⟨hf.samples, readable_of_mem_samples (hf.nested).kind_ne_eof⟩

end Sift
