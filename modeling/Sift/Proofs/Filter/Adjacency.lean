import Mathlib.Data.List.Chain
import Sift.Proofs.Filter.Unambiguous

/-!
# What follows a value

Of the lexemes of a filter, only those of a few kinds come right after a value.
-/

namespace Sift

/-- The kinds of lexeme that may come right after a value. -/
def Value.followers : List Kind :=
  [.dot, .openParen, .closeParen, .comma, .comparison, .andWord, .orWord]

/-- Right after a value comes nothing but what may follow one. -/
def Flowing (ts : List Lexeme) : Prop :=
  ts.IsChain fun w w' => w.kind ∈ Value.kinds → w'.kind ∈ Value.followers

namespace Flowing

variable {k : Kind} {x y : String} {ts us : List Lexeme}

theorem nil : Flowing [] := List.isChain_nil

theorem one (w : Lexeme) : Flowing [w] := List.isChain_singleton w

theorem cons (hk : k ∉ Value.kinds) (h : Flowing ts) : Flowing (⟨k, x⟩ :: ts) :=
  List.isChain_cons.2 ⟨fun _ _ hkinds => absurd hkinds hk, h⟩

theorem append (hts : Flowing ts) (hk : k ∈ Value.followers) (hus : Flowing (⟨k, x⟩ :: us)) :
    Flowing (ts ++ ⟨k, x⟩ :: us) := by
  refine List.isChain_append.2 ⟨hts, hus, ?_⟩
  rintro _ - _ ⟨⟩ -
  exact hk

theorem not_mem_kinds (hk : k ∈ Value.followers) : k ∉ Value.kinds := by
  revert k
  decide

/-- What may follow a value may have anything after it. -/
theorem separate (hts : Flowing ts) (hk : k ∈ Value.followers) (hus : Flowing us) :
    Flowing (ts ++ ⟨k, x⟩ :: us) :=
  hts.append hk (hus.cons (not_mem_kinds hk))

theorem inParens (h : Flowing ts) :
    Flowing (⟨.openParen, x⟩ :: (ts ++ [⟨.closeParen, y⟩])) :=
  (h.separate (by decide) .nil).cons (by decide)

end Flowing

variable {ts : List Lexeme}

theorem Value.Derived.flowing {v : Value} (h : v.Derived ts) : Flowing ts := by
  obtain ⟨w, rfl, -⟩ := h.exists_lexeme
  exact .one w

theorem Field.Derived.flowing {f : Field} (h : f.Derived ts) : Flowing ts := by
  cases h with
  | value hv => exact hv.flowing
  | keyword _ => exact .one _

/-- A path may follow what flows. -/
theorem Path.flowing {path : List Field} {us : List Lexeme} (hts : Flowing ts)
    (h : Path.Derived us path) : Flowing (ts ++ us) := by
  induction h generalizing ts with
  | nil => rwa [List.append_nil]
  | cons hf _ ih =>
      rw [← List.cons_append, ← List.append_assoc]
      exact ih (hts.separate (by decide) hf.flowing)

mutual

theorem Term.Derived.flowing {ts : List Lexeme} : {t : Term} → t.Derived ts → Flowing ts
  | .mk _ body, .plain hs => Simple.Derived.flowing hs
  | .mk _ body, .negated hk hs => by
      have hkinds : ∀ k ∈ Term.negations, k ∉ Value.kinds := by decide
      exact (Simple.Derived.flowing hs).cons (hkinds _ hk)

theorem Simple.Derived.flowing {ts : List Lexeme} : {s : Simple} → s.Derived ts → Flowing ts
  | .group f, .group hf => by
      obtain ⟨hf⟩ := hf
      exact (Filter.Derived.flowing hf).inParens
  | .test x, .test hx => Comparable.Derived.flowing hx
  | .compare x op a, .compare hx ha =>
      (Comparable.Derived.flowing hx).separate (by decide) (Arg.Derived.flowing ha)

theorem Comparable.Derived.flowing {ts : List Lexeme} :
    {x : Comparable} → x.Derived ts → Flowing ts
  | .plain v path, .plain hv hpath => Path.flowing hv.flowing hpath
  | .call v path args, .call hv hpath hargs => by
      obtain ⟨hargs⟩ := hargs
      exact (Path.flowing hv.flowing hpath).append (by decide) (Args.Derived.flowing hargs).inParens

theorem Arg.Derived.flowing {ts : List Lexeme} : {a : Arg} → a.Derived ts → Flowing ts
  | .group f, .group hf => by
      obtain ⟨hf⟩ := hf
      exact (Filter.Derived.flowing hf).inParens
  | .comparable x, .comparable hx => Comparable.Derived.flowing hx

theorem Args.Derived.flowing {ts : List Lexeme} :
    {args : List Arg} → Args.Derived ts args → Flowing ts
  | [], .nil => .nil
  | a :: r, .some h => by
      rcases h.uncons with ⟨rfl, ha⟩ | ⟨us, x, vs, rfl, ha, h⟩
      · exact Arg.Derived.flowing ha
      · exact (Arg.Derived.flowing ha).separate (by decide) (Args.Derived.flowing (.some h))

theorem Clause.Derived.flowing {ts : List Lexeme} :
    {c : List Term} → Clause.Derived ts c → Flowing ts
  | t :: r, h => by
      rcases h.uncons with ⟨rfl, ht⟩ | ⟨us, x, vs, rfl, ht, h⟩
      · exact Term.Derived.flowing ht
      · exact (Term.Derived.flowing ht).separate (by decide) (Clause.Derived.flowing h)

theorem Filter.Derived.flowing {ts : List Lexeme} :
    {f : List (List Term)} → Filter.Derived ts f → Flowing ts
  | c :: r, h => by
      rcases h.uncons with ⟨rfl, hc⟩ | ⟨us, x, vs, rfl, hc, h⟩
      · exact Clause.Derived.flowing hc
      · exact (Clause.Derived.flowing hc).separate (by decide) (Filter.Derived.flowing h)

end

end Sift
