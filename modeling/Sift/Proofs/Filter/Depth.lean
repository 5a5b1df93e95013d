import Sift.Proofs.Filter.Unambiguous
import Sift.Proofs.Parse.Nesting

/-!
# Depth and open parentheses

The depth of a filter bounds how many parentheses stand open anywhere in its lexemes, and at their
end none does.
-/

namespace Sift

variable {ts : List Lexeme} {d : Nat}

theorem Value.Derived.nested {v : Value} (h : v.Derived ts) : Nested d ts := by
  obtain ⟨w, rfl, hw⟩ := h.exists_lexeme
  have hkinds : ∀ k ∈ Value.kinds, k ∉ [Kind.openParen, .closeParen, .eof] := by decide
  exact .one (hkinds _ hw)

theorem Field.Derived.nested {f : Field} (h : f.Derived ts) : Nested d ts := by
  cases h with
  | value hv => exact hv.nested
  | keyword hk =>
      have hkinds : ∀ k ∈ Field.keywords, k ∉ [Kind.openParen, .closeParen, .eof] := by decide
      exact .one (hkinds _ hk)

theorem Path.nested {path : List Field} (h : Path.Derived ts path) : Nested d ts := by
  induction h with
  | nil => exact .nil
  | @cons x us vs f path hf _ ih =>
      have hdot : Nested d [⟨Kind.dot, x⟩] := .one (by simp)
      exact hdot.append (hf.nested.append ih)

mutual

theorem Term.Derived.nested {ts : List Lexeme} : {t : Term} → t.Derived ts → Nested t.depth ts
  | .mk _ body, .plain hs => Simple.Derived.nested hs
  | .mk _ body, .negated hk hs => by
      have hkinds : ∀ k ∈ Term.negations, k ∉ [Kind.openParen, .closeParen, .eof] := by decide
      exact (Nested.one (hkinds _ hk)).append (Simple.Derived.nested hs)

theorem Simple.Derived.nested {ts : List Lexeme} : {s : Simple} → s.Derived ts → Nested s.depth ts
  | .group f, .group hf => by
      obtain ⟨hf⟩ := hf
      exact (Filter.Derived.nested hf).inParens
  | .test x, .test hx => Comparable.Derived.nested hx
  | .compare x op a, .compare hx ha => by
      have hop : Nested a.depth [⟨Kind.comparison, op.symbol⟩] := .one (by simp)
      exact ((Comparable.Derived.nested hx).mono (le_max_left _ _)).append
        ((hop.append (Arg.Derived.nested ha)).mono (le_max_right _ _))

theorem Comparable.Derived.nested {ts : List Lexeme} :
    {x : Comparable} → x.Derived ts → Nested x.depth ts
  | .plain v path, .plain hv hpath => hv.nested.append (Path.nested hpath)
  | .call v path args, .call hv hpath hargs => by
      obtain ⟨hargs⟩ := hargs
      exact (hv.nested.append (Path.nested hpath)).append (Args.Derived.nested hargs).inParens

theorem Arg.Derived.nested {ts : List Lexeme} : {a : Arg} → a.Derived ts → Nested a.depth ts
  | .group f, .group hf => by
      obtain ⟨hf⟩ := hf
      exact (Filter.Derived.nested hf).inParens
  | .comparable x, .comparable hx => Comparable.Derived.nested hx

theorem Args.Derived.nested {ts : List Lexeme} :
    {args : List Arg} → Args.Derived ts args → Nested (Args.depth args) ts
  | [], .nil => .nil
  | a :: r, .some h => by
      rcases h.uncons with ⟨rfl, ha⟩ | ⟨us, x, vs, rfl, ha, h⟩
      · exact (Arg.Derived.nested ha).mono (le_max_left _ _)
      · have hcomma : Nested (Args.depth r) [⟨Kind.comma, x⟩] := .one (by simp)
        exact ((Arg.Derived.nested ha).mono (le_max_left _ _)).append
          ((hcomma.append (Args.Derived.nested (.some h))).mono (le_max_right _ _))

theorem Clause.Derived.nested {ts : List Lexeme} :
    {c : List Term} → Clause.Derived ts c → Nested (Clause.depth c) ts
  | t :: r, h => by
      rcases h.uncons with ⟨rfl, ht⟩ | ⟨us, x, vs, rfl, ht, h⟩
      · exact (Term.Derived.nested ht).mono (le_max_left _ _)
      · have hor : Nested (Clause.depth r) [⟨Kind.orWord, x⟩] := .one (by simp)
        exact ((Term.Derived.nested ht).mono (le_max_left _ _)).append
          ((hor.append (Clause.Derived.nested h)).mono (le_max_right _ _))

theorem Filter.Derived.nested {ts : List Lexeme} :
    {f : List (List Term)} → Filter.Derived ts f → Nested (Filter.depth f) ts
  | c :: r, h => by
      rcases h.uncons with ⟨rfl, hc⟩ | ⟨us, x, vs, rfl, hc, h⟩
      · exact (Clause.Derived.nested hc).mono (le_max_left _ _)
      · have hand : Nested (Filter.depth r) [⟨Kind.andWord, x⟩] := .one (by simp)
        exact ((Clause.Derived.nested hc).mono (le_max_left _ _)).append
          ((hand.append (Filter.Derived.nested h)).mono (le_max_right _ _))

end

end Sift
