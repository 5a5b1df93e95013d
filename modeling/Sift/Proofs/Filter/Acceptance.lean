import Sift.Proofs.Filter.Recognition

/-!
# The texts of filters

A text is accepted exactly when it has tokens up to its end, these are a filter by the grammar,
their numbers are in range, and no more than `Filter.maxDepth` parentheses stand open at once.
-/

namespace Sift

/-- The number of an integer is that of an `Int64`, the number of a literal with a point finite. -/
def Lexeme.InRange (w : Lexeme) : Prop :=
  match w.kind with
  | .int => Decimal.intValue w.text.toList ≤ 2 ^ 63 - 1
  | .float => ∃ x, Decimal.binary64? w.text.toList = some x ∧ x.isFinite = true
  | _ => True

theorem Lexeme.Proper.readable_iff {w : Lexeme} (h : w.Proper) : w.Readable ↔ w.InRange := by
  obtain ⟨k, x⟩ := w
  cases k with
  | int =>
      obtain ⟨sign, digits, hx, hsign, hdigits⟩ := h
      simp only [Readable, InRange]
      rw [hx]
      exact Decimal.exists_int64?_iff hsign hdigits
  | float => exact Iff.rfl
  | space | eof => exact h.elim
  | _ => simp [Readable, InRange]

namespace Filter

/-- The texts of a filter, by the grammar, which has at most one tree for any lexemes. -/
theorem parse_eq_ok_iff_derived :
    (∀ text f, parse text = .ok f ↔
      ∃ ts p, (Lexer.ofText .filter text).stream.significant = ⟨ts, .ok p⟩ ∧
        f.Derived (ts.map Token.lexeme) ∧ (∀ t ∈ ts, t.lexeme.InRange) ∧
        Filter.depth f ≤ maxDepth) ∧
    ∀ ws, {f : Filter | f.Derived ws}.Subsingleton := by
  refine ⟨fun text f => ?_, fun ws f hf g hg => hf.unique hg⟩
  rw [parse_eq_ok_iff]
  constructor
  · rintro ⟨ws, hws, hD, hdepth, hread⟩
    obtain ⟨ts, p, hs, rfl⟩ := reads_iff_significant.1 hws
    refine ⟨ts, p, hs, hD, fun t ht => ?_, hdepth⟩
    have hmem := List.mem_map_of_mem (f := Token.lexeme) ht
    exact (hws.proper _ hmem).readable_iff.1 (hread _ hmem)
  · rintro ⟨ts, p, hs, hD, hrange, hdepth⟩
    have hws := reads_iff_significant.2 ⟨ts, p, hs, rfl⟩
    refine ⟨_, hws, hD, hdepth, fun w hw => ?_⟩
    obtain ⟨t, ht, rfl⟩ := List.mem_map.1 hw
    exact (hws.proper _ hw).readable_iff.2 (hrange t ht)

end Filter

end Sift
