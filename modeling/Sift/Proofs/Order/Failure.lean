import Sift.Proofs.Order.Recognition
import Sift.Proofs.Parse.Failure

/-!
# Where the parser of orders fails

As for filters, each parser fails only after the beginning of a phrase of its part of the grammar.
-/

namespace Sift

open Sift.Parser

variable {limit : Nat} {d : Int}

namespace Key

/-! ## Orders have no parentheses -/

theorem balanced_segment : Balanced Segment.Derived := fun _ _ h =>
  opened_eq_zero fun w hw => by simp [h.kind_eq w hw]

theorem balanced : Balanced Key.Derived := by
  refine fun _ _ h => opened_eq_zero fun w hw => ?_
  have hkind := h.kind_mem w hw
  simp only [List.mem_cons, List.not_mem_nil, or_false] at hkind
  rcases hkind with hkind | hkind | hkind <;> simp [hkind]

/-! ## From names to orders -/

theorem readable_name : ∀ w ∈ [(⟨.ident, "a"⟩ : Lexeme)], w.Readable := by
  intro w hw
  rw [List.mem_singleton.1 hw]
  trivial

theorem fails_segment : Fails identParser Segment.Derived Any limit d := by
  intro c c' e h
  simp only [identParser, run_bind_eq_error, run_pure_ne_error, and_false, exists_false,
    or_false] at h
  exact fails_of_expect h (Cursor.passes_nil.2 rfl) (by simp) (by simp)
    (begins_self .ident trivial)

theorem fails_path :
    Fails (separated .dot identParser) (Separated .dot Segment.Derived) Any limit d := by
  have hpath : Fails (separated .dot identParser) (Separated .dot Segment.Derived)
      (fun path => ∀ x ∈ path, True) limit d :=
    fails_segment.separated recognizes_segment (begins_nil .ident trivial readable_name)
      balanced_segment
  simpa using hpath

theorem fails : Fails parser Key.Derived Any limit d := by
  intro c c' e h
  rcases run_bind_eq_error.1 h with h | ⟨path, c₁, hpath, h⟩
  · apply (fails_path h).within
    intro ts path hpath
    exact ⟨[], ⟨path, false⟩, .ascending (by simpa using hpath), fun _ => trivial, by simp⟩
  · rw [run_looksAt_bind] at h
    split at h
    · next hk =>
        simp only [run_bind_eq_error, run_advance_eq_error, run_pure_ne_error, and_false,
          exists_false, or_false] at h
        obtain ⟨err, hn, rfl, rfl⟩ := h
        obtain ⟨ts, hts, hpath, -⟩ := recognizes_path.sound hpath
        refine ⟨ts, hts, .lex hn (Lexeme.readable_of_kind (by simp [Token.lexeme, hk])) ?_⟩
        rw [Token.lexeme, hk]
        exact begins_self (.descending hpath) trivial
    · exact absurd h run_pure_ne_error

theorem begins : Begins Key.Derived Any [] :=
  begins_nil (.ascending (.one .ident)) trivial readable_name

end Key

theorem Order.fails : Fails parser Order.Derived Any limit d := by
  have hkeys : Fails parser Order.Derived (fun o => ∀ k ∈ o, True) limit d :=
    Key.fails.separated Key.recognizes Key.begins Key.balanced
  simpa using hkeys

end Sift
