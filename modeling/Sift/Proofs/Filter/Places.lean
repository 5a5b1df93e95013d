import Sift.Filter.Parser
import Sift.Proofs.Parse.Places

/-!
# The parser of filters takes no notice of places
-/

namespace Sift

open Sift.Parser

variable {c : Cursor}

/-! ## Values and paths -/

namespace Value

theorem placeless_accept (v : Value) : Placeless (accept v) :=
  fun _ => PlacelessAt.advance.bind fun _ _ _ => .pure rfl

theorem placeless_invalid (sort : NumberKind) : Placeless (invalid sort) :=
  fun _ => PlacelessAt.current.bind fun _ _ _ => .fail

theorem placeless_acceptInt (t : Token) : Placeless (acceptInt t) := by
  unfold acceptInt
  split
  · exact placeless_accept _
  · exact placeless_invalid _

theorem placeless_acceptFloat (t : Token) : Placeless (acceptFloat t) := by
  unfold acceptFloat
  split
  · split
    · exact placeless_accept _
    · exact placeless_invalid _
  · exact placeless_invalid _

theorem placeless : Placeless parser := by
  intro c
  apply PlacelessAt.current_bind fun _ => rfl
  cases c.current.kind with
  | float => exact placeless_acceptFloat _ c
  | int => exact placeless_acceptInt _ c
  | star | string | trueWord | falseWord | ident => exact placeless_accept _ c
  | _ => exact .unexpected

end Value

theorem Field.placeless : Placeless parser := by
  intro c
  have hkeyword : PlacelessAt c id (do return keyword (← advance).text)
      (do return keyword (← advance).text) := PlacelessAt.advance.bind fun _ _ _ => .pure rfl
  apply PlacelessAt.current_bind fun _ => rfl
  cases c.current.kind with
  | andWord | orWord | notWord => exact hkeyword
  | _ => exact (Value.placeless c).map

theorem Path.placeless : Placeless parser := Field.placeless.followed

/-! ## From parentheses to filters -/

theorem inParens_placeless {α : Type} {p : Parser α} (h : Placeless p) : Placeless (inParens p) := by
  intro c
  apply PlacelessAt.expect.bind
  intro _ c₁ _
  apply (h c₁).bind
  intro _ _ _
  exact PlacelessAt.expect.bind fun _ _ _ => .pure rfl

theorem Comparison.placeless : Placeless parser := by
  intro c
  apply PlacelessAt.current_bind fun _ => rfl
  split
  · exact PlacelessAt.advance.bind fun _ _ _ => .pure rfl
  · exact .unexpected

section

variable {inner : Enclosed} (hgroup : Placeless inner.group) (hargs : Placeless inner.args)

include hargs in
theorem Comparable.placeless : Placeless (parser inner) := by
  intro c
  apply (Value.placeless c).bind
  intro _ c₁ _
  apply (Path.placeless c₁).bind
  intro _ c₂ _
  exact .looksAt (fun _ => (hargs c₂).map) fun _ => .pure rfl

include hgroup hargs in
theorem Arg.placeless : Placeless (parser inner) :=
  fun c => .looksAt (fun _ => (hgroup c).map) fun _ => (Comparable.placeless hargs c).map

include hgroup hargs in
theorem Args.placeless : Placeless (parser inner) :=
  fun c => .looksAt (fun _ => .pure rfl) fun _ => (Arg.placeless hgroup hargs).separated c

include hgroup hargs in
theorem Simple.placeless : Placeless (parser inner) := by
  intro c
  apply PlacelessAt.looksAt
  · intro _
    exact (hgroup c).map
  · intro _
    apply (Comparable.placeless hargs c).bind
    intro _ c₁ _
    apply PlacelessAt.looksAt
    · intro _
      apply (Comparison.placeless c₁).bind
      intro _ c₂ _
      exact (Arg.placeless hgroup hargs c₂).map
    · intro _
      exact .pure rfl

include hgroup hargs in
theorem Term.placeless : Placeless (parser inner) := by
  intro c
  apply PlacelessAt.current_bind fun _ => rfl
  dsimp only
  split
  · apply PlacelessAt.advance.bind
    intro _ c₁ _
    exact (Simple.placeless hgroup hargs c₁).map
  · exact (Simple.placeless hgroup hargs c).map

include hgroup hargs in
theorem Filter.placeless_within : Placeless (parserWithin inner) :=
  ((Term.placeless hgroup hargs).separated).separated

end

namespace Filter

theorem placeless_tooDeep {α : Type} : Placeless (tooDeep : Parser α) :=
  fun _ => PlacelessAt.current.bind fun _ _ _ => .fail

theorem placeless_enclosed (d : Nat) :
    Placeless (enclosed d).group ∧ Placeless (enclosed d).args := by
  induction d with
  | zero => exact ⟨placeless_tooDeep, placeless_tooDeep⟩
  | succ d ih =>
      obtain ⟨hgroup, hargs⟩ := ih
      exact ⟨inParens_placeless (placeless_within hgroup hargs),
        inParens_placeless (Args.placeless hgroup hargs)⟩

theorem placeless : Placeless parser :=
  placeless_within (placeless_enclosed maxDepth).1 (placeless_enclosed maxDepth).2

end Filter

end Sift
