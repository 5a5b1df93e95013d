import Sift.Value.Basic

/-!
# Comparisons and their symbols

A comparison is found by its symbol, and each has a mirror image that says the same of its operands
in the other order.
-/

namespace Sift

namespace Comparison

theorem symbol_injective {op op' : Comparison} (h : op.symbol = op'.symbol) : op = op' := by
  revert h
  cases op <;> cases op' <;> decide

theorem ofSymbol?_eq_some_iff {s : String} {op : Comparison} :
    ofSymbol? s = some op ↔ op.symbol = s := by
  constructor
  · intro h
    simpa using List.find?_some h
  · rintro rfl
    cases op <;> decide

/-! ## Mirror images -/

/-- What the operator becomes when its operands change places. -/
def mirror : Comparison → Comparison
  | eq => eq
  | ne => ne
  | gt => lt
  | ge => le
  | lt => gt
  | le => ge
  | has => has

theorem ofOrder_mirror (op : Comparison) (o : Option Ordering) :
    op.mirror.ofOrder (o.map Ordering.swap) = op.ofOrder o := by
  rcases o with _ | _ | _ | _ <;> cases op <;> rfl

end Comparison

theorem Binary64.compare?_swap (x y : Binary64) :
    (x.compare? y).map Ordering.swap = y.compare? x := by
  unfold compare?
  rw [Bool.or_comm]
  split
  · rfl
  · rw [Option.map_some, Int.compare_swap]

namespace Value

open Comparison (ofOrder_mirror)

/-- In the other order, values compare by the mirror image. Only `:` asks something else of each
side. -/
theorem compare_mirror {op : Comparison} (hop : op ≠ .has) (v w : Value) :
    compare op.mirror w v = compare op v w := by
  cases v with
  | int m =>
      cases w with
      | int n => simp only [compare, ← ofOrder_mirror op, Option.map_some, Int.compare_swap]
      | _ => rfl
  | float x =>
      cases w with
      | float y => simp only [compare, ← ofOrder_mirror op, Binary64.compare?_swap]
      | _ => rfl
  | string s =>
      cases w with
      | string t =>
          have hswap : (Ord.compare s t).swap = Ord.compare t s := Std.OrientedOrd.eq_swap.symm
          have hmirror := ofOrder_mirror op (some (Ord.compare s t))
          rw [Option.map_some, hswap] at hmirror
          cases op with
          | has => exact absurd rfl hop
          | _ => exact hmirror
      | _ => rfl
  | boolean a =>
      cases w with
      | boolean b => cases op <;> cases a <;> cases b <;> rfl
      | _ => rfl
  | wildcard | ident name => cases w <;> rfl

end Value

end Sift
