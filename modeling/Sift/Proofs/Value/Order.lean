import Sift.Proofs.Text.Utf8
import Sift.Proofs.Value.Comparison

/-!
# The order of literals

On strings, and on integers, the operators agree on one total order. For strings it is the order of
code points, which their bytes have as well, and `:` finds the same in the bytes as in the
characters. Booleans only have equality, and nothing holds between two types.
-/

namespace Sift

/-- What the operators say of two sequences of bytes. -/
def Comparison.ofBytes (op : Comparison) (s t : List UInt8) : Prop :=
  match op with
  | .has => t <:+: s
  | _ => op.ofOrder (some (compareOfLessAndEq s t)) = true

namespace Value

/-- The operators agree on one total order of the values `f a`. -/
structure Ordered {α : Type} (f : α → Value) : Prop where
  existsUnique : ∀ a b, ∃! op, op ∈ [Comparison.lt, .eq, .gt] ∧ compare op (f a) (f b) = true
  eq_iff : ∀ a b, compare .eq (f a) (f b) ↔ a = b
  ne_iff : ∀ a b, compare .ne (f a) (f b) ↔ ¬ compare .eq (f a) (f b)
  le_iff : ∀ a b, compare .le (f a) (f b) ↔ compare .lt (f a) (f b) ∨ compare .eq (f a) (f b)
  ge_iff : ∀ a b, compare .ge (f a) (f b) ↔ compare .gt (f a) (f b) ∨ compare .eq (f a) (f b)
  lt_iff : ∀ a b, compare .lt (f a) (f b) ↔ compare .gt (f b) (f a)
  lt_trans : ∀ a b c, compare .lt (f a) (f b) → compare .lt (f b) (f c) → compare .lt (f a) (f c)

/-- Values that compare by a key are ordered as their keys are. -/
theorem Ordered.of_key {α β : Type} [Ord β] [Std.TransOrd β] [Std.LawfulEqOrd β] {f : α → Value}
    (key : α → β) (hkey : ∀ a b, key a = key b → a = b) (hf : ∀ op, op ≠ .has → ∀ a b,
      compare op (f a) (f b) = op.ofOrder (some (Ord.compare (key a) (key b)))) : Ordered f where
  existsUnique a b := by
    cases h : Ord.compare (key a) (key b) with
    | lt => exact ⟨.lt, by simp [hf, h, Comparison.ofOrder], by simp [hf, h, Comparison.ofOrder]⟩
    | eq => exact ⟨.eq, by simp [hf, h, Comparison.ofOrder], by simp [hf, h, Comparison.ofOrder]⟩
    | gt => exact ⟨.gt, by simp [hf, h, Comparison.ofOrder], by simp [hf, h, Comparison.ofOrder]⟩
  eq_iff a b := by
    rw [hf _ (by decide)]
    constructor
    · intro h
      exact hkey a b (Std.LawfulEqOrd.eq_of_compare (by simpa [Comparison.ofOrder] using h))
    · rintro rfl
      simp [Comparison.ofOrder]
  ne_iff a b := by simp [hf, Comparison.ofOrder]
  le_iff a b := by simp [hf, Comparison.ofOrder]
  ge_iff a b := by simp [hf, Comparison.ofOrder]
  lt_iff a b := by
    rw [← compare_mirror (by decide)]
    rfl
  lt_trans a b c hab hbc := by
    simp only [hf _ (show Comparison.lt ≠ .has by decide), Comparison.ofOrder, beq_iff_eq,
      Option.some.injEq] at *
    exact Std.TransCmp.lt_trans hab hbc

/-! ## Strings -/

theorem compare_string_of_ne_has {op : Comparison} (hop : op ≠ .has) (s t : String) :
    compare op (string s) (string t) = op.ofOrder (some (Ord.compare s t)) := by
  cases op with
  | has => exact absurd rfl hop
  | _ => rfl

theorem compare_string_has {s t : String} :
    compare .has (string s) (string t) ↔ t.toList <:+: s.toList := Text.occursIn_iff

theorem compare_string_lt {s t : String} : compare .lt (string s) (string t) ↔ s < t := by
  rw [compare_string_of_ne_has (by decide), Comparison.ofOrder, beq_iff_eq, Option.some_inj]
  exact compareOfLessAndEq_eq_lt

theorem compare_string_iff_ofBytes (op : Comparison) (s t : String) :
    compare op (string s) (string t) ↔ op.ofBytes (Text.bytes s) (Text.bytes t) := by
  have horder : Ord.compare s t = compareOfLessAndEq (Text.bytes s) (Text.bytes t) := by
    show compareOfLessAndEq s t = _
    simp only [compareOfLessAndEq, Text.bytes_lt_iff, Text.bytes_inj]
  cases op with
  | has => rw [compare_string_has, Comparison.ofBytes, Text.bytes_infix_iff]
  | _ =>
      rw [compare_string_of_ne_has (by decide), horder]
      rfl

theorem infix_toList_iff {s t : String} : t.toList <:+: s.toList ↔ ∃ p q, s = p ++ t ++ q := by
  constructor
  · rintro ⟨p, q, h⟩
    exact ⟨.ofList p, .ofList q, by simp [← String.toList_inj, ← h]⟩
  · rintro ⟨p, q, rfl⟩
    exact ⟨p.toList, q.toList, by simp⟩

/-! ## Two types -/

theorem compare_of_typeName_ne (op : Comparison) {v w : Value} (h : v.typeName ≠ w.typeName) :
    compare op v w = false := by
  cases v with
  | wildcard | ident _ => rfl
  | int m => cases w with
    | int n => exact absurd rfl h
    | _ => rfl
  | float x => cases w with
    | float y => exact absurd rfl h
    | _ => rfl
  | string s => cases w with
    | string t => exact absurd rfl h
    | _ => rfl
  | boolean a => cases w with
    | boolean b => exact absurd rfl h
    | _ => rfl

theorem compare_of_not_literal (op : Comparison) {v : Value}
    (hv : v.typeName ∈ ["identifier", "wildcard"]) (w : Value) : compare op v w = false := by
  cases v with
  | ident | wildcard => rfl
  | _ => simp [typeName] at hv

/-- Strings and integers each compare by one total order, that of code points or of bytes and that
of numbers, and a string has those that are a part of its characters or of its bytes. Booleans are
equal or not, and no operator holds between two types, between names or between wildcards. -/
theorem compare_lawful :
    (Ordered string ∧
      (∀ op s t, compare op (string s) (string t) ↔ op.ofBytes (Text.bytes s) (Text.bytes t)) ∧
      (∀ s t, compare .lt (string s) (string t) ↔ Text.codePoints s < Text.codePoints t) ∧
      ∀ s t, compare .has (string s) (string t) ↔ ∃ p q, s = p ++ t ++ q) ∧
    (Ordered int ∧ (∀ m n, compare .lt (int m) (int n) ↔ m.toInt < n.toInt) ∧
      ∀ m n, compare .has (int m) (int n) = false) ∧
    (∀ a b, (compare .eq (boolean a) (boolean b) ↔ a = b) ∧
      (compare .ne (boolean a) (boolean b) ↔ a ≠ b) ∧
      ∀ op, op ≠ .eq → op ≠ .ne → compare op (boolean a) (boolean b) = false) ∧
    ∀ op v w, v.typeName ≠ w.typeName ∨ v.typeName ∈ ["identifier", "wildcard"] →
      compare op v w = false := by
  refine ⟨⟨?strings, compare_string_iff_ofBytes, fun s t => ?codePoints, fun s t => ?parts⟩,
    ⟨?ints, fun m n => ?numbers, fun m n => rfl⟩, fun a b => ?booleans, fun op v w h => ?types⟩
  case strings => exact .of_key id (fun _ _ h => h) fun op hop => compare_string_of_ne_has hop
  case codePoints => rw [compare_string_lt, Text.codePoints_lt_iff]
  case parts => rw [compare_string_has, infix_toList_iff]
  case ints => exact .of_key Int64.toInt (fun _ _ => Int64.toInt_inj.1) fun op _ m n => rfl
  case numbers =>
    rw [compare, Comparison.ofOrder, beq_iff_eq, Option.some_inj]
    exact compareOfLessAndEq_eq_lt
  case booleans =>
    refine ⟨beq_iff_eq, bne_iff_ne, fun op heq hne => ?_⟩
    cases op with
    | eq => exact absurd rfl heq
    | ne => exact absurd rfl hne
    | _ => rfl
  case types =>
    rcases h with h | h
    · exact compare_of_typeName_ne op h
    · exact compare_of_not_literal op h w

/-- An integer and a string are neither equal nor different. -/
theorem compare_lawful_int_string :
    (int 1).typeName ≠ (string "1").typeName ∧
      compare .eq (int 1) (string "1") = false ∧ compare .ne (int 1) (string "1") = false :=
  have h : (int 1).typeName ≠ (string "1").typeName := by decide
  ⟨h, compare_lawful.2.2.2 .eq _ _ (.inl h), compare_lawful.2.2.2 .ne _ _ (.inl h)⟩

end Value

end Sift
