import Mathlib.Computability.Language
import Sift.Token.Pattern

/-!
# The languages of patterns

`longest` agrees with the language of a pattern: it finds a prefix exactly when some prefix of the
text is in the language, and then the longest such prefix.
-/

namespace Sift.Pattern

open scoped Computability

/-- The set of character sequences that a pattern describes. -/
def language : Pattern → Language Char
  | never => 0
  | empty => 1
  | char accepts => {w | ∃ c, accepts c = true ∧ w = [c]}
  | seq p q => p.language * q.language
  | alt p q => p.language + q.language
  | star p => p.language∗

/-! ## Words of each pattern -/

theorem notMem_never {w : List Char} : w ∉ never.language := Language.notMem_zero w

@[simp] theorem mem_empty {w : List Char} : w ∈ empty.language ↔ w = [] := Language.mem_one w

@[simp] theorem mem_char {accepts : Char → Bool} {w : List Char} :
    w ∈ (char accepts).language ↔ ∃ c, accepts c = true ∧ w = [c] := Iff.rfl

theorem mem_seq {p q : Pattern} {w : List Char} :
    w ∈ (seq p q).language ↔ ∃ u ∈ p.language, ∃ v ∈ q.language, u ++ v = w := Language.mem_mul

@[simp] theorem mem_alt {p q : Pattern} {w : List Char} :
    w ∈ (alt p q).language ↔ w ∈ p.language ∨ w ∈ q.language := Language.mem_add _ _ _

@[simp] theorem mem_exactly {c : Char} {w : List Char} : w ∈ (exactly c).language ↔ w = [c] := by
  simp [exactly]

@[simp] theorem mem_optional {p : Pattern} {w : List Char} :
    w ∈ p.optional.language ↔ w ∈ p.language ∨ w = [] := by
  simp [optional]

theorem mem_exactly_seq {c : Char} {q : Pattern} {w : List Char} :
    w ∈ (seq (exactly c) q).language ↔ ∃ v ∈ q.language, w = c :: v := by
  simp only [mem_seq, mem_exactly]
  constructor
  · rintro ⟨_, rfl, v, hv, rfl⟩
    exact ⟨v, hv, rfl⟩
  · rintro ⟨v, hv, rfl⟩
    exact ⟨_, rfl, v, hv, rfl⟩

@[simp] theorem mem_word {w v : List Char} : v ∈ (word w).language ↔ v = w := by
  induction w generalizing v with
  | nil => simp [word]
  | cons c r ih =>
      cases r with
      | nil => simp [word]
      | cons d r => simp [word, mem_exactly_seq, ih]

@[simp] theorem mem_oneOf {ws : List (List Char)} {v : List Char} :
    v ∈ (oneOf ws).language ↔ v ∈ ws := by
  induction ws with
  | nil => simp [oneOf, notMem_never]
  | cons w ws ih =>
      cases ws with
      | nil => simp [oneOf]
      | cons w' ws => simp [oneOf, ih]

@[simp] theorem nil_mem_star {p : Pattern} : [] ∈ p.star.language := Language.nil_mem_kstar _

/-- A word of a star that is not empty begins with a word of the pattern that is not empty. -/
theorem cons_mem_star {p : Pattern} {c : Char} {w : List Char} :
    c :: w ∈ p.star.language ↔
      ∃ u v, c :: u ∈ p.language ∧ v ∈ p.star.language ∧ u ++ v = w := by
  constructor
  · intro h
    obtain ⟨parts, hw, hparts⟩ := Language.mem_kstar_iff_exists_nonempty.1 h
    cases parts with
    | nil => simp at hw
    | cons part parts =>
        obtain ⟨hmem, hne⟩ := hparts part List.mem_cons_self
        obtain ⟨d, u, rfl⟩ := List.exists_cons_of_ne_nil hne
        simp only [List.flatten_cons, List.cons_append, List.cons.injEq] at hw
        obtain ⟨rfl, rfl⟩ := hw
        exact ⟨u, parts.flatten, hmem,
          Language.join_mem_kstar fun y hy => (hparts y (List.mem_cons_of_mem _ hy)).1, rfl⟩
  · rintro ⟨u, v, hu, hv, rfl⟩
    obtain ⟨parts, rfl, hparts⟩ := Language.mem_kstar.1 hv
    refine Language.mem_kstar.2 ⟨(c :: u) :: parts, rfl, ?_⟩
    simpa using And.intro hu hparts

@[simp] theorem mem_star_char {accepts : Char → Bool} {w : List Char} :
    w ∈ (star (char accepts)).language ↔ ∀ c ∈ w, accepts c = true := by
  induction w with
  | nil => simp
  | cons c w ih =>
      rw [cons_mem_star]
      constructor
      · rintro ⟨u, v, ⟨d, hd, he⟩, hv, rfl⟩
        cases he
        simpa using And.intro hd (ih.1 hv)
      · intro h
        exact ⟨[], w, ⟨c, h c List.mem_cons_self, rfl⟩,
          ih.2 fun d hd => h d (List.mem_cons_of_mem _ hd), rfl⟩

@[simp] theorem mem_plus_char {accepts : Char → Bool} {w : List Char} :
    w ∈ (plus (char accepts)).language ↔ w ≠ [] ∧ ∀ c ∈ w, accepts c = true := by
  simp only [plus, mem_seq, mem_char, mem_star_char]
  constructor
  · rintro ⟨_, ⟨c, hc, rfl⟩, v, hv, rfl⟩
    simpa using And.intro hc hv
  · rintro ⟨hne, h⟩
    obtain ⟨c, v, rfl⟩ := List.exists_cons_of_ne_nil hne
    exact ⟨[c], ⟨c, h c List.mem_cons_self, rfl⟩, v,
      fun d hd => h d (List.mem_cons_of_mem _ hd), rfl⟩

/-! ## Derivatives -/

theorem nullable_iff {p : Pattern} : p.nullable = true ↔ [] ∈ p.language := by
  induction p with
  | never => simpa [nullable] using notMem_never
  | empty => simp [nullable]
  | char accepts => simp [nullable]
  | seq p q ihp ihq => simp [nullable, mem_seq, ihp, ihq]
  | alt p q ihp ihq => simp [nullable, ihp, ihq]
  | star p _ => simp [nullable]

theorem mem_andThen {p q : Pattern} {w : List Char} :
    w ∈ (p.andThen q).language ↔ w ∈ (seq p q).language := by
  unfold andThen
  split
  · simp [mem_seq, notMem_never]
  · simp [mem_seq]
  · rfl

theorem mem_orElse {p q : Pattern} {w : List Char} :
    w ∈ (p.orElse q).language ↔ w ∈ p.language ∨ w ∈ q.language := by
  unfold orElse
  split
  · simp [notMem_never]
  · simp [notMem_never]
  · simp

/-- The first word of a sequence is empty, or it gives the first character. -/
theorem cons_mem_seq {p q : Pattern} {c : Char} {w : List Char} :
    c :: w ∈ (seq p q).language ↔
      (∃ u, c :: u ∈ p.language ∧ ∃ v ∈ q.language, u ++ v = w) ∨
        ([] ∈ p.language ∧ c :: w ∈ q.language) := by
  rw [mem_seq]
  constructor
  · rintro ⟨u, hu, v, hv, he⟩
    cases u with
    | nil => exact Or.inr ⟨hu, by simpa [← he] using hv⟩
    | cons d u =>
        cases he
        exact Or.inl ⟨u, hu, v, hv, rfl⟩
  · rintro (⟨u, hu, v, hv, rfl⟩ | ⟨hu, hw⟩)
    · exact ⟨c :: u, hu, v, hv, rfl⟩
    · exact ⟨[], hu, c :: w, hw, rfl⟩

/-- `p.after c` describes what may follow `c` in a word of `p`. -/
theorem mem_after {p : Pattern} {c : Char} {w : List Char} :
    w ∈ (p.after c).language ↔ c :: w ∈ p.language := by
  induction p generalizing w with
  | never => simp [after, notMem_never]
  | empty => simp [after, notMem_never]
  | char accepts =>
      by_cases h : accepts c = true <;> simp [after, h, notMem_never]
  | seq p q ihp ihq =>
      rw [cons_mem_seq, ← nullable_iff]
      by_cases h : p.nullable = true <;> simp [after, h, mem_orElse, mem_andThen, mem_seq, ihp, ihq]
  | alt p q ihp ihq => simp [after, mem_orElse, ihp, ihq]
  | star p ih =>
      rw [cons_mem_star, after, mem_andThen, mem_seq]
      simp only [ih]
      constructor
      · rintro ⟨u, hu, v, hv, rfl⟩
        exact ⟨u, v, hu, hv, rfl⟩
      · rintro ⟨u, v, hu, hv, rfl⟩
        exact ⟨u, hu, v, hv, rfl⟩

/-! ## The longest prefix -/

@[simp] theorem longest_never (s : List Char) : never.longest s = none := by
  cases s <;> rfl

theorem longest_nil (p : Pattern) :
    p.longest [] = if p.nullable then some ([], []) else none := by
  cases p <;> rfl

theorem longest_cons (p : Pattern) (c : Char) (r : List Char) :
    p.longest (c :: r) =
      match (p.after c).longest r with
      | some (w, rest) => some (c :: w, rest)
      | none => if p.nullable then some ([], c :: r) else none := by
  cases p with
  | never => simp [after, nullable]
  | _ => rfl

theorem mem_of_longest {p : Pattern} {s w r : List Char} (h : p.longest s = some (w, r)) :
    w ∈ p.language := by
  induction s generalizing p w with
  | nil =>
      rw [longest_nil] at h
      split at h
      · cases h
        exact nullable_iff.1 ‹_›
      · cases h
  | cons c s ih =>
      rw [longest_cons] at h
      split at h
      · next w' r' hw =>
          cases h
          exact mem_after.1 (ih hw)
      · split at h
        · cases h
          exact nullable_iff.1 ‹_›
        · cases h

/-- Any prefix in the language bounds the longest one from below. -/
theorem exists_longest {p : Pattern} {s v : List Char} (hv : v ∈ p.language) (hs : v <+: s) :
    ∃ w r, p.longest s = some (w, r) ∧ v.length ≤ w.length := by
  induction s generalizing p v with
  | nil =>
      obtain rfl := List.prefix_nil.1 hs
      exact ⟨[], [], by rw [longest_nil, if_pos (nullable_iff.2 hv)], Nat.le_refl _⟩
  | cons c s ih =>
      rw [longest_cons]
      cases hl : (p.after c).longest s with
      | some found =>
          refine ⟨c :: found.1, found.2, rfl, ?_⟩
          cases v with
          | nil => simp
          | cons d v =>
              obtain ⟨rfl, hvs⟩ := List.cons_prefix_cons.1 hs
              obtain ⟨w, r, hw, hle⟩ := ih (mem_after.2 hv) hvs
              obtain rfl : found = (w, r) := by simpa [hl] using hw
              simpa using hle
      | none =>
          cases v with
          | nil => exact ⟨[], c :: s, by simp [nullable_iff.2 hv], Nat.le_refl _⟩
          | cons d v =>
              obtain ⟨rfl, hvs⟩ := List.cons_prefix_cons.1 hs
              obtain ⟨w, r, hw, -⟩ := ih (mem_after.2 hv) hvs
              rw [hl] at hw
              cases hw

theorem longest_eq_none_iff {p : Pattern} {s : List Char} :
    p.longest s = none ↔ ∀ v ∈ p.language, ¬ v <+: s := by
  constructor
  · intro h v hv hs
    obtain ⟨w, r, hw, -⟩ := exists_longest hv hs
    rw [h] at hw
    cases hw
  · intro h
    cases hl : p.longest s with
    | none => rfl
    | some found =>
        obtain ⟨w, r⟩ := found
        exact absurd ⟨r, append_of_longest hl⟩ (h w (mem_of_longest hl))

theorem longest_eq_some_iff {p : Pattern} {s w r : List Char} :
    p.longest s = some (w, r) ↔
      w ++ r = s ∧ w ∈ p.language ∧ ∀ v ∈ p.language, v <+: s → v.length ≤ w.length := by
  constructor
  · intro h
    refine ⟨append_of_longest h, mem_of_longest h, fun v hv hs => ?_⟩
    obtain ⟨w', r', hw, hle⟩ := exists_longest hv hs
    obtain ⟨rfl, rfl⟩ : w = w' ∧ r = r' := by simpa [h] using hw
    exact hle
  · rintro ⟨rfl, hw, hmax⟩
    obtain ⟨w', r', hl, hle⟩ := exists_longest hw (List.prefix_append w r)
    have happ := append_of_longest hl
    have hge := hmax w' (mem_of_longest hl) ⟨r', happ⟩
    obtain ⟨rfl, rfl⟩ := List.append_inj happ (Nat.le_antisymm hge hle)
    exact hl

end Sift.Pattern
