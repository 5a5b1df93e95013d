import Mathlib.Data.List.Nodup
import Sift.Proofs.Number.Decimal
import Sift.Proofs.Token.Language
import Sift.Token.Grammar

/-!
# Which rule applies

A rule that no word of the text can begin with is passed over. The words of the rules for names and
numbers are spelled out, together with the places where a longest match of each has to end.
-/

namespace Sift

/-! ## First characters -/

/-- Whether a word of the pattern may begin with `c`. -/
def Pattern.first (c : Char) : Pattern → Bool
  | never => false
  | empty => false
  | char accepts => accepts c
  | seq p q => p.first c || (p.nullable && q.first c)
  | alt p q => p.first c || q.first c
  | star p => p.first c

theorem Pattern.first_of_mem {p : Pattern} {c : Char} {w : List Char}
    (h : c :: w ∈ p.language) : p.first c = true := by
  induction p generalizing w with
  | never => exact absurd h notMem_never
  | empty => simp at h
  | char accepts =>
      obtain ⟨d, hd, he⟩ := h
      cases he
      exact hd
  | seq p q ihp ihq =>
      rcases cons_mem_seq.1 h with ⟨u, hu, -⟩ | ⟨hnil, hw⟩
      · simp [first, ihp hu]
      · simp [first, nullable_iff.2 hnil, ihq hw]
  | alt p q ihp ihq =>
      rcases mem_alt.1 h with hp | hq
      · simp [first, ihp hp]
      · simp [first, ihq hq]
  | star p ih =>
      obtain ⟨u, v, hu, -, -⟩ := cons_mem_star.1 h
      exact ih hu

namespace Rule

theorem read_eq_none_iff {r : Rule} {s : List Char} :
    r.read s = none ↔ ∀ v ∈ r.pattern.language, ¬ v <+: s := Pattern.longest_eq_none_iff

theorem read_eq_some_iff {r : Rule} {s w rest : List Char} :
    r.read s = some (w, rest) ↔
      w ++ rest = s ∧ w ∈ r.pattern.language ∧
        ∀ v ∈ r.pattern.language, v <+: s → v.length ≤ w.length := Pattern.longest_eq_some_iff

theorem nil_notMem (r : Rule) : [] ∉ r.pattern.language := by
  rw [← Pattern.nullable_iff, r.proper]
  simp

theorem read_nil (r : Rule) : r.read [] = none := by
  refine read_eq_none_iff.2 fun v hv hs => r.nil_notMem ?_
  rwa [List.prefix_nil.1 hs] at hv

theorem read_eq_none_of_first {r : Rule} {c : Char} {s : List Char}
    (h : r.pattern.first c = false) : r.read (c :: s) = none := by
  refine read_eq_none_iff.2 fun v hv hs => ?_
  cases v with
  | nil => exact r.nil_notMem hv
  | cons d v =>
      obtain ⟨rfl, -⟩ := List.cons_prefix_cons.1 hs
      rw [Pattern.first_of_mem hv] at h
      cases h

end Rule

namespace Grammar

open Pattern
open Decimal (IsDigits)

variable {g : Grammar}

/-! ## The first rule that applies -/

theorem split?_nil (g : Grammar) : g.split? [] = none := by
  simp [split?, List.findSome?_eq_none_iff, Rule.read_nil]

theorem split?_eq_none_iff {s : List Char} :
    g.split? s = none ↔ ∀ r ∈ g.rules, ∀ w ∈ r.pattern.language, ¬ w <+: s := by
  simp [split?, List.findSome?_eq_none_iff, Rule.read_eq_none_iff]

theorem split?_of_rules (n : Nat) {k : Kind} {p : Pattern} {hp : p.nullable = false}
    {s w rest : List Char} (hr : g.rules[n]? = some ⟨k, p, hp⟩)
    (hbefore : ∀ r ∈ g.rules.take n, r.read s = none) (hread : p.longest s = some (w, rest)) :
    g.split? s = some (k, w, rest) := by
  obtain ⟨hn, hr⟩ := List.getElem?_eq_some_iff.1 hr
  have hsplit : g.rules = g.rules.take n ++ ⟨k, p, hp⟩ :: g.rules.drop (n + 1) := by
    rw [← hr, ← List.drop_eq_getElem_cons hn, List.take_append_drop]
  exact List.findSome?_eq_some_iff.2
    ⟨_, _, _, hsplit, by simp [Rule.read, hread], fun r h => by simp [hbefore r h]⟩

/-- As `split?_of_rules`, where the first character keeps the earlier rules away. -/
theorem split?_of_first (n : Nat) {k : Kind} {p : Pattern} {hp : p.nullable = false} {c : Char}
    {s w rest : List Char} (hr : g.rules[n]? = some ⟨k, p, hp⟩)
    (hbefore : ∀ r ∈ g.rules.take n, r.pattern.first c = false)
    (hread : p.longest (c :: s) = some (w, rest)) : g.split? (c :: s) = some (k, w, rest) :=
  split?_of_rules n hr (fun r h => Rule.read_eq_none_of_first (hbefore r h)) hread

theorem exists_rule_of_split? {k : Kind} {s w rest : List Char}
    (h : g.split? s = some (k, w, rest)) :
    ∃ r ∈ g.rules, r.kind = k ∧ r.read s = some (w, rest) := by
  obtain ⟨r, hr, hread⟩ := List.exists_of_findSome?_eq_some h
  obtain ⟨found, hfound, he⟩ := Option.map_eq_some_iff.1 hread
  cases he
  exact ⟨r, hr, rfl, hfound⟩

/-! ## The rule of a kind -/

theorem nodup_kinds (g : Grammar) : g.kinds.Nodup := by cases g <;> decide

theorem eq_of_kind_eq {r r' : Rule} (hr : r ∈ g.rules) (hr' : r' ∈ g.rules)
    (h : r.kind = r'.kind) : r = r' := List.inj_on_of_nodup_map g.nodup_kinds hr hr' h

theorem pattern_of_space {r : Rule} (hr : r ∈ g.rules) (h : r.kind = .space) :
    r.pattern = space.pattern := by
  have hmem : space ∈ g.rules := by cases g <;> simp [rules]
  rw [eq_of_kind_eq hr hmem h]

theorem pattern_of_ident {r : Rule} (hr : r ∈ g.rules) (h : r.kind = .ident) :
    r.pattern = ident.pattern := by
  have hmem : ident ∈ g.rules := by cases g <;> simp [rules]
  rw [eq_of_kind_eq hr hmem h]

theorem eq_filter_of_string {r : Rule} (hr : r ∈ g.rules) (h : r.kind = .string) : g = .filter := by
  cases g with
  | filter => rfl
  | orderBy =>
      have hnone : ∀ r ∈ orderBy.rules, r.kind ≠ .string := by decide
      exact absurd h (hnone r hr)

theorem pattern_of_string {r : Rule} (hr : r ∈ g.rules) (h : r.kind = .string) :
    r.pattern = alt (quotedBy '\'') (quotedBy '"') := by
  obtain rfl := eq_filter_of_string hr h
  have hmem : ⟨.string, alt (quotedBy '\'') (quotedBy '"'), rfl⟩ ∈ filter.rules := by simp [rules]
  rw [eq_of_kind_eq hr hmem h]

/-- Rules before the first one of the kind that was found do not apply. -/
theorem read_eq_none_of_split? {k : Kind} {s w rest : List Char}
    (h : g.split? s = some (k, w, rest)) (n : Nat) (hk : k ∉ (g.rules.take n).map Rule.kind) :
    ∀ r ∈ g.rules.take n, r.read s = none := by
  rw [split?, ← List.take_append_drop n g.rules, List.findSome?_append] at h
  rcases Option.or_eq_some_iff.1 h with h | ⟨hnone, -⟩
  · obtain ⟨r, hr, hread⟩ := List.exists_of_findSome?_eq_some h
    obtain ⟨_, -, he⟩ := Option.map_eq_some_iff.1 hread
    cases he
    exact absurd (List.mem_map_of_mem hr) hk
  · simpa [List.findSome?_eq_none_iff] using hnone

/-! ## Classes of characters -/

/-- What may stand in a name after its first character. -/
def isWordChar (c : Char) : Bool := isLetter c || c.isDigit

theorem toNat_lt_of_isWordChar {c : Char} (h : isWordChar c = true) : c.toNat < 128 := by
  simp only [isWordChar, isLetter, Bool.or_eq_true, beq_iff_eq] at h
  rcases h with (h | rfl) | h
  · rcases Bool.or_eq_true_iff.1 h with hupper | hlower
    · exact Nat.lt_of_le_of_lt (UInt32.le_iff_toNat_le.1 (of_decide_eq_true hupper).2) (by decide)
    · have hle := of_decide_eq_true (Bool.and_eq_true_iff.1 hlower).2
      exact Nat.lt_of_le_of_lt (UInt32.le_iff_toNat_le.1 hle) (by decide)
  · decide
  · have hle := of_decide_eq_true (Bool.and_eq_true_iff.1 h).2
    exact Nat.lt_of_le_of_lt (UInt32.le_iff_toNat_le.1 hle) (by decide)

/-- Word characters are few enough to try them all. -/
theorem forall_isWordChar {P : Char → Prop}
    (h : ∀ n < 128, isWordChar (Char.ofNat n) = true → P (Char.ofNat n)) {c : Char}
    (hc : isWordChar c = true) : P c := by
  have hn := h c.toNat (toNat_lt_of_isWordChar hc)
  rw [Char.ofNat_toNat] at hn
  exact hn hc

theorem isWordChar_of_isLetter {c : Char} (h : isLetter c = true) : isWordChar c = true := by
  simp [isWordChar, h]

theorem isWordChar_of_isDigit {c : Char} (h : c.isDigit = true) : isWordChar c = true := by
  simp [isWordChar, h]

theorem isLetter_ne_isDigit {c : Char} (h : isLetter c = true) : c.isDigit = false :=
  forall_isWordChar (P := fun c => isLetter c = true → c.isDigit = false) (by decide +kernel)
    (isWordChar_of_isLetter h) h

/-! ## Words of the rules -/

theorem mem_space {w : List Char} :
    w ∈ space.pattern.language ↔ w ≠ [] ∧ ∀ c ∈ w, isSpace c = true := mem_plus_char

theorem mem_ident {w : List Char} : w ∈ ident.pattern.language ↔
    ∃ c r, w = c :: r ∧ isLetter c = true ∧ ∀ d ∈ r, isWordChar d = true := by
  simp only [ident, mem_seq, mem_char, mem_star_char, isWordChar]
  constructor
  · rintro ⟨_, ⟨c, hc, rfl⟩, r, hr, rfl⟩
    exact ⟨c, r, rfl, hc, hr⟩
  · rintro ⟨c, r, rfl, hc, hr⟩
    exact ⟨[c], ⟨c, hc, rfl⟩, r, hr, rfl⟩

/-- Text that may stand as a sign before digits. -/
def IsSign (s : List Char) : Prop := s = [] ∨ ∃ c, isSign c = true ∧ s = [c]

theorem mem_sign {s : List Char} : s ∈ (Pattern.optional (char isSign)).language ↔ IsSign s := by
  simp [IsSign, or_comm]

theorem mem_int {w : List Char} : w ∈ int.pattern.language ↔
    ∃ sign digits, w = sign ++ digits ∧ IsSign sign ∧ IsDigits digits := by
  simp only [int, mem_seq, mem_sign, mem_plus_char, IsDigits]
  constructor
  · rintro ⟨sign, hs, digits, hd, rfl⟩
    exact ⟨sign, digits, rfl, hs, hd⟩
  · rintro ⟨sign, digits, rfl, hs, hd⟩
    exact ⟨sign, hs, digits, hd, rfl⟩

theorem mem_float {w : List Char} : w ∈ float.pattern.language ↔
    ∃ sign whole fraction, w = sign ++ whole ++ '.' :: fraction ∧ IsSign sign ∧
      (∀ c ∈ whole, c.isDigit = true) ∧ IsDigits fraction := by
  simp only [float, mem_seq, mem_exactly, mem_sign, mem_star_char, mem_plus_char, IsDigits]
  constructor
  · rintro ⟨sign, hs, _, ⟨whole, hw, _, ⟨_, rfl, fraction, hf, rfl⟩, rfl⟩, rfl⟩
    exact ⟨sign, whole, fraction, by simp, hs, hw, hf⟩
  · rintro ⟨sign, whole, fraction, rfl, hs, hw, hf⟩
    exact ⟨sign, hs, _, ⟨whole, hw, _, ⟨_, rfl, fraction, hf, rfl⟩, rfl⟩, by simp⟩

theorem mem_quotedBy {q : Char} {w : List Char} :
    w ∈ (quotedBy q).language ↔ ∃ payload, w = q :: payload ++ [q] ∧ q ∉ payload := by
  simp only [quotedBy, mem_seq, mem_star_char, mem_exactly, bne_iff_ne]
  constructor
  · rintro ⟨_, rfl, _, ⟨payload, hp, _, rfl, rfl⟩, rfl⟩
    exact ⟨payload, rfl, fun h => hp q h rfl⟩
  · rintro ⟨payload, rfl, hq⟩
    exact ⟨_, rfl, _, ⟨payload, fun c hc he => hq (he ▸ hc), _, rfl, rfl⟩, rfl⟩

/-! ## Where a longest match ends -/

/-- A prefix of `w ++ rest` ends within `w`, or it takes a character of `rest`. -/
theorem prefix_append_cases {v w rest : List Char} (h : v <+: w ++ rest) :
    v <+: w ∨ ∃ c ∈ rest.head?, w ++ [c] <+: v := by
  rcases List.prefix_or_prefix_of_prefix h (List.prefix_append w rest) with hv | ⟨t, rfl⟩
  · exact Or.inl hv
  · rw [List.prefix_append_right_inj] at h
    cases t with
    | nil => exact Or.inl (by simp)
    | cons c t =>
        obtain ⟨u, rfl⟩ := h
        exact Or.inr ⟨c, by simp, by simp⟩

/-- There is one way to split a text before its first character without the property. -/
theorem append_cons_inj {P : Char → Prop} {a a' b b' : List Char} {x x' : Char}
    (ha : ∀ c ∈ a, P c) (hx : ¬ P x) (ha' : ∀ c ∈ a', P c) (hx' : ¬ P x')
    (h : a ++ x :: b = a' ++ x' :: b') : a = a' ∧ x = x' ∧ b = b' := by
  induction a generalizing a' with
  | nil =>
      cases a' with
      | nil => simpa using h
      | cons c a' =>
          cases h
          exact absurd (ha' _ List.mem_cons_self) hx
  | cons c a ih =>
      cases a' with
      | nil =>
          cases h
          exact absurd (ha _ List.mem_cons_self) hx'
      | cons c' a' =>
          obtain ⟨rfl, ht⟩ := List.cons.inj h
          obtain ⟨rfl, hr⟩ := ih (fun d hd => ha d (List.mem_cons_of_mem _ hd))
            (fun d hd => ha' d (List.mem_cons_of_mem _ hd)) ht
          exact ⟨rfl, hr⟩

end Grammar

end Sift
