import Mathlib.Data.List.TakeWhile
import Sift.Proofs.Token.Rules
import Sift.Value.Comparison

/-!
# Spelling tokens

For each kind of token, which texts are read as one token of that kind, whatever follows or with a
condition on the next character alone.
-/

namespace Sift.Grammar

open Pattern
open Decimal (IsDigits)

/-- The keywords of a language. No name may begin with one. -/
def words : Grammar → List (Kind × List Char)
  | filter => [
      (.andWord, ['A', 'N', 'D']),
      (.orWord, ['O', 'R']),
      (.notWord, ['N', 'O', 'T']),
      (.trueWord, ['t', 'r', 'u', 'e']),
      (.falseWord, ['f', 'a', 'l', 's', 'e'])]
  | orderBy => [(.descWord, ['d', 'e', 's', 'c'])]

/-- The place of the rule for names. The rules for the keywords come before it. -/
def identIndex : Grammar → Nat
  | filter => 10
  | orderBy => 2

/-- The text of a name. -/
structure IsName (g : Grammar) (s : List Char) : Prop where
  mem : s ∈ ident.pattern.language
  not_word : ∀ e ∈ g.words, ¬ e.2 <+: s

/-- The tokens of a filter that are one fixed character each. -/
def marks : List (Kind × Char) :=
  [(.openParen, '('), (.closeParen, ')'), (.minus, '-'), (.star, '*'), (.comma, ',')]

theorem isLetter_of_mem_words {g : Grammar} {e : Kind × List Char} (he : e ∈ g.words) :
    ∀ c ∈ e.2, isLetter c = true := by
  have hall : ∀ e ∈ g.words, e.2.all isLetter = true := by cases g <;> decide
  exact List.all_eq_true.1 (hall e he)

theorem exists_word_rule {g : Grammar} {e : Kind × List Char} (he : e ∈ g.words) :
    ∃ r ∈ g.rules.take g.identIndex, r.pattern = word e.2 := by
  cases g with
  | filter =>
      simp only [words, List.mem_cons, List.not_mem_nil, or_false] at he
      rcases he with rfl | rfl | rfl | rfl | rfl
      · exact ⟨⟨.andWord, word ['A', 'N', 'D'], rfl⟩, by simp [rules, identIndex], rfl⟩
      · exact ⟨⟨.orWord, word ['O', 'R'], rfl⟩, by simp [rules, identIndex], rfl⟩
      · exact ⟨⟨.notWord, word ['N', 'O', 'T'], rfl⟩, by simp [rules, identIndex], rfl⟩
      · exact ⟨⟨.trueWord, word ['t', 'r', 'u', 'e'], rfl⟩, by simp [rules, identIndex], rfl⟩
      · exact ⟨⟨.falseWord, word ['f', 'a', 'l', 's', 'e'], rfl⟩, by simp [rules, identIndex], rfl⟩
  | orderBy =>
      simp only [words, List.mem_cons, List.not_mem_nil, or_false] at he
      subst he
      exact ⟨⟨.descWord, word ['d', 'e', 's', 'c'], rfl⟩, by simp [rules, identIndex], rfl⟩

/-! ## Reading one rule -/

theorem longest_word (w rest : List Char) : (word w).longest (w ++ rest) = some (w, rest) := by
  refine longest_eq_some_iff.2 ⟨rfl, by simp, fun v hv _ => ?_⟩
  rw [mem_word.1 hv]

theorem read_word_eq_none {r : Rule} {w s : List Char} (hr : r.pattern = word w)
    (h : ¬ w <+: s) : r.read s = none := by
  refine Rule.read_eq_none_iff.2 fun v hv => ?_
  rw [hr, mem_word] at hv
  rwa [hv]

theorem read_space {c : Char} (hc : isSpace c = true) (s : List Char) :
    space.read (c :: s) = some (c :: s.takeWhile isSpace, s.dropWhile isSpace) := by
  refine Rule.read_eq_some_iff.2 ⟨by simp, mem_space.2 ⟨by simp, ?_⟩, fun v hv hs => ?_⟩
  · rintro d (_ | ⟨_, hd⟩)
    · exact hc
    · exact List.mem_takeWhile_imp hd
  · rw [← s.takeWhile_append_dropWhile (p := isSpace), ← List.cons_append] at hs
    rcases prefix_append_cases hs with hp | ⟨d, hd, hp⟩
    · exact hp.length_le
    · have hspace := (mem_space.1 hv).2 d (hp.subset (by simp))
      have hnot := List.head?_dropWhile_not isSpace s
      rw [Option.mem_def.1 hd] at hnot
      simp [hspace] at hnot

theorem read_ident {w rest : List Char} (hw : w ∈ ident.pattern.language)
    (hrest : ∀ c ∈ rest.head?, isWordChar c = false) : ident.read (w ++ rest) = some (w, rest) := by
  refine Rule.read_eq_some_iff.2 ⟨rfl, hw, fun v hv hs => ?_⟩
  rcases prefix_append_cases hs with hp | ⟨c, hc, hp⟩
  · exact hp.length_le
  · obtain ⟨d, r, rfl, hd, hr⟩ := mem_ident.1 hv
    have hword : ∀ x ∈ d :: r, isWordChar x = true := by
      simpa using And.intro (isWordChar_of_isLetter hd) hr
    have := hword c (hp.subset (by simp))
    simp [hrest c hc] at this

/-! ## Tokens of both languages -/

theorem split?_space (g : Grammar) {c : Char} (hc : isSpace c = true) (s : List Char) :
    g.split? (c :: s) = some (.space, c :: s.takeWhile isSpace, s.dropWhile isSpace) := by
  have hg : g.rules[0]? = some space := by cases g <;> rfl
  exact split?_of_rules 0 hg (by simp) (read_space hc s)

/-- A keyword is no prefix of a name, not even together with what follows the name. -/
theorem IsName.not_word_append {g : Grammar} {w rest : List Char} (hw : g.IsName w)
    (hrest : ∀ c ∈ rest.head?, isWordChar c = false) {e : Kind × List Char} (he : e ∈ g.words) :
    ¬ e.2 <+: w ++ rest := by
  intro hp
  rcases prefix_append_cases hp with hpre | ⟨c, hc, hpre⟩
  · exact hw.not_word e he hpre
  · have hletter := isLetter_of_mem_words he c (hpre.subset (by simp))
    have hnot := hrest c hc
    simp [isWordChar_of_isLetter hletter] at hnot

theorem split?_ident {g : Grammar} {w rest : List Char} (hw : g.IsName w)
    (hrest : ∀ c ∈ rest.head?, isWordChar c = false) :
    g.split? (w ++ rest) = some (.ident, w, rest) := by
  have hread := read_ident hw.mem hrest
  -- An earlier rule is for a keyword, or for texts that begin with no letter.
  have hbefore : ∀ r : Rule, ((∃ e ∈ g.words, r.pattern = word e.2) ∨
      ∀ n < 128, isLetter (Char.ofNat n) = true → r.pattern.first (Char.ofNat n) = false) →
      r.read (w ++ rest) = none := by
    rintro r (⟨e, he, hr⟩ | hfirst)
    · exact read_word_eq_none hr (hw.not_word_append hrest he)
    · obtain ⟨c, s, rfl, hc, -⟩ := mem_ident.1 hw.mem
      exact Rule.read_eq_none_of_first <|
        forall_isWordChar (P := fun c => isLetter c = true → r.pattern.first c = false)
          (fun n hn _ => hfirst n hn) (isWordChar_of_isLetter hc) hc
  cases g with
  | filter =>
      refine split?_of_rules 10 rfl (fun r hr => hbefore r ?_) hread
      simp only [rules, List.take, List.mem_cons, List.not_mem_nil, or_false] at hr
      rcases hr with rfl | rfl | rfl | rfl | rfl | rfl | rfl | rfl | rfl | rfl
      · exact Or.inr (by decide +kernel)
      · exact Or.inl ⟨(.andWord, _), by simp [words], rfl⟩
      · exact Or.inl ⟨(.orWord, _), by simp [words], rfl⟩
      · exact Or.inl ⟨(.notWord, _), by simp [words], rfl⟩
      · exact Or.inr (by decide +kernel)
      · exact Or.inr (by decide +kernel)
      · exact Or.inr (by decide +kernel)
      · exact Or.inr (by decide +kernel)
      · exact Or.inl ⟨(.trueWord, _), by simp [words], rfl⟩
      · exact Or.inl ⟨(.falseWord, _), by simp [words], rfl⟩
  | orderBy =>
      refine split?_of_rules 2 rfl (fun r hr => hbefore r ?_) hread
      simp only [rules, List.take, List.mem_cons, List.not_mem_nil, or_false] at hr
      rcases hr with rfl | rfl
      · exact Or.inr (by decide +kernel)
      · exact Or.inl ⟨(.descWord, _), by simp [words], rfl⟩

/-! ## Tokens of filters -/

theorem split?_mark {k : Kind} {c : Char} (h : (k, c) ∈ marks) (rest : List Char) :
    filter.split? (c :: rest) = some (k, [c], rest) := by
  simp only [marks, List.mem_cons, Prod.mk.injEq, List.not_mem_nil, or_false] at h
  rcases h with ⟨rfl, rfl⟩ | ⟨rfl, rfl⟩ | ⟨rfl, rfl⟩ | ⟨rfl, rfl⟩ | ⟨rfl, rfl⟩
  · exact split?_of_first 4 rfl (by decide) (longest_word ['('] rest)
  · exact split?_of_first 5 rfl (by decide) (longest_word [')'] rest)
  · exact split?_of_first 6 rfl (by decide) (longest_word ['-'] rest)
  · exact split?_of_first 13 rfl (by decide) (longest_word ['*'] rest)
  · exact split?_of_first 15 rfl (by decide) (longest_word [','] rest)

theorem split?_word {e : Kind × List Char} (h : e ∈ filter.words) (rest : List Char) :
    filter.split? (e.2 ++ rest) = some (e.1, e.2, rest) := by
  simp only [words, List.mem_cons, List.not_mem_nil, or_false] at h
  rcases h with rfl | rfl | rfl | rfl | rfl
  · exact split?_of_first 1 rfl (by decide) (longest_word _ rest)
  · exact split?_of_first 2 rfl (by decide) (longest_word _ rest)
  · exact split?_of_first 3 rfl (by decide) (longest_word _ rest)
  · exact split?_of_first 8 rfl (by decide) (longest_word _ rest)
  · exact split?_of_first 9 rfl (by decide) (longest_word _ rest)

/-- Two of the operators go on with an equals sign where one follows. -/
theorem split?_comparison (op : Comparison) {rest : List Char} (hrest : rest.head? ≠ some '=') :
    filter.split? (op.symbol.toList ++ rest) = some (.comparison, op.symbol.toList, rest) := by
  have hread : (oneOf [['!', '='], ['>', '='], ['<', '='], ['>'], ['<'], ['='], [':']]).longest
      (op.symbol.toList ++ rest) = some (op.symbol.toList, rest) := by
    refine longest_eq_some_iff.2 ⟨rfl, ?_, fun v hv hs => ?_⟩
    · cases op <;> simp [Comparison.symbol]
    · rcases prefix_append_cases hs with hp | ⟨c, hc, hp⟩
      · exact hp.length_le
      · have hne : c ≠ '=' := fun he => hrest (he ▸ hc)
        simp only [mem_oneOf, List.mem_cons, List.not_mem_nil, or_false] at hv
        cases op <;> rcases hv with rfl | rfl | rfl | rfl | rfl | rfl | rfl <;>
          simp_all [Comparison.symbol]
  cases op <;> exact split?_of_first 7 rfl (by decide) hread

theorem split?_quoted {q : Char} {payload : List Char} (hq : q = '\'' ∨ q = '"')
    (hp : q ∉ payload) (rest : List Char) :
    filter.split? (q :: payload ++ q :: rest) = some (.string, q :: payload ++ [q], rest) := by
  have hread : (alt (quotedBy '\'') (quotedBy '"')).longest (q :: payload ++ q :: rest) =
      some (q :: payload ++ [q], rest) := by
    refine longest_eq_some_iff.2 ⟨by simp, ?_, fun v hv hs => ?_⟩
    · rw [mem_alt]
      rcases hq with rfl | rfl
      · exact Or.inl (mem_quotedBy.2 ⟨payload, rfl, hp⟩)
      · exact Or.inr (mem_quotedBy.2 ⟨payload, rfl, hp⟩)
    · obtain ⟨q', payload', rfl, hp'⟩ :
          ∃ q' payload', v = q' :: payload' ++ [q'] ∧ q' ∉ payload' := by
        rcases mem_alt.1 hv with hv | hv
        · exact ⟨_, mem_quotedBy.1 hv⟩
        · exact ⟨_, mem_quotedBy.1 hv⟩
      obtain ⟨t, ht⟩ := hs
      obtain ⟨rfl, ht⟩ := List.cons.inj ht
      -- Both payloads end before the first quote.
      have hpayloads : payload' ++ q' :: t = payload ++ q' :: rest := by simpa using ht
      obtain ⟨rfl, -⟩ := append_cons_inj (P := (· ≠ q')) (fun c hc he => hp' (he ▸ hc)) (by simp)
        (fun c hc he => hp (he ▸ hc)) (by simp) hpayloads
      simp
  rcases hq with rfl | rfl
  · exact split?_of_first 14 rfl (by decide) hread
  · exact split?_of_first 14 rfl (by decide) hread

/-! ## Numbers -/

/-- No name and no number that stands before the text goes on into it. -/
def Boundary (s : List Char) : Prop :=
  ∀ c r, s = c :: r → isWordChar c = false ∧ (c = '.' → ∀ d ∈ r.head?, d.isDigit = false)

theorem Boundary.nil : Boundary [] := fun _ _ h => nomatch h

theorem Boundary.head {s : List Char} (h : Boundary s) : ∀ c ∈ s.head?, isWordChar c = false := by
  cases s with
  | nil => simp
  | cons c r => simpa using (h c r rfl).1

theorem isDigit_of_not_wordChar {c : Char} (h : isWordChar c = false) : c.isDigit = false := by
  simp only [isWordChar, Bool.or_eq_false_iff] at h
  exact h.2

theorem isSign_of_isDigit {c : Char} (h : c.isDigit = true) : isSign c = false :=
  forall_isWordChar (P := fun c => c.isDigit = true → isSign c = false) (by decide +kernel)
    (isWordChar_of_isDigit h) h

theorem not_isDigit_dot : ¬ '.'.isDigit = true := by decide

/-- A sign that stands before a text that begins with none is empty. -/
theorem IsSign.eq_nil {sign w s : List Char} (hsign : IsSign sign) (hp : sign ++ w <+: s)
    (hs : ∀ c ∈ s.head?, isSign c = false) : sign = [] := by
  rcases hsign with rfl | ⟨c, hc, rfl⟩
  · rfl
  · obtain ⟨t, rfl⟩ := hp
    simp [hc] at hs

/-- Digits before a boundary are not the beginning of a number with a point. -/
theorem read_float_eq_none {digits rest : List Char} (hdigits : ∀ c ∈ digits, c.isDigit = true)
    (hrest : Boundary rest) (hsign : ∀ c ∈ (digits ++ rest).head?, isSign c = false) :
    float.read (digits ++ rest) = none := by
  refine Rule.read_eq_none_iff.2 fun v hv hs => ?_
  obtain ⟨sign, whole, fraction, rfl, hsn, hwhole, hne, hfraction⟩ := mem_float.1 hv
  rw [List.append_assoc] at hs
  obtain rfl := hsn.eq_nil hs hsign
  obtain ⟨t, ht⟩ := hs
  simp only [List.nil_append, List.append_assoc, List.cons_append] at ht
  cases rest with
  | nil =>
      rw [List.append_nil] at ht
      exact not_isDigit_dot (hdigits '.' (by simp [← ht]))
  | cons x r =>
      obtain ⟨hx, hdot⟩ := hrest x r rfl
      obtain ⟨-, rfl, rfl⟩ := append_cons_inj (P := (·.isDigit = true)) hwhole not_isDigit_dot
        hdigits (by simp [isDigit_of_not_wordChar hx]) ht
      obtain ⟨d, fraction, rfl⟩ := List.exists_cons_of_ne_nil hne
      have := hdot rfl d (by simp)
      simp [hfraction d (by simp)] at this

theorem split?_dot {rest : List Char} (hrest : Boundary ('.' :: rest)) :
    filter.split? ('.' :: rest) = some (.dot, ['.'], rest) := by
  have hfloat : float.read ([] ++ '.' :: rest) = none :=
    read_float_eq_none (by simp) hrest (by simp [isSign])
  have hrules : filter.rules.take 16 =
      filter.rules.take 11 ++ float :: (filter.rules.take 16).drop 12 := rfl
  refine split?_of_rules 16 rfl (fun r hr => ?_) (longest_word ['.'] rest)
  rw [hrules, List.mem_append, List.mem_cons] at hr
  rcases hr with hr | rfl | hr
  · have hfirst : ∀ r ∈ filter.rules.take 11, r.pattern.first '.' = false := by decide
    exact Rule.read_eq_none_of_first (hfirst r hr)
  · exact hfloat
  · have hfirst : ∀ r ∈ (filter.rules.take 16).drop 12, r.pattern.first '.' = false := by decide
    exact Rule.read_eq_none_of_first (hfirst r hr)

/-- Before the rules for numbers no rule begins with a digit. -/
theorem first_of_isDigit {c : Char} (hc : c.isDigit = true) :
    ∀ r ∈ filter.rules.take 11, r.pattern.first c = false :=
  forall_isWordChar
    (P := fun c => c.isDigit = true → ∀ r ∈ filter.rules.take 11, r.pattern.first c = false)
    (by decide +kernel) (isWordChar_of_isDigit hc) hc

theorem exists_isDigit_append {digits : List Char} (h : IsDigits digits) (rest : List Char) :
    ∃ c s, digits ++ rest = c :: s ∧ c.isDigit = true := by
  obtain ⟨c, s, rfl⟩ := List.exists_cons_of_ne_nil h.1
  exact ⟨c, s ++ rest, rfl, h.2 c List.mem_cons_self⟩

theorem split?_int {digits rest : List Char} (hdigits : IsDigits digits) (hrest : Boundary rest) :
    filter.split? (digits ++ rest) = some (.int, digits, rest) := by
  obtain ⟨c, s, hs, hc⟩ := exists_isDigit_append hdigits rest
  have hsign : ∀ c ∈ (digits ++ rest).head?, isSign c = false := by
    simpa [hs] using isSign_of_isDigit hc
  have hfloat := read_float_eq_none hdigits.2 hrest hsign
  have hread : int.pattern.longest (digits ++ rest) = some (digits, rest) := by
    refine longest_eq_some_iff.2
      ⟨rfl, mem_int.2 ⟨[], digits, rfl, Or.inl rfl, hdigits⟩, fun v hv hp => ?_⟩
    obtain ⟨sign, digits', rfl, hsn, -, hdigits'⟩ := mem_int.1 hv
    obtain rfl := hsn.eq_nil hp hsign
    rcases prefix_append_cases hp with hle | ⟨d, hd, hle⟩
    · exact hle.length_le
    · have hdigit := hdigits' d (hle.subset (by simp))
      simp [isDigit_of_not_wordChar (hrest.head d hd)] at hdigit
  have hrules : filter.rules.take 12 = filter.rules.take 11 ++ [float] := rfl
  refine split?_of_rules 12 rfl (fun r hr => ?_) hread
  rw [hrules, List.mem_append, List.mem_singleton] at hr
  rcases hr with hr | rfl
  · rw [hs]
    exact Rule.read_eq_none_of_first (first_of_isDigit hc r hr)
  · exact hfloat

theorem split?_float {whole fraction rest : List Char} (hwhole : IsDigits whole)
    (hfraction : IsDigits fraction) (hrest : ∀ c ∈ rest.head?, c.isDigit = false) :
    filter.split? (whole ++ '.' :: fraction ++ rest) =
      some (.float, whole ++ '.' :: fraction, rest) := by
  obtain ⟨c, s, hs, hc⟩ := exists_isDigit_append hwhole ('.' :: fraction ++ rest)
  rw [← List.append_assoc] at hs
  have hsign : ∀ c ∈ (whole ++ '.' :: fraction ++ rest).head?, isSign c = false := by
    rw [hs]
    simpa using isSign_of_isDigit hc
  have hread : float.pattern.longest (whole ++ '.' :: fraction ++ rest) =
      some (whole ++ '.' :: fraction, rest) := by
    refine longest_eq_some_iff.2 ⟨rfl, ?_, fun v hv hp => ?_⟩
    · exact mem_float.2 ⟨[], whole, fraction, rfl, Or.inl rfl, hwhole.2, hfraction⟩
    · obtain ⟨sign, whole', fraction', rfl, hsn, hwhole', -, hfraction'⟩ := mem_float.1 hv
      rw [List.append_assoc] at hp
      obtain rfl := hsn.eq_nil hp hsign
      obtain ⟨t, ht⟩ := hp
      simp only [List.nil_append, List.append_assoc, List.cons_append] at ht
      obtain ⟨rfl, -, ht⟩ := append_cons_inj (P := (·.isDigit = true)) hwhole' not_isDigit_dot
        hwhole.2 not_isDigit_dot ht
      rcases prefix_append_cases ⟨t, ht⟩ with hle | ⟨d, hd, hle⟩
      · simpa using hle.length_le
      · have hdigit := hfraction' d (hle.subset (by simp))
        simp [hrest d hd] at hdigit
  refine split?_of_rules 11 rfl (fun r hr => ?_) hread
  rw [hs]
  exact Rule.read_eq_none_of_first (first_of_isDigit hc r hr)

end Sift.Grammar
