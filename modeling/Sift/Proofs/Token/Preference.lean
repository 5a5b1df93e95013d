import Sift.Proofs.Token.Reading

/-!
# Matching by preference

A matcher that tries the left branch of a choice before the right one, and another repetition before
none, stops at the first match it comes to, which need not be the longest. For the patterns of the
token rules it is: their branches are in such an order that what is tried earlier takes more.
-/

namespace Sift

namespace Pattern

/-! ## The matches in the order they are tried -/

/-- What is left of `s` after up to `n` rounds of `step`, each of which takes something. Another
round is tried before stopping. -/
def repeated (step : List Char → List (List Char)) : Nat → List Char → List (List Char)
  | 0, s => [s]
  | n + 1, s => ((step s).filter (·.length < s.length)).flatMap (repeated step n) ++ [s]

/-- What each match of the pattern at the beginning of a text leaves of it, the match that is tried
first at the head. -/
def leaves : Pattern → List Char → List (List Char)
  | never, _ => []
  | empty, s => [s]
  | char _, [] => []
  | char accepts, c :: s => if accepts c then [s] else []
  | seq p q, s => (p.leaves s).flatMap q.leaves
  | alt p q, s => p.leaves s ++ q.leaves s
  | star p, s => repeated p.leaves s.length s

variable {p q : Pattern}

theorem mem_repeated {step : List Char → List (List Char)}
    (hstep : ∀ s r, r ∈ step s ↔ ∃ w ∈ p.language, w ++ r = s) {n : Nat} {s r : List Char}
    (hn : s.length ≤ n) : r ∈ repeated step n s ↔ ∃ w ∈ p.star.language, w ++ r = s := by
  induction n generalizing s with
  | zero =>
      obtain rfl := List.length_eq_zero_iff.1 (Nat.le_zero.1 hn)
      simp [repeated]
  | succ n ih =>
      simp only [repeated, List.mem_append, List.mem_flatMap, List.mem_filter, List.mem_singleton,
        decide_eq_true_eq]
      constructor
      · rintro (⟨s', ⟨hs', hlt⟩, hr⟩ | rfl)
        · obtain ⟨u, hu, rfl⟩ := (hstep s s').1 hs'
          obtain ⟨v, hv, rfl⟩ := (ih (by omega)).1 hr
          cases u with
          | nil => simp at hlt
          | cons c u =>
              exact ⟨c :: (u ++ v), cons_mem_star.2 ⟨u, v, hu, hv, rfl⟩, by simp⟩
        · exact ⟨[], nil_mem_star, rfl⟩
      · rintro ⟨w, hw, rfl⟩
        cases w with
        | nil => exact .inr rfl
        | cons c w =>
            obtain ⟨u, v, hu, hv, rfl⟩ := cons_mem_star.1 hw
            simp only [List.length_append, List.length_cons] at hn
            refine .inl ⟨v ++ r, ⟨(hstep _ _).2 ⟨c :: u, hu, by simp⟩, ?_⟩, (ih ?_).2 ⟨v, hv, rfl⟩⟩
            · simp only [List.length_append, List.length_cons]
              omega
            · rw [List.length_append]
              omega

/-- The matches are the words of the pattern that the text begins with. -/
theorem mem_leaves {s r : List Char} : r ∈ p.leaves s ↔ ∃ w ∈ p.language, w ++ r = s := by
  induction p generalizing s r with
  | never => simp [leaves, notMem_never]
  | empty => simp [leaves, eq_comm]
  | char accepts =>
      cases s with
      | nil => simp [leaves]
      | cons c s =>
          rw [leaves]
          constructor
          · intro hr
            split at hr
            · next hc => exact ⟨[c], ⟨c, hc, rfl⟩, by rw [List.mem_singleton.1 hr]; rfl⟩
            · cases hr
          · rintro ⟨_, ⟨d, hd, rfl⟩, he⟩
            obtain ⟨rfl, rfl⟩ := List.cons.inj he
            simp [hd]
  | seq p q ihp ihq =>
      simp only [leaves, List.mem_flatMap, ihp, ihq, mem_seq]
      constructor
      · rintro ⟨_, ⟨u, hu, rfl⟩, v, hv, rfl⟩
        exact ⟨u ++ v, ⟨u, hu, v, hv, rfl⟩, by simp⟩
      · rintro ⟨_, ⟨u, hu, v, hv, rfl⟩, rfl⟩
        exact ⟨v ++ r, ⟨u, hu, by simp⟩, v, hv, rfl⟩
  | alt p q ihp ihq =>
      simp only [leaves, List.mem_append, ihp, ihq, mem_alt, or_and_right, exists_or]
  | star p ih => exact mem_repeated (fun s r => ih) (Nat.le_refl _)

theorem length_le_of_mem_repeated {step : List Char → List (List Char)} {n : Nat}
    {s r : List Char} (h : r ∈ repeated step n s) : r.length ≤ s.length := by
  induction n generalizing s with
  | zero => simp_all [repeated]
  | succ n ih =>
      simp only [repeated, List.mem_append, List.mem_flatMap, List.mem_filter, List.mem_singleton,
        decide_eq_true_eq] at h
      rcases h with ⟨s', ⟨-, hlt⟩, hr⟩ | rfl
      · exact Nat.le_of_lt (Nat.lt_of_le_of_lt (ih hr) hlt)
      · exact Nat.le_refl _

/-! ## Longer matches are tried first -/

/-- A match that is tried earlier takes more of the text. -/
def Ordered (p : Pattern) : Prop := ∀ s, (p.leaves s).Pairwise (·.length < ·.length)

/-- The match that is tried first is the longest one. -/
theorem Ordered.head?_leaves (h : p.Ordered) (s : List Char) :
    (p.leaves s).head? = (p.longest s).map Prod.snd := by
  cases hl : p.longest s with
  | none =>
      have hnil : p.leaves s = [] := List.eq_nil_iff_forall_not_mem.2 fun r hr => by
        obtain ⟨w, hw, he⟩ := mem_leaves.1 hr
        exact longest_eq_none_iff.1 hl w hw ⟨r, he⟩
      rw [hnil]
      rfl
  | some found =>
      obtain ⟨w, rest⟩ := found
      obtain ⟨hs, hw, hmax⟩ := longest_eq_some_iff.1 hl
      have hrest : rest ∈ p.leaves s := mem_leaves.2 ⟨w, hw, hs⟩
      have hord := h s
      cases hleaves : p.leaves s with
      | nil => simp [hleaves] at hrest
      | cons first others =>
          rw [hleaves] at hrest hord
          rcases List.mem_cons.1 hrest with rfl | hother
          · rfl
          · have hlt := List.rel_of_pairwise_cons hord hother
            obtain ⟨v, hv, he⟩ := mem_leaves.1 (hleaves ▸ List.mem_cons_self : first ∈ p.leaves s)
            have hle := hmax v hv ⟨first, he⟩
            have hlength := congrArg List.length (hs.trans he.symm)
            simp only [List.length_append] at hlength
            omega

theorem ordered_empty : Ordered empty := fun _ => List.pairwise_singleton _ _

theorem ordered_char (accepts : Char → Bool) : Ordered (char accepts) := by
  intro s
  cases s with
  | nil => exact .nil
  | cons c s =>
      rw [leaves]
      split
      · exact List.pairwise_singleton _ _
      · exact .nil

theorem ordered_exactly (c : Char) : Ordered (exactly c) := ordered_char _

theorem ordered_star_char (accepts : Char → Bool) : Ordered (star (char accepts)) := by
  suffices h : ∀ n s, (repeated (char accepts).leaves n s).Pairwise (·.length < ·.length) from
    fun s => h _ s
  intro n
  induction n with
  | zero => exact fun s => List.pairwise_singleton _ _
  | succ n ih =>
      intro s
      cases s with
      | nil => simp [repeated, leaves]
      | cons c s =>
          by_cases hc : accepts c = true
          · have hround : repeated (char accepts).leaves (n + 1) (c :: s) =
                repeated (char accepts).leaves n s ++ [c :: s] := by
              simp [repeated, leaves, hc]
            rw [hround]
            refine List.pairwise_append.2 ⟨ih s, List.pairwise_singleton _ _, fun r hr r' hr' => ?_⟩
            obtain rfl := List.mem_singleton.1 hr'
            exact Nat.lt_succ_of_le (length_le_of_mem_repeated hr)
          · simp [repeated, leaves, hc]

/-- No word of the left branch may be continued to one of the right branch. -/
theorem Ordered.alt (hp : p.Ordered) (hq : q.Ordered)
    (h : ∀ u ∈ p.language, ∀ v ∈ q.language, ¬ u <+: v) : Ordered (alt p q) := by
  refine fun s => List.pairwise_append.2 ⟨hp s, hq s, fun r hr r' hr' => ?_⟩
  obtain ⟨u, hu, hur⟩ := mem_leaves.1 hr
  obtain ⟨v, hv, hvr⟩ := mem_leaves.1 hr'
  have hlt : v.length < u.length := by
    refine Nat.lt_of_not_le fun hle => h u hu v hv ?_
    exact List.prefix_of_prefix_length_le ⟨r, hur⟩ ⟨r', hvr⟩ hle
  have hlength := congrArg List.length (hur.trans hvr.symm)
  simp only [List.length_append] at hlength
  omega

/-- Where a word of the first part may be continued to another, the second part may not begin with
what continues it. -/
theorem Ordered.seq (hp : p.Ordered) (hq : q.Ordered)
    (h : ∀ u c v, u ∈ p.language → u ++ c :: v ∈ p.language →
      q.first c = false ∧ q.nullable = false) : Ordered (seq p q) := by
  refine fun s => List.pairwise_flatMap.2 ⟨fun r _ => hq r, (hp s).imp_of_mem ?_⟩
  intro r r' hr hr' hlt t ht t' ht'
  obtain ⟨u', hu', hur'⟩ := mem_leaves.1 hr
  obtain ⟨u, hu, hur⟩ := mem_leaves.1 hr'
  obtain ⟨w, hw, rfl⟩ := mem_leaves.1 ht'
  obtain ⟨c, v, rfl⟩ : ∃ c v, u' = u ++ c :: v := by
    have hlength := congrArg List.length (hur.trans hur'.symm)
    simp only [List.length_append] at hlength hlt
    obtain ⟨v, rfl⟩ := List.prefix_of_prefix_length_le ⟨_, hur⟩ ⟨_, hur'⟩ (by omega)
    cases v with
    | nil => simp at hlength; omega
    | cons c v => exact ⟨c, v, rfl⟩
  obtain ⟨hfirst, hnullable⟩ := h u c v hu hu'
  rw [← hur, List.append_assoc, List.append_right_inj] at hur'
  cases w with
  | nil => simp [nullable_iff.2 hw] at hnullable
  | cons d w =>
      obtain ⟨rfl, -⟩ := List.cons.inj hur'
      simp [first_of_mem hw] at hfirst

theorem Ordered.optional (hp : p.Ordered) (hproper : p.nullable = false) : Ordered p.optional := by
  refine hp.alt ordered_empty fun u hu v hv hstarts => ?_
  obtain rfl := mem_empty.1 hv
  obtain rfl := List.prefix_nil.1 hstarts
  rw [nullable_iff.2 hu] at hproper
  cases hproper

theorem Ordered.char_seq {accepts : Char → Bool} (hq : q.Ordered) :
    Ordered (.seq (char accepts) q) := by
  refine (ordered_char accepts).seq hq fun u c v hu huv => ?_
  obtain ⟨d, -, rfl⟩ := hu
  obtain ⟨_, -, he⟩ := huv
  simp at he

theorem Ordered.star_char_seq {accepts : Char → Bool} (hq : q.Ordered)
    (hfirst : ∀ c, accepts c = true → q.first c = false) (hproper : q.nullable = false) :
    Ordered (.seq (star (char accepts)) q) :=
  (ordered_star_char accepts).seq hq fun u c v _ huv =>
    ⟨hfirst c (mem_star_char.1 huv c (by simp)), hproper⟩

theorem Ordered.optional_char_seq {accepts : Char → Bool} (hq : q.Ordered)
    (hfirst : ∀ c, accepts c = true → q.first c = false) (hproper : q.nullable = false) :
    Ordered (.seq (Pattern.optional (char accepts)) q) := by
  refine ((ordered_char accepts).optional rfl).seq hq fun u c v _ huv => ⟨?_, hproper⟩
  rcases mem_optional.1 huv with ⟨d, hd, he⟩ | he
  · cases u with
    | nil =>
        cases he
        exact hfirst c hd
    | cons e u => simp at he
  · simp at he

theorem ordered_plus_char (accepts : Char → Bool) : Ordered (plus (char accepts)) :=
  (ordered_star_char accepts).char_seq

theorem ordered_word (w : List Char) : Ordered (word w) := by
  induction w with
  | nil => exact ordered_empty
  | cons c w ih =>
      cases w with
      | nil => exact ordered_exactly c
      | cons d w => exact ih.char_seq

theorem ordered_oneOf {ws : List (List Char)} (h : ws.Pairwise fun u v => ¬ u <+: v) :
    Ordered (oneOf ws) := by
  induction ws with
  | nil => exact fun _ => .nil
  | cons w ws ih =>
      cases ws with
      | nil => exact ordered_word w
      | cons w' ws =>
          obtain ⟨hw, hws⟩ := List.pairwise_cons.1 h
          refine (ordered_word w).alt (ih hws) fun u hu v hv => ?_
          obtain rfl := mem_word.1 hu
          exact hw v (mem_oneOf.1 hv)

end Pattern

namespace Grammar

open Pattern

/-! ## The patterns of the rules -/

theorem ordered_float : float.pattern.Ordered := by
  refine Ordered.optional_char_seq (.star_char_seq (.char_seq (ordered_plus_char _)) ?_ rfl) ?_ rfl
  · intro c hc
    have hdot : c ≠ '.' := fun he => not_isDigit_dot (he ▸ hc)
    simp [first, exactly, nullable, hdot]
  · intro c hc
    rcases Bool.or_eq_true_iff.1 hc with hc | hc <;> rw [beq_iff_eq.1 hc] <;> decide

theorem ordered_int : int.pattern.Ordered := by
  refine Ordered.optional_char_seq (ordered_plus_char _) (fun c hc => ?_) rfl
  rcases Bool.or_eq_true_iff.1 hc with hc | hc <;> rw [beq_iff_eq.1 hc] <;> decide

theorem ordered_quotedBy (q : Char) : (quotedBy q).Ordered := by
  refine Ordered.char_seq (.star_char_seq (ordered_exactly q) (fun c hc => ?_) rfl)
  simpa [first, exactly] using hc

theorem ordered_string : Ordered (alt (quotedBy '\'') (quotedBy '"')) := by
  refine (ordered_quotedBy _).alt (ordered_quotedBy _) fun u hu v hv hstarts => ?_
  obtain ⟨_, rfl, -⟩ := mem_quotedBy.1 hu
  obtain ⟨_, rfl, -⟩ := mem_quotedBy.1 hv
  simp at hstarts

theorem ordered_of_mem_rules {g : Grammar} : ∀ r ∈ g.rules, r.pattern.Ordered := by
  cases g with
  | filter =>
      simp only [rules, List.forall_mem_cons]
      exact ⟨ordered_plus_char _, ordered_word _, ordered_word _, ordered_word _, ordered_exactly _,
        ordered_exactly _, ordered_exactly _, ordered_oneOf (by decide), ordered_word _,
        ordered_word _, (ordered_star_char _).char_seq, ordered_float, ordered_int,
        ordered_exactly _, ordered_string, ordered_exactly _, ordered_exactly _, by simp⟩
  | orderBy =>
      simp only [rules, List.forall_mem_cons]
      exact ⟨ordered_plus_char _, ordered_word _, (ordered_star_char _).char_seq, ordered_exactly _,
        ordered_exactly _, by simp⟩

end Grammar

/-! ## The rule that is picked -/

/-- The text begins with a word of the rule. -/
def Rule.Applies (r : Rule) (s : List Char) : Prop := ∃ w ∈ r.pattern.language, w <+: s

/-- The first rule that applies is of kind `k`, and `w` is the longest of its words that the text
begins with. -/
def Grammar.Picks (g : Grammar) (s : List Char) (k : Kind) (w : List Char) : Prop :=
  ∃ before r after, g.rules = before ++ r :: after ∧ r.kind = k ∧
    (∀ r' ∈ before, ¬ r'.Applies s) ∧ w ∈ r.pattern.language ∧ w <+: s ∧
      ∀ v ∈ r.pattern.language, v <+: s → v.length ≤ w.length

theorem Rule.read_eq_none_iff_applies {r : Rule} {s : List Char} :
    r.read s = none ↔ ¬ r.Applies s := by
  simp [Rule.read_eq_none_iff, Applies]

theorem Grammar.split?_eq_some_iff {g : Grammar} {s w : List Char} {k : Kind} :
    (∃ rest, g.split? s = some (k, w, rest)) ↔ g.Picks s k w := by
  simp only [split?, List.findSome?_eq_some_iff, Option.map_eq_none_iff, Option.map_eq_some_iff,
    Rule.read_eq_none_iff_applies]
  constructor
  · rintro ⟨rest, before, r, after, hrules, ⟨found, hread, he⟩, hbefore⟩
    cases he
    obtain ⟨hs, hw, hmax⟩ := Rule.read_eq_some_iff.1 hread
    exact ⟨before, r, after, hrules, rfl, hbefore, hw, ⟨_, hs⟩, hmax⟩
  · rintro ⟨before, r, after, hrules, rfl, hbefore, hw, ⟨rest, hs⟩, hmax⟩
    have hread := Rule.read_eq_some_iff.2 ⟨hs, hw, hmax⟩
    exact ⟨rest, before, r, after, hrules, ⟨_, hread, rfl⟩, hbefore⟩

/-- The next token is of the kind of the first rule that applies and has the longest text the rule
can give it, and there is an error exactly where no rule applies. So it is for a matcher that stops
at the first match it tries, since for each rule that is what the longest word leaves. -/
theorem Lexer.raw_iff_picks {l : Lexer} (hne : l.rest ≠ []) :
    (∀ k w, (∃ t, l.raw.1 = .ok t ∧ t.kind = k ∧ t.text.toList = w) ↔
      l.grammar.Picks l.rest k w) ∧
    ((∃ e, l.raw.1 = .error e) ↔ ∀ r ∈ l.grammar.rules, ¬ r.Applies l.rest) ∧
    ∀ r ∈ l.grammar.rules, (r.pattern.leaves l.rest).head? = (r.read l.rest).map Prod.snd := by
  refine ⟨fun k w => ?_, ?_, fun r hr => (Grammar.ordered_of_mem_rules r hr).head?_leaves l.rest⟩
  · rw [← Grammar.split?_eq_some_iff]
    cases hs : l.grammar.split? l.rest with
    | none => simp [raw_of_none hne hs]
    | some found =>
        obtain ⟨k', w', rest⟩ := found
        simp [raw_of_some hs]
  · have hnone : (∀ r ∈ l.grammar.rules, ¬ r.Applies l.rest) ↔ l.grammar.split? l.rest = none := by
      simp [Grammar.split?_eq_none_iff, Rule.Applies]
    rw [hnone]
    cases hs : l.grammar.split? l.rest with
    | none => simp [raw_of_none hne hs]
    | some found => simp [raw_of_some hs]

theorem Lexer.raw_iff_picks_trueish :
    (ofText .filter "trueish").rest ≠ [] ∧ (ofText .orderBy "5").rest ≠ [] ∧
      Grammar.filter.Picks "trueish".toList .trueWord "true".toList ∧
      ∀ r ∈ Grammar.orderBy.rules, ¬ r.Applies "5".toList := by
  have htrueish : (ofText .filter "trueish").rest ≠ [] := by decide
  have hfive : (ofText .orderBy "5").rest ≠ [] := by decide
  obtain ⟨hpicks, -, -⟩ := raw_iff_picks htrueish
  obtain ⟨-, herror, -⟩ := raw_iff_picks hfive
  exact ⟨htrueish, hfive, (hpicks _ _).1 ⟨_, rfl, rfl, by decide⟩, herror.1 ⟨_, rfl⟩⟩

end Sift
