import Sift.Proofs.Token.Reading

/-!
# Joining texts

Space or a closing parenthesis goes on with no token but space. After a text that can be read, it
stands where a token begins, and what is read before it is what is read without it.
-/

namespace Sift

namespace Pattern

/-- Whether a word of the pattern may have `c` in it. -/
def mentions (c : Char) : Pattern → Bool
  | never => false
  | empty => false
  | char accepts => accepts c
  | seq p q => p.mentions c || q.mentions c
  | alt p q => p.mentions c || q.mentions c
  | star p => p.mentions c

/-- Whether a word of the pattern may have `c` in it after its first character. -/
def mentionsLater (c : Char) : Pattern → Bool
  | never => false
  | empty => false
  | char _ => false
  | seq p q => p.mentionsLater c || q.mentions c
  | alt p q => p.mentionsLater c || q.mentionsLater c
  | star p => p.mentions c

variable {p : Pattern} {c : Char} {w : List Char}

theorem mentions_of_mem (hw : w ∈ p.language) (hc : c ∈ w) : p.mentions c = true := by
  induction p generalizing w with
  | never => exact absurd hw notMem_never
  | empty => simp [mem_empty.1 hw] at hc
  | char accepts =>
      obtain ⟨d, hd, rfl⟩ := hw
      rwa [List.mem_singleton.1 hc]
  | seq p q ihp ihq =>
      obtain ⟨u, hu, v, hv, rfl⟩ := mem_seq.1 hw
      rw [mentions, Bool.or_eq_true]
      exact (List.mem_append.1 hc).imp (ihp hu) (ihq hv)
  | alt p q ihp ihq =>
      rw [mentions, Bool.or_eq_true]
      exact (mem_alt.1 hw).imp (ihp · hc) (ihq · hc)
  | star p ih =>
      obtain ⟨parts, rfl, hparts⟩ := Language.mem_kstar.1 hw
      obtain ⟨part, hpart, hc⟩ := List.mem_flatten.1 hc
      exact ih (hparts part hpart) hc

theorem mentionsLater_of_mem_tail (hw : w ∈ p.language) (hc : c ∈ w.tail) :
    p.mentionsLater c = true := by
  induction p generalizing w with
  | never => exact absurd hw notMem_never
  | empty => simp [mem_empty.1 hw] at hc
  | char accepts =>
      obtain ⟨d, -, rfl⟩ := hw
      simp at hc
  | seq p q ihp ihq =>
      obtain ⟨u, hu, v, hv, rfl⟩ := mem_seq.1 hw
      rw [mentionsLater, Bool.or_eq_true]
      cases u with
      | nil => exact .inr (mentions_of_mem hv (List.mem_of_mem_tail hc))
      | cons d u =>
          exact (List.mem_append.1 hc).imp (ihp hu) (mentions_of_mem hv)
  | alt p q ihp ihq =>
      rw [mentionsLater, Bool.or_eq_true]
      exact (mem_alt.1 hw).imp (ihp · hc) (ihq · hc)
  | star p ih => exact mentions_of_mem (p := star p) hw (List.mem_of_mem_tail hc)

end Pattern

/-- A rule of which no word goes on with `c` takes no notice of a `c` that comes later. -/
theorem Rule.read_append_cons {r : Rule} {c : Char} {s : List Char} (hs : s ≠ [])
    (hc : r.pattern.mentionsLater c = false) (t : List Char) :
    r.read (s ++ c :: t) = (r.read s).map fun (w, rest) => (w, rest ++ c :: t) := by
  have hwithin : ∀ v ∈ r.pattern.language, v <+: s ++ c :: t → v <+: s := by
    intro v hv hp
    rcases Grammar.prefix_append_cases hp with hp | ⟨d, hd, hp⟩
    · exact hp
    · obtain rfl : c = d := by simpa using hd
      have htail : c ∈ v.tail := by
        obtain ⟨a, s, rfl⟩ := List.exists_cons_of_ne_nil hs
        obtain ⟨x, rfl⟩ := hp
        simp
      simp [Pattern.mentionsLater_of_mem_tail hv htail] at hc
  cases hread : r.read s with
  | none =>
      rw [Option.map_none]
      exact read_eq_none_iff.2 fun v hv hp => read_eq_none_iff.1 hread v hv (hwithin v hv hp)
  | some found =>
      obtain ⟨w, rest⟩ := found
      obtain ⟨rfl, hw, hmax⟩ := read_eq_some_iff.1 hread
      exact read_eq_some_iff.2
        ⟨by simp, hw, fun v hv hp => hmax v hv (hwithin v hv hp)⟩

namespace Grammar

open Pattern

variable {g : Grammar}

/-- The characters that go on with nothing but space and strings. -/
def isBreak (c : Char) : Bool := isSpace c || c == ')'

theorem mentionsLater_eq_false {c : Char} (hc : isBreak c = true) :
    ∀ r ∈ g.rules, r.kind ∉ [Kind.space, .string] → r.pattern.mentionsLater c = false := by
  simp only [isBreak, isSpace, Bool.or_eq_true, beq_iff_eq] at hc
  rcases hc with ((((rfl | rfl) | rfl) | rfl) | rfl) | rfl <;> cases g <;> decide

theorem first_eq_false {d : Char} (hspace : isSpace d = false) (hquote : d ≠ '\'' ∧ d ≠ '"') :
    ∀ r ∈ g.rules, r.kind ∈ [Kind.space, .string] → r.pattern.first d = false := by
  intro r hr hk
  simp only [List.mem_cons, List.not_mem_nil, or_false] at hk
  rcases hk with hk | hk
  · rw [pattern_of_space hr hk]
    simp [space, plus, first, nullable, hspace]
  · rw [pattern_of_string hr hk]
    simp [quotedBy, exactly, first, nullable, hquote]

theorem findSome?_congr {α β : Type} {f g : α → Option β} {l : List α}
    (h : ∀ a ∈ l, f a = g a) : l.findSome? f = l.findSome? g := by
  induction l with
  | nil => rfl
  | cons a l ih =>
      rw [List.findSome?_cons, List.findSome?_cons, h a List.mem_cons_self,
        ih fun b hb => h b (List.mem_cons_of_mem a hb)]

/-- Where each rule reads what it reads of the text alone, so does the grammar. -/
theorem split?_append {s t : List Char}
    (h : ∀ r ∈ g.rules, r.read (s ++ t) = (r.read s).map fun (w, rest) => (w, rest ++ t)) :
    g.split? (s ++ t) = (g.split? s).map fun (k, w, rest) => (k, w, rest ++ t) := by
  rw [split?, split?, List.map_findSome?]
  refine findSome?_congr fun r hr => ?_
  rw [h r hr, Function.comp_apply, Option.map_map, Option.map_map]
  rfl

/-- Before a character that goes on with nothing else, tokens other than space and strings are as
before the end of the input. -/
theorem split?_append_cons {c d : Char}
    (hc : ∀ r ∈ g.rules, r.kind ∉ [Kind.space, .string] → r.pattern.mentionsLater c = false)
    (hspace : isSpace d = false) (hquote : d ≠ '\'' ∧ d ≠ '"') (s t : List Char) :
    g.split? (d :: s ++ c :: t) =
      (g.split? (d :: s)).map fun (k, w, rest) => (k, w, rest ++ c :: t) := by
  refine split?_append fun r hr => ?_
  by_cases hk : r.kind ∈ [Kind.space, .string]
  · have hfirst := first_eq_false hspace hquote r hr hk
    rw [List.cons_append, Rule.read_eq_none_of_first hfirst, Rule.read_eq_none_of_first hfirst]
    rfl
  · exact Rule.read_append_cons (by simp) (hc r hr hk) t

/-- A token other than space stays as it is. -/
theorem split?_append_of_ne_space {c : Char}
    (hc : ∀ r ∈ g.rules, r.kind ∉ [Kind.space, .string] → r.pattern.mentionsLater c = false)
    {s w rest : List Char} {k : Kind} (h : g.split? s = some (k, w, rest)) (hk : k ≠ .space)
    (t : List Char) :
    g.split? (s ++ c :: t) = some (k, w, rest ++ c :: t) := by
  obtain ⟨r, hr, rfl, hread⟩ := exists_rule_of_split? h
  obtain ⟨rfl, hw, -⟩ := Rule.read_eq_some_iff.1 hread
  by_cases hstring : r.kind = .string
  · obtain rfl := eq_filter_of_string hr hstring
    rw [hstring] at h
    obtain ⟨q, p, hq, hp, rfl⟩ := quoted_of_split? h
    simpa [hstring] using split?_quoted hq hp (rest ++ c :: t)
  · obtain ⟨d, w, rfl⟩ := List.exists_cons_of_ne_nil (ne_nil_of_split? h)
    have hfirst := first_of_mem hw
    have hspace : isSpace d = false := by
      rw [← Bool.not_eq_true]
      intro hd
      rw [List.cons_append, split?_space g hd] at h
      exact hk (Prod.mk.inj (Option.some.inj h)).1.symm
    have hquote : d ≠ '\'' ∧ d ≠ '"' := by
      have hquotes : ∀ r ∈ g.rules, r.kind ≠ .string →
          r.pattern.first '\'' = false ∧ r.pattern.first '"' = false := by cases g <;> decide
      obtain ⟨hsingle, hdouble⟩ := hquotes r hr hstring
      constructor <;> rintro rfl <;> simp_all
    have happend := split?_append_cons (g := g) hc hspace hquote (w ++ rest) t
    rw [← List.cons_append, h] at happend
    exact happend

theorem isSpace_of_split? {s w rest : List Char} (h : g.split? s = some (.space, w, rest)) :
    ∀ c ∈ w, isSpace c = true := by
  obtain ⟨r, hr, hk, hread⟩ := exists_rule_of_split? h
  have hw := (Rule.read_eq_some_iff.1 hread).2.1
  rw [pattern_of_space hr hk] at hw
  exact (mem_space.1 hw).2

theorem Reads.spaces_append {x s : List Char} {ws : List Lexeme}
    (hx : ∀ c ∈ x, isSpace c = true) (h : g.Reads s ws) : g.Reads (x ++ s) ws := by
  induction x with
  | nil => exact h
  | cons c x ih =>
      obtain ⟨hc, hx⟩ := List.forall_mem_cons.1 hx
      exact (ih hx).space_cons hc

/-- Where a text that can be read is followed by a break, each is read as it is on its own. -/
theorem Reads.append {c : Char} (hc : isBreak c = true) {s t : List Char} {ws us : List Lexeme}
    (hs : g.Reads s ws) (ht : g.Reads (c :: t) us) :
    g.Reads (s ++ c :: t) (ws ++ us) := by
  induction hs with
  | nil => exact ht
  | space hsplit _ ih =>
      rw [← append_of_split? hsplit, List.append_assoc]
      exact ih.spaces_append (isSpace_of_split? hsplit)
  | token hsplit hk _ ih =>
      exact .token (split?_append_of_ne_space (mentionsLater_eq_false hc) hsplit hk t) hk ih

end Grammar

end Sift
