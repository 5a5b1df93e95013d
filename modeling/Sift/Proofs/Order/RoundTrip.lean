import Mathlib.Data.List.TFAE
import Mathlib.Tactic.TFAE
import Sift.Proofs.Order.Recognition

/-!
# Reading back canonical orders

An order can be written when it has a key, each key a segment, and each segment is a name. Those are
the orders that some text has, and each of them is read from its canonical text.
-/

namespace Sift

open Grammar

/-! ## Tokens of orders -/

namespace Grammar

theorem split?_separator {k : Kind} {c : Char} (h : (k, c) ∈ [(Kind.dot, '.'), (.comma, ',')])
    (rest : List Char) : orderBy.split? (c :: rest) = some (k, [c], rest) := by
  simp only [List.mem_cons, Prod.mk.injEq, List.not_mem_nil, or_false] at h
  rcases h with ⟨rfl, rfl⟩ | ⟨rfl, rfl⟩
  · exact split?_of_first 3 rfl (by decide) (longest_word ['.'] rest)
  · exact split?_of_first 4 rfl (by decide) (longest_word [','] rest)

theorem split?_desc (rest : List Char) :
    orderBy.split? (['d', 'e', 's', 'c'] ++ rest) =
      some (.descWord, ['d', 'e', 's', 'c'], rest) :=
  split?_of_first 1 rfl (by decide) (longest_word _ rest)

end Grammar

/-! ## Spelling -/

/-- The text is read as `ws` wherever no name goes on after it. -/
def SpellsOrder (s : List Char) (ws : List Lexeme) : Prop :=
  ∀ ⦃rest : List Char⦄ ⦃us : List Lexeme⦄, (∀ c ∈ rest.head?, isWordChar c = false) →
    orderBy.Reads rest us → orderBy.Reads (s ++ rest) (ws ++ us)

namespace SpellsOrder

variable {s t : List Char} {ws us : List Lexeme}

theorem name {x : String} (hx : orderBy.IsName x.toList) :
    SpellsOrder x.toList [⟨.ident, x⟩] := by
  intro rest us hrest hus
  have hread := Reads.token (split?_ident hx hrest) (by decide) hus
  simpa [Lexeme.ofChars] using hread

theorem space (h : SpellsOrder s ws) : SpellsOrder (' ' :: s) ws :=
  fun _ _ hrest hus => (h hrest hus).space_cons rfl

theorem desc : SpellsOrder ['d', 'e', 's', 'c'] [⟨.descWord, "desc"⟩] :=
  fun _ _ _ hus => .token (split?_desc _) (by decide) hus

/-- A text may go on after another where its first character goes on with no name. -/
theorem append {c : Char} (hs : SpellsOrder s ws) (hc : isWordChar c = false)
    (ht : SpellsOrder (c :: t) us) : SpellsOrder (s ++ c :: t) (ws ++ us) := by
  intro rest vs hrest hvs
  simp only [List.append_assoc]
  exact hs (by simpa using hc) (ht hrest hvs)

theorem separator {k : Kind} {c : Char} (hk : (k, c) ∈ [(Kind.dot, '.'), (.comma, ',')])
    (hs : SpellsOrder s ws) (ht : SpellsOrder t us) :
    SpellsOrder (s ++ c :: t) (ws ++ .ofChars k [c] :: us) := by
  have hc : isWordChar c = false ∧ k ≠ .space := by
    simp only [List.mem_cons, Prod.mk.injEq, List.not_mem_nil, or_false] at hk
    rcases hk with ⟨rfl, rfl⟩ | ⟨rfl, rfl⟩ <;> decide
  refine hs.append hc.1 fun rest vs hrest hvs => ?_
  exact .token (split?_separator hk _) hc.2 (ht hrest hvs)

/-- Parts that are spelled one by one are spelled in a row, with a separator between them. -/
theorem exists_separated {α : Type} {D : List Lexeme → α → Prop} {chars : α → List Char}
    {k : Kind} {c : Char} {gap : List Char} (hk : (k, c) ∈ [(Kind.dot, '.'), (.comma, ',')])
    (hgap : ∀ {t us}, SpellsOrder t us → SpellsOrder (gap ++ t) us) : (as : List α) → as ≠ [] →
    (∀ a ∈ as, ∃ ts, D ts a ∧ SpellsOrder (chars a) ts) →
    ∃ ts, Separated k D ts as ∧ SpellsOrder ((c :: gap).intercalate (as.map chars)) ts
  | [a], _, h => by
      obtain ⟨ts, ha, hs⟩ := h a List.mem_cons_self
      exact ⟨ts, .one ha, by simpa using hs⟩
  | a :: b :: r, _, h => by
      obtain ⟨⟨ts, ha, hs⟩, hr⟩ := List.forall_mem_cons.1 h
      obtain ⟨us, hus, ht⟩ := exists_separated hk hgap (b :: r) (List.cons_ne_nil b r) hr
      refine ⟨ts ++ .ofChars k [c] :: us, .cons ha hus, ?_⟩
      simpa [List.intercalate_cons_cons] using hs.separator hk (hgap ht)

end SpellsOrder

/-! ## Orders that can be written -/

namespace Key

structure Writable (k : Key) : Prop where
  ne_nil : k.path ≠ []
  isName : ∀ x ∈ k.path, orderBy.IsName x.toList

theorem Writable.exists_spells {k : Key} (h : k.Writable) :
    ∃ ts, k.Derived ts ∧ SpellsOrder k.chars ts := by
  obtain ⟨path, descending⟩ := k
  obtain ⟨ts, hts, hspells⟩ : ∃ ts, Separated .dot Segment.Derived ts path ∧
      SpellsOrder (['.'].intercalate (path.map String.toList)) ts :=
    SpellsOrder.exists_separated (by simp) id path h.ne_nil fun x hx =>
      ⟨_, .ident, SpellsOrder.name (h.isName x hx)⟩
  cases descending with
  | false => exact ⟨ts, .ascending hts, by simpa [chars] using hspells⟩
  | true => exact ⟨_, .descending hts, hspells.append (by decide) SpellsOrder.desc.space⟩

end Key

namespace Order

variable {o : Order} {text : String}

structure Writable (o : Order) : Prop where
  ne_nil : o ≠ []
  keys : ∀ k ∈ o, k.Writable

theorem parse_render_of_writable (h : o.Writable) : parse o.render = .ok o := by
  obtain ⟨ts, hts, hspells⟩ : ∃ ts, Derived ts o ∧ SpellsOrder o.chars ts :=
    SpellsOrder.exists_separated (by simp) .space o h.ne_nil fun k hk =>
      (h.keys k hk).exists_spells
  have hreads := hspells (by simp) (.nil : orderBy.Reads [] [])
  simp only [List.append_nil] at hreads
  exact parse_eq_ok_iff.2 ⟨ts, by rwa [render, String.toList_ofList], hts⟩

end Order

/-! ## Orders that have a text -/

namespace Grammar

theorem Reads.isName {g : Grammar} {s : List Char} {ws : List Lexeme} (h : g.Reads s ws) :
    ∀ w ∈ ws, w.kind = .ident → g.IsName w.text.toList := by
  induction h with
  | nil => simp
  | space _ _ ih => exact ih
  | @token s w rest k ws hsplit _ _ ih =>
      refine List.forall_mem_cons.2 ⟨?_, ih⟩
      rintro rfl
      rw [Lexeme.toList_ofChars (by decide)]
      exact isName_of_split? hsplit

end Grammar

section

variable {ts : List Lexeme}

theorem Segment.isName_of_derived {x : String} (h : Segment.Derived ts x)
    (hts : ∀ w ∈ ts, w.kind = .ident → orderBy.IsName w.text.toList) :
    orderBy.IsName x.toList := by
  cases h
  exact hts _ List.mem_cons_self rfl

theorem Key.writable_of_derived {k : Key} (h : k.Derived ts)
    (hts : ∀ w ∈ ts, w.kind = .ident → orderBy.IsName w.text.toList) : k.Writable := by
  cases h with
  | ascending hpath => exact ⟨hpath.ne_nil, hpath.forall_of Segment.isName_of_derived hts⟩
  | descending hpath =>
      have hpre := fun w hw => hts w (List.mem_append_left _ hw)
      exact ⟨hpath.ne_nil, hpath.forall_of Segment.isName_of_derived hpre⟩

end

namespace Order

variable {o : Order} {text : String}

theorem writable_of_parse (h : parse text = .ok o) : o.Writable := by
  obtain ⟨ws, hws, ho⟩ := parse_eq_ok_iff.1 h
  exact ⟨ho.ne_nil, ho.forall_of Key.writable_of_derived hws.isName⟩

/-- A text is an order when its lexemes spell it by the grammar. The orders that have a text are
those that can be written, and each is read from its canonical text. -/
theorem parse_derived_tfae :
    (∀ text o, parse text = .ok o ↔
      ∃ ts p, (Lexer.ofText .orderBy text).stream.significant = ⟨ts, .ok p⟩ ∧
        Derived (ts.map Token.lexeme) o) ∧
    ∀ o, [∃ text, parse text = .ok o, o.Writable, parse o.render = .ok o].TFAE := by
  constructor
  · intro text o
    rw [parse_eq_ok_iff]
    constructor
    · rintro ⟨ws, hws, ho⟩
      obtain ⟨ts, p, hs, rfl⟩ := reads_iff_significant.1 hws
      exact ⟨ts, p, hs, ho⟩
    · rintro ⟨ts, p, hs, ho⟩
      exact ⟨_, reads_iff_significant.2 ⟨ts, p, hs, rfl⟩, ho⟩
  · intro o
    tfae_have 1 → 2 := fun ⟨_, h⟩ => writable_of_parse h
    tfae_have 2 → 3 := parse_render_of_writable
    tfae_have 3 → 1 := fun h => ⟨_, h⟩
    tfae_finish

end Order

end Sift
