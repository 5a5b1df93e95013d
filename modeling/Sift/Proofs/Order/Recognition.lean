import Sift.Order.Basic
import Sift.Proofs.Parse.Recognition

/-!
# The grammar of orders

`Order.Derived ts o` says that the lexemes `ts` are an order with the keys `o`. The parser of orders
recognizes this grammar.
-/

namespace Sift

open Sift.Parser

variable {c c' : Cursor} {ts : List Lexeme}

/-! ## The rules -/

/-- A segment of a path is a name. -/
inductive Segment.Derived : List Lexeme → String → Prop
  | ident {x : String} : Segment.Derived [⟨.ident, x⟩] x

inductive Key.Derived : List Lexeme → Key → Prop
  | ascending {ts : List Lexeme} {path : List String} :
      Separated .dot Segment.Derived ts path → Key.Derived ts ⟨path, false⟩
  | descending {x : String} {ts : List Lexeme} {path : List String} :
      Separated .dot Segment.Derived ts path →
      Key.Derived (ts ++ [⟨.descWord, x⟩]) ⟨path, true⟩

abbrev Order.Derived : List Lexeme → Order → Prop := Separated .comma Key.Derived

/-! ## The lexemes of an order -/

theorem Segment.Derived.kind_eq {x : String} (h : Segment.Derived ts x) :
    ∀ w ∈ ts, w.kind = .ident := by
  cases h
  simp

theorem Key.Derived.kind_mem {k : Key} (h : k.Derived ts) :
    ∀ w ∈ ts, w.kind ∈ [Kind.ident, .dot, .descWord] := by
  have hpath : ∀ {us path}, Separated .dot Segment.Derived us path →
      ∀ w ∈ us, w.kind ∈ [Kind.ident, .dot, .descWord] := fun hpath =>
    hpath.forall_mem (by simp) fun hx w hw => by simp [hx.kind_eq w hw]
  cases h with
  | ascending h => exact hpath h
  | descending h => exact List.forall_mem_append.2 ⟨hpath h, by simp⟩

theorem Key.Derived.kind_ne_comma {k : Key} (h : k.Derived ts) : ∀ w ∈ ts, w.kind ≠ .comma := by
  intro w hw hk
  simpa [hk] using h.kind_mem w hw

/-- There are no numbers in an order, so that none is out of range. -/
theorem Order.Derived.readable {o : Order} (h : Order.Derived ts o) : ∀ w ∈ ts, w.Readable := by
  refine h.forall_mem (fun _ => trivial) fun hk w hw => Lexeme.readable_of_kind ?_
  have hkind := hk.kind_mem w hw
  simp only [List.mem_cons, List.not_mem_nil, or_false] at hkind
  rcases hkind with hkind | hkind | hkind <;> simp [hkind]

/-! ## Recognition -/

namespace Key

theorem recognizes_segment : Recognizes identParser Segment.Derived (fun _ => True) [] where
  sound c c' x h := by
    simp only [identParser, run_bind_eq_ok, run_expect_eq_ok, run_pure_eq_ok] at h
    obtain ⟨_, _, ⟨hk, rfl, hn⟩, rfl, rfl⟩ := h
    refine ⟨[⟨.ident, c.current.text⟩], ?_, .ident, trivial⟩
    exact ⟨by rw [Token.lexeme, hk], trivial, _, hn, rfl⟩
  complete c c' ts x h _ hts _ := by
    cases h
    obtain ⟨hw, -, _, hn, rfl⟩ := hts
    have hk : c.current.kind = .ident := congrArg Lexeme.kind hw
    have hx : c.current.text = x := congrArg Lexeme.text hw
    simp only [identParser, run_bind_eq_ok, run_expect_eq_ok, run_pure_eq_ok]
    exact ⟨_, _, ⟨hk, rfl, hn⟩, hx, rfl⟩

theorem recognizes_path :
    Recognizes (separated .dot identParser) (Separated .dot Segment.Derived) (fun _ => True)
      [.dot] := by
  have hpath : Recognizes (separated .dot identParser) (Separated .dot Segment.Derived)
      (fun path => ∀ x ∈ path, True) [.dot] := recognizes_segment.separated List.not_mem_nil
  simpa using hpath

/-- The kinds that would go on with a key. -/
def more : List Kind := [.descWord, .dot]

theorem recognizes : Recognizes parser Derived (fun _ => True) more where
  sound c c' k h := by
    simp only [parser, run_bind_eq_ok, run_looksAt_bind] at h
    obtain ⟨path, c₁, hpath, h⟩ := h
    obtain ⟨ts, hts, hpath, -⟩ := recognizes_path.sound hpath
    split at h
    · next hk =>
        simp only [run_bind_eq_ok, run_advance_eq_ok, run_pure_eq_ok] at h
        obtain ⟨_, _, ⟨rfl, hn⟩, rfl, rfl⟩ := h
        refine ⟨ts ++ [⟨.descWord, c₁.current.text⟩], ?_, .descending hpath, trivial⟩
        exact Cursor.passes_append.2
          ⟨c₁, hts, by rw [Token.lexeme, hk], trivial, _, hn, rfl⟩
    · obtain ⟨rfl, rfl⟩ := run_pure_eq_ok.1 h
      exact ⟨ts, hts, .ascending hpath, trivial⟩
  complete c c' ts k h _ hts hc' := by
    simp only [more, List.mem_cons, List.not_mem_nil, or_false, not_or] at hc'
    simp only [parser, run_bind_eq_ok, run_looksAt_bind]
    cases h with
    | ascending hpath =>
        have hrun := recognizes_path.complete hpath trivial hts (by simp [hc'.2])
        exact ⟨_, c', hrun, by simp [hc'.1]⟩
    | descending hpath =>
        obtain ⟨c₁, hpre, hw, -, _, hn, rfl⟩ := Cursor.passes_append.1 hts
        have hk : c₁.current.kind = .descWord := congrArg Lexeme.kind hw
        have hrun := recognizes_path.complete hpath trivial hpre (by simp [hk])
        refine ⟨_, c₁, hrun, ?_⟩
        rw [if_pos hk]
        simp only [run_bind_eq_ok, run_advance_eq_ok, run_pure_eq_ok]
        exact ⟨_, _, ⟨rfl, hn⟩, trivial, rfl⟩

end Key

namespace Order

theorem recognizes :
    Recognizes parser Derived (fun _ => True) (.comma :: Key.more) := by
  have hkeys : Recognizes parser Derived (fun o => ∀ k ∈ o, True) (.comma :: Key.more) :=
    Key.recognizes.separated (by decide)
  simpa using hkeys

/-- What the parser makes of a text, in terms of the lexemes of the text. -/
theorem parse_eq_ok_iff {text : String} {o : Order} :
    parse text = .ok o ↔ ∃ ws, Grammar.orderBy.Reads text.toList ws ∧ Derived ws o := by
  have hwhole : parse text = .ok o ↔ ∃ ws, Grammar.orderBy.Reads text.toList ws ∧ Derived ws o ∧
      True ∧ ∀ w ∈ ws, w.Readable := recognizes.readFrom_whole_iff (by decide)
  rw [hwhole]
  constructor
  · rintro ⟨ws, hws, ho, -, -⟩
    exact ⟨ws, hws, ho⟩
  · rintro ⟨ws, hws, ho⟩
    exact ⟨ws, hws, ho, trivial, ho.readable⟩

end Order

end Sift
