import Sift.Proofs.Filter.Adjacency
import Sift.Proofs.Filter.Composition
import Sift.Proofs.Filter.RoundTrip
import Sift.Proofs.Filter.Strings

/-!
# Strings that break out of their quotes

In the canonical text a string that holds both quotes ends where its first single quote is. Where
what comes then cannot follow a value, the text is not accepted. Where it can, the rest of the
string is read as syntax, and any filter may stand there.
-/

namespace Sift

open Grammar

/-- The texts of the lexemes that may follow a value. -/
def Value.followerTexts : List (List Char) :=
  [['.'], ['('], [')'], [','], ['A', 'N', 'D'], ['O', 'R'], ['!', '='], ['>', '='], ['<', '='],
    ['>'], ['<'], ['='], [':']]

/-- What comes in the string after its first single quote, without leading space. -/
def afterQuote (s : String) : List Char :=
  (s.toList.dropWhile (· != '\'')).tail.dropWhile isSpace

/-- The string holds both quotes, and goes on after the first single quote as after a value. -/
def BreaksOut (s : String) : Prop :=
  Unquotable s ∧ ∃ w ∈ Value.followerTexts, w <+: afterQuote s

instance (s : String) : Decidable (BreaksOut s) :=
  inferInstanceAs (Decidable (Unquotable s ∧ ∃ w ∈ Value.followerTexts, w <+: afterQuote s))

/-! ## What stands after the quote -/

theorem mem_followerTexts {r : Rule} (hr : r ∈ filter.rules) (hk : r.kind ∈ Value.followers)
    {w : List Char} (hw : w ∈ r.pattern.language) : w ∈ Value.followerTexts := by
  have hrules : ∀ r ∈ filter.rules, r.kind ∈ Value.followers →
      ∀ w ∈ r.pattern.language, w ∈ Value.followerTexts := by
    simp [rules, Value.followers, Value.followerTexts, space, ident, float, int]
  exact hrules r hr hk w hw

theorem exists_afterQuote {s : String} (h : '\'' ∈ s.toList) :
    ∃ a b, s.toList = a ++ '\'' :: b ∧ '\'' ∉ a ∧ afterQuote s = b.dropWhile isSpace := by
  obtain ⟨a, b, hs, ha⟩ := List.eq_append_cons_of_mem h
  have hne : ∀ c ∈ a, (c != '\'') = true := fun c hc => by
    rw [bne_iff_ne]
    rintro rfl
    exact ha hc
  refine ⟨a, b, hs, ha, ?_⟩
  rw [afterQuote, hs, List.dropWhile_append_of_pos hne, List.dropWhile_cons_of_neg (by decide),
    List.tail_cons]

theorem not_quote_mem_followerTexts : ∀ w ∈ Value.followerTexts, '\'' ∉ w := by decide

/-- No lexeme that may follow a value comes after a string that is cut off and does not break
out. -/
theorem Broken.not_flowing {s : List Char} {us : List Lexeme} (h : Broken (¬ BreaksOut ·) s)
    (hs : filter.Reads s us) : ¬ Flowing us := by
  obtain ⟨t, ws, x, r, rfl, ht, hx, hquotes⟩ := h
  obtain ⟨a, b, hab, ha, hafter⟩ := exists_afterQuote hquotes.1
  have hchars : t ++ ((Value.string x).chars ++ r) =
      t ++ '\'' :: (a ++ '\'' :: (b ++ '\'' :: r)) := by
    have hsingle : (Value.string x).chars = '\'' :: x.toList ++ ['\''] := by
      simp [Value.chars, hquotes.2]
    simp [hsingle, hab]
  rw [hchars] at hs
  -- The lexemes are those before the string, the string up to its quote, and one more.
  obtain ⟨us, rfl, hus⟩ := Reads.of_append_quote (.inl rfl) ht hs
  obtain ⟨vs, rfl, hvs⟩ := Reads.of_quoted (.inl rfl) ha hus
  have hdrop := dropWhile_isSpace_quote (.inl rfl) b r
  obtain ⟨k, w, rest, vs, hsplit, rfl⟩ := hvs.exists_token (by rw [hdrop]; simp)
  rw [hdrop, ← hafter] at hsplit
  intro hflow
  have hchain := (List.isChain_append.1 hflow).2.1
  have hk : k ∈ Value.followers := (List.isChain_cons_cons.1 hchain).1 (by simp [Value.kinds])
  obtain ⟨rule, hrule, rfl, hread⟩ := exists_rule_of_split? hsplit
  have hw := mem_followerTexts hrule hk (Rule.read_eq_some_iff.1 hread).2.1
  rcases prefix_append_cases ⟨rest, append_of_split? hsplit⟩ with hp | ⟨c, hc, hp⟩
  · exact hx ⟨hquotes, w, hw, hp⟩
  · obtain rfl : '\'' = c := by simpa using hc
    exact not_quote_mem_followerTexts w hw (hp.subset (by simp))

/-- The term that is one string. -/
def Term.ofString (s : String) : Term := .mk false (.test (.plain (.string s) []))

namespace Filter

variable {f : Filter} {text : String}

theorem exists_error_of_broken (h : Broken (¬ BreaksOut ·) (Filter.chars f)) :
    ∃ e, parse (render f) = .error e := by
  cases hparse : parse (render f) with
  | error e => exact ⟨e, rfl⟩
  | ok g =>
      obtain ⟨ws, hws, hg, -⟩ := parse_eq_ok_iff.1 hparse
      rw [render, String.toList_ofList] at hws
      exact absurd hg.flowing (h.not_flowing hws)

/-! ## Filters within strings -/

/-- The filter that is one string. -/
def ofString (s : String) : Filter := [[.ofString s]]

theorem writableWith_ofString {P : String → Prop} {s : String} :
    WritableWith P (ofString s) ↔ P s := by
  simp [ofString, Term.ofString, WritableWith, Clause.WritableWith, Term.WritableWith,
    Simple.WritableWith, Comparable.WritableWith, Value.WritableWith]

theorem writable_ofString {s : String} : Writable (ofString s) ↔ ¬ Unquotable s := by
  rw [Unquotable, not_and_or]
  simp [ofString, Term.ofString, Writable, Clause.Writable, Term.Writable, Simple.Writable,
    Comparable.Writable, Value.Writable]

theorem depth_ofString (s : String) : depth (ofString s) = 0 := by
  simp [ofString, Term.ofString, depth, Clause.depth, Term.depth, Simple.depth, Comparable.depth]

theorem parse_render_payload (h : parse text = .ok f) :
    parse (render (ofString ("' AND " ++ text ++ " AND \"\" AND '"))) =
      .ok (ofString "" ++ f ++ ofString "" ++ ofString "") := by
  have hsingle : parse "''" = .ok (ofString "") := parse_quoted (.inl rfl) (by simp) (by simp)
  have hdouble : parse "\"\"" = .ok (ofString "") := parse_quoted (.inr rfl) (by simp) (by simp)
  have hrender : render (ofString ("' AND " ++ text ++ " AND \"\" AND '")) =
      "''" ++ " AND " ++ text ++ " AND " ++ "\"\"" ++ " AND " ++ "''" := by
    rw [← String.toList_inj]
    simp [render, ofString, Term.ofString, Filter.chars, Clause.chars, Term.chars, Simple.chars,
      Comparable.chars, Value.chars]
  rw [hrender]
  exact parse_and (parse_and (parse_and hsingle h) hdouble) hsingle

/-- Of a tree that could be written but for its strings, none of which breaks out of its quotes, the
canonical text gives the tree back when the strings can be written as well, and is refused when they
cannot. But each tree that is given back may stand in a string that breaks out. -/
theorem parse_render_of_strings (h : WritableWith (¬ BreaksOut ·) f) (hdepth : depth f ≤ maxDepth) :
    (Writable f → parse (render f) = .ok f ∧
      ∃ s, parse (render (ofString s)) = .ok (ofString "" ++ f ++ ofString "" ++ ofString "")) ∧
    (¬ Writable f → ∃ e, parse (render f) = .error e) := by
  constructor
  · intro hf
    have hread := parse_render_of_writable hf hdepth
    exact ⟨hread, _, parse_render_payload hread⟩
  · intro hf
    exact exists_error_of_broken ((writable_or_broken f h).resolve_left hf)

/-- A quote within a string is read back, and two different ones are refused. -/
theorem parse_render_of_strings_said :
    let f := ofString "it's"
    let g := ofString "said \"it's\""
    (WritableWith (¬ BreaksOut ·) f ∧ depth f ≤ maxDepth ∧ Writable f) ∧
      (WritableWith (¬ BreaksOut ·) g ∧ depth g ≤ maxDepth ∧ ¬ Writable g) ∧
      parse (render f) = .ok f ∧ ∃ e, parse (render g) = .error e := by
  intro f g
  have hf : WritableWith (¬ BreaksOut ·) f := writableWith_ofString.2 (by decide)
  have hg : WritableWith (¬ BreaksOut ·) g := writableWith_ofString.2 (by decide)
  have hdepth (s : String) : depth (ofString s) ≤ maxDepth := by simp [depth_ofString]
  have hwritable : Writable f := writable_ofString.2 (by decide)
  have hnot : ¬ Writable g := fun h => writable_ofString.1 h (by decide)
  exact ⟨⟨hf, hdepth _, hwritable⟩, ⟨hg, hdepth _, hnot⟩,
    ((parse_render_of_strings hf (hdepth _)).1 hwritable).1,
    (parse_render_of_strings hg (hdepth _)).2 hnot⟩

/-- The rest of this string is read as two more terms. -/
theorem parse_render_breakout :
    let f := ofString "x' OR \"y\" OR '"
    let g := [[.ofString "x", .ofString "y", .ofString ""]]
    WritableWith (fun _ => True) f ∧ depth f ≤ maxDepth ∧ parse (render f) = .ok g ∧ g ≠ f := by
  intro f g
  have hx : parse "'x'" = .ok (ofString "x") := parse_quoted (.inl rfl) (by simp) (by simp)
  have hy : parse "\"y\"" = .ok (ofString "y") := parse_quoted (.inr rfl) (by simp) (by simp)
  have hempty : parse "''" = .ok (ofString "") := parse_quoted (.inl rfl) (by simp) (by simp)
  have hrender : render f = "'x'" ++ " OR " ++ "\"y\"" ++ " OR " ++ "''" := by decide
  have hne : g ≠ f := by simp [f, g, ofString]
  refine ⟨writableWith_ofString.2 trivial, by simp [f, depth_ofString], ?_, hne⟩
  rw [hrender]
  exact parse_or (a := []) (parse_or (a := []) hx hy) hempty

end Filter

end Sift
