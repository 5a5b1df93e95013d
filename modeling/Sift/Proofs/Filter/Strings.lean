import Sift.Proofs.Filter.Rendering
import Sift.Proofs.Token.Quotes

/-!
# Trees with any strings

A tree may be writable but for the strings in it. Then the first string that holds both quotes comes
after a part of the canonical text that is read as it should be.
-/

namespace Sift

open Grammar

/-! ## Writable but for the strings -/

def Value.WritableWith (P : String → Prop) : Value → Prop
  | string s => P s
  | v => v.Writable

def Field.WritableWith (P : String → Prop) : Field → Prop
  | value v => v.WritableWith P
  | f => f.Writable

mutual

def Term.WritableWith (P : String → Prop) : Term → Prop
  | .mk _ body => body.WritableWith P

def Simple.WritableWith (P : String → Prop) : Simple → Prop
  | .group f => Filter.WritableWith P f
  | .test operand => operand.WritableWith P
  | .compare left _ right => left.WritableWith P ∧ right.WritableWith P

def Comparable.WritableWith (P : String → Prop) : Comparable → Prop
  | .plain value path => value.WritableWith P ∧ ∀ f ∈ path, f.WritableWith P
  | .call value path args =>
    value.WritableWith P ∧ (∀ f ∈ path, f.WritableWith P) ∧ Args.WritableWith P args

def Arg.WritableWith (P : String → Prop) : Arg → Prop
  | .group f => Filter.WritableWith P f
  | .comparable operand => operand.WritableWith P

def Args.WritableWith (P : String → Prop) : List Arg → Prop
  | [] => True
  | arg :: r => arg.WritableWith P ∧ Args.WritableWith P r

def Clause.WritableWith (P : String → Prop) : List Term → Prop
  | [] => False
  | [term] => term.WritableWith P
  | term :: r => term.WritableWith P ∧ Clause.WritableWith P r

/-- The tree would be writable if its strings were, and they satisfy `P`. -/
def Filter.WritableWith (P : String → Prop) : List (List Term) → Prop
  | [] => False
  | [clause] => Clause.WritableWith P clause
  | clause :: r => Clause.WritableWith P clause ∧ Filter.WritableWith P r

end

/-! ## Texts with a broken string -/

/-- The string holds both quotes, so that it can stand between neither. -/
def Unquotable (s : String) : Prop := '\'' ∈ s.toList ∧ '"' ∈ s.toList

instance (s : String) : Decidable (Unquotable s) :=
  inferInstanceAs (Decidable ('\'' ∈ s.toList ∧ '"' ∈ s.toList))

/-- After a part that can be read, the text has a string that holds both quotes. -/
def Broken (P : String → Prop) (s : List Char) : Prop :=
  ∃ t ws x r, s = t ++ ((Value.string x).chars ++ r) ∧ filter.Reads t ws ∧ P x ∧ Unquotable x

variable {P : String → Prop} {s u : List Char} {ws : List Lexeme}

namespace Broken

theorem append (h : Broken P s) (u : List Char) : Broken P (s ++ u) := by
  obtain ⟨t, ws, x, r, rfl, ht, hx⟩ := h
  exact ⟨t, ws, x, r ++ u, by simp, ht, hx⟩

/-- What may come before anything that can be read may come before a broken text. -/
theorem prepend (h : Broken P s)
    (hread : ∀ t ws, t <+: s → filter.Reads t ws → ∃ us, filter.Reads (u ++ t) us) :
    Broken P (u ++ s) := by
  obtain ⟨t, ws, x, r, rfl, ht, hx⟩ := h
  obtain ⟨us, hus⟩ := hread t ws (List.prefix_append _ _) ht
  exact ⟨u ++ t, us, x, r, by simp, hus, hx⟩

theorem space (h : Broken P s) : Broken P (' ' :: s) :=
  h.prepend (u := [' ']) fun _ _ _ ht => ⟨_, ht.space_cons rfl⟩

theorem mark {k : Kind} {c : Char} (hc : (k, c) ∈ marks) (h : Broken P s) :
    Broken P (c :: s) := by
  have hkinds : ∀ e ∈ marks, e.1 ≠ .space := by decide
  exact h.prepend (u := [c]) fun _ _ _ ht => ⟨_, .token (split?_mark hc _) (hkinds _ hc) ht⟩

theorem word {e : Kind × List Char} (he : e ∈ filter.words) (h : Broken P s) :
    Broken P (e.2 ++ s) := by
  have hkinds : ∀ e ∈ filter.words, e.1 ≠ .space := by decide
  exact h.prepend fun _ _ _ ht => ⟨_, .token (split?_word he _) (hkinds _ he) ht⟩

theorem comparison (op : Comparison) (h : Broken P s) (hs : s.head? ≠ some '=') :
    Broken P (op.symbol.toList ++ s) := by
  refine h.prepend fun t ws hp ht => ⟨_, .token (split?_comparison op ?_) (by decide) ht⟩
  obtain ⟨r, rfl⟩ := hp
  intro hhead
  simp [hhead] at hs

/-- A text that is spelled may come before a break. -/
theorem after {c : Char} (h : Broken P (c :: s)) (hu : Spelled u ws) (hc : isWordChar c = false)
    (hdot : c ≠ '.') : Broken P (u ++ c :: s) := by
  refine h.prepend fun t us hp ht => ⟨_, hu.reads ?_ ht⟩
  rcases List.prefix_cons_iff.1 hp with rfl | ⟨t, rfl, -⟩
  · exact .nil
  · simpa using joins_cons hc hdot t [] .nil

theorem joinedBy {e : Kind × List Char} (h : Broken P s) (hu : Spelled u ws)
    (he : e ∈ filter.words) : Broken P (u ++ ' ' :: (e.2 ++ ' ' :: s)) :=
  (h.space.word he).space.after hu (by decide) (by decide)

theorem inParens (h : Broken P s) : Broken P ('(' :: (s ++ [')'])) :=
  (h.append [')']).mark (k := .openParen) (by simp [marks])

end Broken

/-! ## Values and paths -/

theorem Value.writable_or_eq_string {v : Value} (h : v.WritableWith P) :
    v.Writable ∨ ∃ x, v = string x ∧ P x ∧ Unquotable x := by
  cases v with
  | string x =>
      by_cases hx : Unquotable x
      · exact .inr ⟨x, rfl, h, hx⟩
      · exact .inl (not_and_or.1 hx)
  | _ => exact .inl h

theorem Value.writable_or_broken {v : Value} (h : v.WritableWith P) :
    v.Writable ∨ Broken P v.chars := by
  refine (writable_or_eq_string h).imp_right ?_
  rintro ⟨x, rfl, hx⟩
  exact ⟨[], [], x, [], by simp, .nil, hx⟩

theorem Field.writable_or_eq_string {f : Field} (h : f.WritableWith P) :
    f.Writable ∨ ∃ x, f = .value (.string x) ∧ P x ∧ Unquotable x := by
  cases f with
  | keyword text => exact .inl h
  | value v =>
      refine (Value.writable_or_eq_string h).imp_right ?_
      rintro ⟨x, rfl, hx⟩
      exact ⟨x, rfl, hx⟩

theorem Path.writable_or_broken {path : List Field} (h : ∀ f ∈ path, f.WritableWith P)
    (hs : Spelled s ws) :
    (∀ f ∈ path, f.Writable) ∨ Broken P (s ++ path.flatMap Field.suffix) := by
  induction path generalizing s ws with
  | nil => exact .inl (by simp)
  | cons f path ih =>
      obtain ⟨hf, hpath⟩ := List.forall_mem_cons.1 h
      rw [List.forall_mem_cons, List.flatMap_cons]
      rcases Field.writable_or_eq_string hf with hf | ⟨x, rfl, hx⟩
      · obtain ⟨ts, -, hspell⟩ := Field.exists_spelled hf
        have hnext := ih hpath (hs.append hspell (Field.joins_suffix hf))
        rw [List.append_assoc] at hnext
        exact hnext.imp_left fun hpath => ⟨hf, hpath⟩
      · -- The point before the string is read, whatever comes after it.
        have hdot : Boundary ['.'] := fun c r h => by cases h; exact ⟨by decide, by simp⟩
        have hreads := hs.reads hdot (.token (split?_dot hdot) (by decide) .nil)
        exact .inr ⟨s ++ ['.'], _, x, path.flatMap Field.suffix,
          by simp [Field.suffix, Field.chars], hreads, hx⟩

/-! ## Trees -/

theorem Value.exists_chars_of_writableWith {v : Value} (h : v.WritableWith P) :
    ∃ c r, v.chars = c :: r ∧ c ≠ '=' := by
  cases v with
  | string x =>
      refine ⟨_, _, rfl, ?_⟩
      split <;> decide
  | _ => exact exists_chars h

theorem Arg.head?_chars {a : Arg} (h : a.WritableWith P) : a.chars.head? ≠ some '=' := by
  cases a with
  | group f => simp [chars]
  | comparable x =>
      cases x with
      | plain v path | call v path args =>
          obtain ⟨c, r, hs, hc⟩ := Value.exists_chars_of_writableWith h.1
          simp [chars, Comparable.chars, hs, hc]

theorem Comparable.plain_writable_or_broken (v : Value) (path : List Field)
    (h : (plain v path).WritableWith P) :
    (plain v path).Writable ∨ Broken P (plain v path).chars := by
  rcases Value.writable_or_broken h.1 with hv | hv
  · obtain ⟨ts, -, hspell⟩ := Value.exists_spelled hv
    exact (Path.writable_or_broken h.2 hspell).imp_left (⟨hv, ·⟩)
  · exact .inr (hv.append _)

mutual

theorem Term.writable_or_broken :
    (x : Term) → x.WritableWith P → x.Writable ∨ Broken P x.chars
  | .mk negated body, h => by
      refine (Simple.writable_or_broken body h).imp_right fun hb => ?_
      cases negated with
      | false => exact hb
      | true => exact hb.mark (k := .minus) (by simp [marks])

theorem Simple.writable_or_broken :
    (x : Simple) → x.WritableWith P → x.Writable ∨ Broken P x.chars
  | .group f, h => (Filter.writable_or_broken f h).imp_right .inParens
  | .test x, h => Comparable.writable_or_broken x h
  | .compare x op a, h => by
      rcases Comparable.writable_or_broken x h.1 with hx | hx
      · refine (Arg.writable_or_broken a h.2).imp (⟨hx, ·⟩) fun hb => ?_
        obtain ⟨ts, -, hspell⟩ := Comparable.exists_spelled x hx
        have hb := hb.comparison op (Arg.head?_chars h.2)
        obtain ⟨c, r, hsymbol, hc, hdot⟩ : ∃ c r, op.symbol.toList = c :: r ∧
            isWordChar c = false ∧ c ≠ '.' := by
          cases op <;> exact ⟨_, _, rfl, by decide, by decide⟩
        rw [hsymbol] at hb
        simpa [Simple.chars, hsymbol] using hb.after hspell hc hdot
      · exact .inr ((hx.append _).append _)

theorem Comparable.writable_or_broken :
    (x : Comparable) → x.WritableWith P → x.Writable ∨ Broken P x.chars
  | .plain v path, h => Comparable.plain_writable_or_broken v path h
  | .call v path args, h => by
      rcases Comparable.plain_writable_or_broken v path ⟨h.1, h.2.1⟩ with hx | hx
      · obtain ⟨ts, -, hspell⟩ := Comparable.exists_spelled (.plain v path) hx
        refine (Args.writable_or_broken args h.2.2).imp (⟨hx.1, hx.2, ·⟩) fun hb => ?_
        have hb := hb.inParens.after hspell (by decide) (by decide)
        simpa [Comparable.chars] using hb
      · exact .inr (((hx.append _).append _).append _)

theorem Arg.writable_or_broken :
    (x : Arg) → x.WritableWith P → x.Writable ∨ Broken P x.chars
  | .group f, h => (Filter.writable_or_broken f h).imp_right .inParens
  | .comparable x, h => Comparable.writable_or_broken x h

theorem Args.writable_or_broken :
    (args : List Arg) → Args.WritableWith P args → Args.Writable args ∨ Broken P (Args.chars args)
  | [], _ => .inl trivial
  | [a], h => (Arg.writable_or_broken a h.1).imp_left (⟨·, trivial⟩)
  | a :: b :: r, h => by
      rcases Arg.writable_or_broken a h.1 with ha | ha
      · obtain ⟨ts, -, hspell⟩ := Arg.exists_spelled a ha
        refine (Args.writable_or_broken (b :: r) h.2).imp (⟨ha, ·⟩) fun hb => ?_
        have hcomma := hb.space.mark (k := .comma) (c := ',') (by simp [marks])
        have hb := hcomma.after hspell (by decide) (by decide)
        simpa [Args.chars] using hb
      · exact .inr ((ha.append _).append _)

theorem Clause.writable_or_broken :
    (c : List Term) → Clause.WritableWith P c → Clause.Writable c ∨ Broken P (Clause.chars c)
  | [t], h => Term.writable_or_broken t h
  | t :: t' :: r, h => by
      rcases Term.writable_or_broken t h.1 with ht | ht
      · obtain ⟨ts, -, hspell⟩ := Term.exists_spelled t ht
        refine (Clause.writable_or_broken (t' :: r) h.2).imp (⟨ht, ·⟩) fun hb => ?_
        have hb := hb.joinedBy hspell (e := (.orWord, ['O', 'R'])) (by simp [words])
        simpa [Clause.chars] using hb
      · exact .inr ((ht.append _).append _)

theorem Filter.writable_or_broken :
    (f : List (List Term)) → Filter.WritableWith P f → Filter.Writable f ∨ Broken P (Filter.chars f)
  | [c], h => Clause.writable_or_broken c h
  | c :: c' :: r, h => by
      rcases Clause.writable_or_broken c h.1 with hc | hc
      · obtain ⟨ts, -, hspell⟩ := Clause.exists_spelled c hc
        refine (Filter.writable_or_broken (c' :: r) h.2).imp (⟨hc, ·⟩) fun hb => ?_
        have hb := hb.joinedBy hspell (e := (.andWord, ['A', 'N', 'D'])) (by simp [words])
        simpa [Filter.chars] using hb
      · exact .inr ((hc.append _).append _)

end

end Sift
