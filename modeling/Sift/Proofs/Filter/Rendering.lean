import Sift.Proofs.Filter.Writable

/-!
# The canonical text of a tree

A writable tree is read from its canonical text. Each part of the text is spelled: whatever follows
it, as long as no name and no number goes on there, the lexer reads the lexemes of the part first.
-/

namespace Sift

open Grammar Decimal

variable {s t : List Char} {ws us : List Lexeme}

/-! ## Texts that begin at a boundary -/

/-- No name and no number goes on into the text, even if it is empty and a boundary follows. -/
def Joins (s : List Char) : Prop := ∀ rest, Boundary rest → Boundary (s ++ rest)

theorem joins_nil : Joins [] := fun _ h => h

theorem joins_cons {c : Char} (hc : isWordChar c = false) (hdot : c ≠ '.') (s : List Char) :
    Joins (c :: s) := by
  rintro rest - d r h
  cases h
  exact ⟨hc, fun he => absurd he hdot⟩

theorem joins_dot {c : Char} (hc : c.isDigit = false) (s : List Char) : Joins ('.' :: c :: s) := by
  rintro rest - d r h
  cases h
  exact ⟨by decide, fun _ d hd => by cases hd; exact hc⟩

theorem Joins.append (hs : Joins s) (ht : Joins t) : Joins (s ++ t) := by
  intro rest h
  rw [List.append_assoc]
  exact hs _ (ht _ h)

/-! ## Spelling -/

/-- The text is read as `ws` wherever it stands before a boundary. -/
structure Spelled (s : List Char) (ws : List Lexeme) : Prop where
  readable : ∀ w ∈ ws, w.Readable
  reads : ∀ ⦃rest : List Char⦄ ⦃us : List Lexeme⦄, Boundary rest → filter.Reads rest us →
    filter.Reads (s ++ rest) (ws ++ us)

namespace Spelled

theorem nil : Spelled [] [] := ⟨by simp, fun _ _ _ h => h⟩

theorem space (h : Spelled s ws) : Spelled (' ' :: s) ws :=
  ⟨h.readable, fun _ _ hrest hus => (h.reads hrest hus).space_cons rfl⟩

theorem append (hs : Spelled s ws) (ht : Spelled t us) (hjoin : Joins t) :
    Spelled (s ++ t) (ws ++ us) where
  readable w hw := (List.mem_append.1 hw).elim (hs.readable w) (ht.readable w)
  reads rest vs hrest hvs := by
    simp only [List.append_assoc]
    exact hs.reads (hjoin rest hrest) (ht.reads hrest hvs)

theorem token {k : Kind} (hk : k ≠ .space) (hread : (Lexeme.ofChars k s).Readable)
    (hsplit : ∀ rest, Boundary rest → filter.split? (s ++ rest) = some (k, s, rest)) :
    Spelled s [.ofChars k s] where
  readable := by simpa using hread
  reads rest us hrest hus := .token (hsplit rest hrest) hk hus

theorem mark {k : Kind} {c : Char} (hc : (k, c) ∈ marks) (h : Spelled s ws) :
    Spelled (c :: s) (.ofChars k [c] :: ws) := by
  have hread : k ≠ .space ∧ (Lexeme.ofChars k [c]).Readable := by
    simp only [marks, List.mem_cons, Prod.mk.injEq, List.not_mem_nil, or_false] at hc
    rcases hc with ⟨rfl, rfl⟩ | ⟨rfl, rfl⟩ | ⟨rfl, rfl⟩ | ⟨rfl, rfl⟩ | ⟨rfl, rfl⟩ <;>
      exact ⟨by decide, trivial⟩
  refine ⟨by simpa using And.intro hread.2 h.readable, fun rest us hrest hus => ?_⟩
  exact .token (split?_mark hc _) hread.1 (h.reads hrest hus)

theorem word {e : Kind × List Char} (he : e ∈ filter.words) (h : Spelled s ws) :
    Spelled (e.2 ++ s) (.ofChars e.1 e.2 :: ws) := by
  have hread : e.1 ≠ .space ∧ (Lexeme.ofChars e.1 e.2).Readable := by
    simp only [words, List.mem_cons, List.not_mem_nil, or_false] at he
    rcases he with rfl | rfl | rfl | rfl | rfl <;> exact ⟨by decide, trivial⟩
  refine ⟨by simpa using And.intro hread.2 h.readable, fun rest us hrest hus => ?_⟩
  rw [List.append_assoc]
  exact .token (split?_word he _) hread.1 (h.reads hrest hus)

theorem comparison (op : Comparison) (h : Spelled s ws) {c : Char} {r : List Char}
    (hs : s = c :: r) (hc : c ≠ '=') :
    Spelled (op.symbol.toList ++ s) (⟨.comparison, op.symbol⟩ :: ws) := by
  refine ⟨by simpa [Lexeme.Readable] using h.readable, fun rest us hrest hus => ?_⟩
  have hhead : (s ++ rest).head? ≠ some '=' := by simp [hs, hc]
  have hread := Reads.token (split?_comparison op hhead) (by decide) (h.reads hrest hus)
  simpa [Lexeme.ofChars] using hread

theorem inParens (h : Spelled s ws) :
    Spelled ('(' :: (s ++ [')'])) (⟨.openParen, "("⟩ :: (ws ++ [⟨.closeParen, ")"⟩])) := by
  have hclose := nil.mark (k := .closeParen) (c := ')') (by simp [marks])
  exact (h.append hclose (joins_cons (by decide) (by decide) [])).mark (by simp [marks])

theorem dot (h : Spelled s ws) (hjoin : Joins ('.' :: s)) :
    Spelled ('.' :: s) (⟨.dot, "."⟩ :: ws) := by
  refine ⟨by simpa [Lexeme.Readable] using h.readable, fun rest us hrest hus => ?_⟩
  exact .token (split?_dot (hjoin rest hrest)) (by decide) (h.reads hrest hus)

end Spelled

/-! ## Values and paths -/

namespace Value

variable {v : Value}

theorem exists_spelled_int {n : Int64} (hs : IsDigits s) (hread : int64? s = some n) :
    ∃ ts, (int n).Derived ts ∧ Spelled s ts := by
  have hvalue : n.toInt = intValue (String.ofList s).toList := by
    rw [String.toList_ofList]
    exact (int64?_eq_some_iff.1 hread).2
  have hreadable : Lexeme.Readable ⟨.int, String.ofList s⟩ := ⟨n, by rwa [String.toList_ofList]⟩
  have hlexeme := Lexeme.ofChars_eq (k := .int) (by decide) s
  refine ⟨_, .int hvalue, ?_⟩
  rw [← hlexeme] at hreadable ⊢
  exact .token (by decide) hreadable fun rest hrest => split?_int hs hrest

theorem exists_spelled_float {x : Binary64} (h : Denotes s x) (hfinite : x.isFinite = true) :
    ∃ ts, (float x).Derived ts ∧ Spelled s ts := by
  obtain ⟨whole, fraction, hs, hwhole, hfraction, hread⟩ := h
  have hvalue : binary64? (String.ofList s).toList = some x := by rwa [String.toList_ofList]
  have hreadable : Lexeme.Readable ⟨.float, String.ofList s⟩ := ⟨x, hvalue, hfinite⟩
  have hlexeme := Lexeme.ofChars_eq (k := .float) (by decide) s
  refine ⟨_, .float hvalue, ?_⟩
  rw [← hlexeme] at hreadable ⊢
  refine .token (by decide) hreadable fun rest hrest => ?_
  rw [hs]
  exact split?_float hwhole hfraction fun c hc => isDigit_of_not_wordChar (hrest.head c hc)

theorem spelled_string {x : String} (h : (string x).Writable) :
    Spelled (string x).chars [⟨.string, x⟩] := by
  have hquote : ∃ q, (string x).chars = q :: x.toList ++ [q] ∧ (q = '\'' ∨ q = '"') ∧
      q ∉ x.toList := by
    by_cases hx : '"' ∈ x.toList
    · exact ⟨'\'', by simp [chars, hx], Or.inl rfl, h.resolve_right (· hx)⟩
    · exact ⟨'"', by simp [chars, hx], Or.inr rfl, hx⟩
  obtain ⟨q, hchars, hq, hmem⟩ := hquote
  have hlexeme : Lexeme.ofChars .string (q :: x.toList ++ [q]) = ⟨.string, x⟩ := by
    simp [Lexeme.ofChars]
  rw [hchars, ← hlexeme]
  refine .token (by decide) trivial fun rest _ => ?_
  simpa using split?_quoted hq hmem rest

theorem exists_spelled (h : v.Writable) : ∃ ts, v.Derived ts ∧ Spelled v.chars ts := by
  cases v with
  | wildcard => exact ⟨_, .star, Spelled.nil.mark (by simp [marks])⟩
  | boolean b =>
      cases b with
      | true =>
          have hword := Spelled.nil.word (e := (.trueWord, ['t', 'r', 'u', 'e'])) (by simp [words])
          exact ⟨_, .trueWord, hword⟩
      | false =>
          have hword := Spelled.nil.word (e := (.falseWord, ['f', 'a', 'l', 's', 'e']))
            (by simp [words])
          exact ⟨_, .falseWord, hword⟩
  | int n =>
      have hdigits : IsDigits (ofInt64 n) := ofInt64_of_nonneg h ▸ isDigits_toDigits _
      exact exists_spelled_int hdigits (int64?_ofInt64 h)
  | float x => exact exists_spelled_float (denotes_ofBinary64 h.1 h.2) h.1
  | string x => exact ⟨_, .string, spelled_string h⟩
  | ident name =>
      have hlexeme : Lexeme.ofChars .ident name.toList = ⟨.ident, name⟩ := by
        rw [Lexeme.ofChars_eq (by decide), String.ofList_toList]
      refine ⟨[⟨.ident, name⟩], .ident, ?_⟩
      rw [← hlexeme]
      exact .token (by decide) trivial fun rest hrest => split?_ident h hrest.head

theorem exists_chars (h : v.Writable) : ∃ c r, v.chars = c :: r ∧ c ≠ '=' := by
  cases v with
  | wildcard => exact ⟨_, _, rfl, by decide⟩
  | boolean b => cases b <;> exact ⟨_, _, rfl, by decide⟩
  | int n =>
      obtain ⟨c, r, hs, hc⟩ := exists_isDigit_append (isDigits_toDigits n.toInt.natAbs) []
      rw [List.append_nil] at hs
      refine ⟨c, r, by rw [chars, ofInt64_of_nonneg h, hs], ?_⟩
      rintro rfl
      simp at hc
  | float x =>
      obtain ⟨whole, fraction, hs, hwhole, -⟩ := denotes_ofBinary64 h.1 h.2
      obtain ⟨c, r, hr, hc⟩ := exists_isDigit_append hwhole ('.' :: fraction)
      refine ⟨c, r, by rw [chars, hs, hr], ?_⟩
      rintro rfl
      simp at hc
  | string s =>
      refine ⟨_, _, rfl, ?_⟩
      split <;> decide
  | ident name =>
      obtain ⟨c, r, hs, hc, -⟩ := mem_ident.1 h.mem
      refine ⟨c, r, hs, ?_⟩
      rintro rfl
      simp [isLetter] at hc

end Value

namespace Field

variable {f : Field}

theorem joins_suffix (h : f.Writable) : Joins f.suffix := by
  cases f with
  | keyword text =>
      simp only [Writable, List.mem_cons, List.not_mem_nil, or_false] at h
      rcases h with rfl | rfl | rfl <;> exact joins_dot (by decide) _
  | value v =>
      cases v with
      | int n | float x | wildcard => exact joins_dot (by decide) _
      | string x =>
          refine joins_dot ?_ _
          split <;> decide
      | boolean b => cases b <;> exact joins_dot (by decide) _
      | ident name =>
          obtain ⟨c, r, hs, hc, -⟩ := mem_ident.1 (show filter.IsName name.toList from h).mem
          have hsuffix : suffix (value (.ident name)) = '.' :: name.toList := rfl
          rw [hsuffix, hs]
          exact joins_dot (isLetter_ne_isDigit hc) _

theorem exists_spelled (h : f.Writable) :
    ∃ ts, f.Derived ts ∧ Spelled f.suffix (⟨.dot, "."⟩ :: ts) := by
  have hjoin := joins_suffix h
  cases f with
  | keyword text =>
      have hword (e : Kind × List Char) (he : e ∈ filter.words) := Spelled.nil.word he
      simp only [Writable, List.mem_cons, List.not_mem_nil, or_false] at h
      rcases h with rfl | rfl | rfl
      · have hspell := hword (.andWord, ['A', 'N', 'D']) (by simp [words])
        exact ⟨_, .keyword (by decide), hspell.dot hjoin⟩
      · have hspell := hword (.orWord, ['O', 'R']) (by simp [words])
        exact ⟨_, .keyword (by decide), hspell.dot hjoin⟩
      · have hspell := hword (.notWord, ['N', 'O', 'T']) (by simp [words])
        exact ⟨_, .keyword (by decide), hspell.dot hjoin⟩
  | value v =>
      obtain ⟨ts, hv, hspell⟩ := Value.exists_spelled h
      cases v with
      | int n | float x => exact ⟨ts, .value hv, hspell.space.dot hjoin⟩
      | _ => exact ⟨ts, .value hv, hspell.dot hjoin⟩

end Field

theorem Path.exists_spelled {path : List Field} (h : ∀ f ∈ path, f.Writable) :
    Joins (path.flatMap Field.suffix) ∧
      ∃ ts, Path.Derived ts path ∧ Spelled (path.flatMap Field.suffix) ts := by
  induction path with
  | nil => exact ⟨joins_nil, [], .nil, .nil⟩
  | cons f path ih =>
      simp only [List.forall_mem_cons] at h
      obtain ⟨hjoin, us, hus, hspell⟩ := ih h.2
      obtain ⟨ts, hts, hspell'⟩ := Field.exists_spelled h.1
      simp only [List.flatMap_cons]
      exact ⟨(Field.joins_suffix h.1).append hjoin, _, .cons hts hus,
        hspell'.append hspell hjoin⟩

/-! ## Trees -/

theorem Comparable.exists_chars {x : Comparable} (h : x.Writable) :
    ∃ c r, x.chars = c :: r ∧ c ≠ '=' := by
  cases x with
  | plain v path | call v path _ =>
      obtain ⟨c, r, hs, hc⟩ := Value.exists_chars h.1
      exact ⟨c, _, by rw [chars, hs]; rfl, hc⟩

theorem Arg.exists_chars {a : Arg} (h : a.Writable) : ∃ c r, a.chars = c :: r ∧ c ≠ '=' := by
  cases a with
  | group f => exact ⟨'(', _, rfl, by decide⟩
  | comparable x => exact Comparable.exists_chars h

theorem joins_symbol (op : Comparison) (s : List Char) : Joins (op.symbol.toList ++ s) := by
  cases op <;> exact joins_cons (by decide) (by decide) _

mutual

theorem Term.exists_spelled :
    (x : Term) → x.Writable → ∃ ts, x.Derived ts ∧ Spelled x.chars ts
  | .mk negated body, h => by
      obtain ⟨ts, hts, hspell⟩ := Simple.exists_spelled body h
      cases negated with
      | false => exact ⟨ts, .plain hts, hspell⟩
      | true => exact ⟨_, .negated (by decide) hts, hspell.mark (k := .minus) (by simp [marks])⟩

theorem Simple.exists_spelled :
    (x : Simple) → x.Writable → ∃ ts, x.Derived ts ∧ Spelled x.chars ts
  | .group f, h => by
      obtain ⟨ts, hts, hspell⟩ := Filter.exists_spelled f h
      exact ⟨_, .group (.mk hts), hspell.inParens⟩
  | .test x, h => by
      obtain ⟨ts, hts, hspell⟩ := Comparable.exists_spelled x h
      exact ⟨ts, .test hts, hspell⟩
  | .compare x op a, h => by
      obtain ⟨ts, hts, hspell⟩ := Comparable.exists_spelled x h.1
      obtain ⟨us, hus, hspell'⟩ := Arg.exists_spelled a h.2
      obtain ⟨c, r, hchars, hc⟩ := Arg.exists_chars h.2
      have happend := hspell.append (hspell'.comparison op hchars hc) (joins_symbol op _)
      rw [← List.append_assoc] at happend
      exact ⟨_, .compare hts hus, happend⟩

theorem Comparable.exists_spelled :
    (x : Comparable) → x.Writable → ∃ ts, x.Derived ts ∧ Spelled x.chars ts
  | .plain v path, h => by
      obtain ⟨ts, hts, hspell⟩ := Value.exists_spelled h.1
      obtain ⟨hjoin, us, hus, hspell'⟩ := Path.exists_spelled h.2
      exact ⟨_, .plain hts hus, hspell.append hspell' hjoin⟩
  | .call v path args, h => by
      obtain ⟨ts, hts, hspell⟩ := Value.exists_spelled h.1
      obtain ⟨hjoin, us, hus, hspell'⟩ := Path.exists_spelled h.2.1
      obtain ⟨vs, hvs, hspell''⟩ := Args.exists_spelled args h.2.2
      have hopen : Joins ('(' :: (Args.chars args ++ [')'])) :=
        joins_cons (by decide) (by decide) _
      have hchars : (Comparable.call v path args).chars =
          v.chars ++ path.flatMap Field.suffix ++ '(' :: (Args.chars args ++ [')']) := by
        simp [Comparable.chars]
      rw [hchars]
      have happend := (hspell.append hspell' hjoin).append hspell''.inParens hopen
      exact ⟨_, .call hts hus (.mk hvs), happend⟩

theorem Arg.exists_spelled :
    (x : Arg) → x.Writable → ∃ ts, x.Derived ts ∧ Spelled x.chars ts
  | .group f, h => by
      obtain ⟨ts, hts, hspell⟩ := Filter.exists_spelled f h
      exact ⟨_, .group (.mk hts), hspell.inParens⟩
  | .comparable x, h => by
      obtain ⟨ts, hts, hspell⟩ := Comparable.exists_spelled x h
      exact ⟨ts, .comparable hts, hspell⟩

theorem Args.exists_spelled :
    (args : List Arg) → Args.Writable args →
      ∃ ts, Args.Derived ts args ∧ Spelled (Args.chars args) ts
  | [], _ => ⟨[], .nil, .nil⟩
  | [a], h => by
      obtain ⟨ts, hts, hspell⟩ := Arg.exists_spelled a h.1
      exact ⟨ts, .some (.one hts), hspell⟩
  | a :: b :: r, h => by
      obtain ⟨ts, hts, hspell⟩ := Arg.exists_spelled a h.1
      obtain ⟨_, ⟨⟩ | ⟨hus⟩, hspell'⟩ := Args.exists_spelled (b :: r) h.2
      have hcomma := hspell'.space.mark (k := .comma) (c := ',') (by simp [marks])
      have hchars : Args.chars (a :: b :: r) = a.chars ++ ',' :: ' ' :: Args.chars (b :: r) := by
        simp [Args.chars]
      rw [hchars]
      exact ⟨_, .some (.cons hts hus), hspell.append hcomma (joins_cons (by decide) (by decide) _)⟩

theorem Clause.exists_spelled :
    (c : List Term) → Clause.Writable c →
      ∃ ts, Clause.Derived ts c ∧ Spelled (Clause.chars c) ts
  | [t], h => by
      obtain ⟨ts, hts, hspell⟩ := Term.exists_spelled t h
      exact ⟨ts, .one hts, hspell⟩
  | t :: t' :: r, h => by
      obtain ⟨ts, hts, hspell⟩ := Term.exists_spelled t h.1
      obtain ⟨us, hus, hspell'⟩ := Clause.exists_spelled (t' :: r) h.2
      have hword := (hspell'.space.word (e := (.orWord, ['O', 'R'])) (by simp [words])).space
      have hchars : Clause.chars (t :: t' :: r) =
          t.chars ++ ' ' :: (['O', 'R'] ++ ' ' :: Clause.chars (t' :: r)) := by
        simp [Clause.chars]
      rw [hchars]
      exact ⟨_, .cons hts hus, hspell.append hword (joins_cons (by decide) (by decide) _)⟩

theorem Filter.exists_spelled :
    (f : List (List Term)) → Filter.Writable f →
      ∃ ts, Filter.Derived ts f ∧ Spelled (Filter.chars f) ts
  | [c], h => by
      obtain ⟨ts, hts, hspell⟩ := Clause.exists_spelled c h
      exact ⟨ts, .one hts, hspell⟩
  | c :: c' :: r, h => by
      obtain ⟨ts, hts, hspell⟩ := Clause.exists_spelled c h.1
      obtain ⟨us, hus, hspell'⟩ := Filter.exists_spelled (c' :: r) h.2
      have hword := (hspell'.space.word (e := (.andWord, ['A', 'N', 'D'])) (by simp [words])).space
      have hchars : Filter.chars (c :: c' :: r) =
          Clause.chars c ++ ' ' :: (['A', 'N', 'D'] ++ ' ' :: Filter.chars (c' :: r)) := by
        simp [Filter.chars]
      rw [hchars]
      exact ⟨_, .cons hts hus, hspell.append hword (joins_cons (by decide) (by decide) _)⟩

end

end Sift
