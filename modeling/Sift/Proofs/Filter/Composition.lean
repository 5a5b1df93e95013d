import Sift.Proofs.Filter.FirstError
import Sift.Proofs.Token.Joining

/-!
# Filters put together

Texts that are accepted may be joined by a keyword or put in parentheses, and what is read is put
together from what each is read as. Only the depth may be too much then, and nothing else.
-/

namespace Sift

open Grammar

/-! ## Phrases put together -/

section

variable {α : Type} {k : Kind} {D : List Lexeme → α → Prop} {ts us m : List Lexeme}
variable {as bs : List α} {a b : α}

/-- Where the lexemes `m` make one part of two, the last and the first part become one. -/
theorem Separated.merge {f : α → α → α} (has : Separated k D ts (as ++ [a]))
    (hbs : Separated k D us (b :: bs))
    (hm : ∀ {ts us}, D ts a → D us b → D (ts ++ (m ++ us)) (f a b)) :
    Separated k D (ts ++ (m ++ us)) (as ++ f a b :: bs) := by
  induction as generalizing ts with
  | nil =>
      obtain ⟨hb, hbs⟩ := hbs
      rcases has.uncons with ⟨-, ha⟩ | ⟨_, _, _, -, -, hnil⟩
      · rw [← List.append_assoc m, ← List.append_assoc]
        exact .mk (hm ha hb) hbs
      · cases hnil
  | cons a' as ih =>
      rcases has.uncons with ⟨hnil, -⟩ | ⟨ts, x, vs, rfl, ha', has⟩
      · simp at hnil
      · rw [List.append_assoc]
        exact .cons ha' (ih has)

end

theorem Clause.depth_append (c c' : Clause) :
    Clause.depth (c ++ c') = max (Clause.depth c) (Clause.depth c') := by
  induction c with
  | nil => simp [Clause.depth]
  | cons t c ih => rw [List.cons_append, Clause.depth, Clause.depth, ih, max_assoc]

namespace Filter

variable {s t : String} {a b f : Filter} {ws us : List Lexeme}

theorem depth_append (a b : Filter) : depth (a ++ b) = max (depth a) (depth b) := by
  induction a with
  | nil => simp [depth]
  | cons c a ih => rw [List.cons_append, depth, depth, ih, max_assoc]

/-! ## Texts that are one string -/

/-- A string may stand between either quote that it does not hold. -/
theorem parse_quoted {text : String} {q : Char} (hq : q = '\'' ∨ q = '"') (hs : q ∉ s.toList)
    (htext : text.toList = q :: s.toList ++ [q]) :
    parse text = .ok [[.mk false (.test (.plain (.string s) []))]] := by
  refine parse_eq_ok_iff.2 ⟨[⟨.string, s⟩], ?_, ?_, ?_, ?_⟩
  · have hread := Reads.token (split?_quoted hq hs []) (by decide) .nil
    rw [htext]
    simpa [Lexeme.ofChars] using hread
  · exact .one (.one (.plain (.test (.plain .string .nil))))
  · simp [depth, Clause.depth, Term.depth, Simple.depth, Comparable.depth]
  · simp [Lexeme.Readable]

/-! ## Texts joined by a keyword -/

theorem reads_word {e : Kind × List Char} (he : e ∈ filter.words) {s t : List Char}
    (hs : filter.Reads s ws) (ht : filter.Reads t us) :
    filter.Reads (s ++ ' ' :: (e.2 ++ ' ' :: t)) (ws ++ .ofChars e.1 e.2 :: us) := by
  have hkinds : ∀ e ∈ filter.words, e.1 ≠ .space := by decide
  have hword := Reads.token (split?_word he _) (hkinds e he) (ht.space_cons (c := ' ') rfl)
  exact hs.append rfl (hword.space_cons rfl)

/-- What a keyword makes of the phrases before and after it, the texts with the keyword between
them are read as. -/
theorem parse_word {e : Kind × List Char} (he : e ∈ filter.words) {seam : String}
    (hseam : seam.toList = ' ' :: (e.2 ++ [' '])) (hs : parse s = .ok a) (ht : parse t = .ok b)
    (hf : ∀ {ws us}, a.Derived ws → b.Derived us → f.Derived (ws ++ .ofChars e.1 e.2 :: us))
    (hdepth : depth f ≤ max (depth a) (depth b)) : parse (s ++ seam ++ t) = .ok f := by
  obtain ⟨ws, hws, ha, hdeptha, hread⟩ := parse_eq_ok_iff.1 hs
  obtain ⟨us, hus, hb, hdepthb, hread'⟩ := parse_eq_ok_iff.1 ht
  refine parse_eq_ok_iff.2 ⟨_, ?_, hf ha hb, hdepth.trans (max_le hdeptha hdepthb), ?_⟩
  · simpa [hseam] using reads_word he hws hus
  · have hkinds : ∀ e ∈ filter.words, e.1 ∉ [Kind.eof, .int, .float] := by decide
    rw [List.forall_mem_append, List.forall_mem_cons]
    exact ⟨hread, Lexeme.readable_of_kind (hkinds e he), hread'⟩

theorem parse_and (hs : parse s = .ok a) (ht : parse t = .ok b) :
    parse (s ++ " AND " ++ t) = .ok (a ++ b) :=
  parse_word (e := (.andWord, ['A', 'N', 'D'])) (by simp [words]) (by decide) hs ht
    (fun ha hb => ha.append hb) (depth_append a b).le

theorem parse_or {c c' : Clause} (hs : parse s = .ok (a ++ [c])) (ht : parse t = .ok (c' :: b)) :
    parse (s ++ " OR " ++ t) = .ok (a ++ (c ++ c') :: b) := by
  refine parse_word (e := (.orWord, ['O', 'R'])) (by simp [words]) (by decide) hs ht
    (fun ha hb => ha.merge (m := [.ofChars .orWord ['O', 'R']]) hb .append) ?_
  simp only [depth_append, depth, Clause.depth_append]
  omega

/-! ## Texts in parentheses -/

theorem reads_group {s : List Char} (hs : filter.Reads s ws) :
    filter.Reads ('(' :: (s ++ [')'])) (⟨.openParen, "("⟩ :: (ws ++ [⟨.closeParen, ")"⟩])) := by
  have hclose := Reads.token (split?_mark (k := .closeParen) (c := ')') (by simp [marks]) [])
    (by decide) .nil
  exact .token (split?_mark (k := .openParen) (c := '(') (by simp [marks]) _) (by decide)
    (hs.append rfl hclose)

theorem Derived.group (h : a.Derived ws) :
    Filter.Derived (⟨.openParen, "("⟩ :: (ws ++ [⟨.closeParen, ")"⟩])) [[.mk false (.group a)]] :=
  .one (.one (.plain (.group ⟨h⟩)))

theorem depth_group (a : Filter) : depth [[.mk false (.group a)]] = depth a + 1 := by
  simp [depth, Clause.depth, Term.depth, Simple.depth]

/-- Where a text has tokens up to its end, its error is found after some of them. -/
theorem exists_refused_of_parse {text : String} {ts : List Token} {p : Position} {e : ParseError}
    (hs : (Lexer.ofText .filter text).stream.significant = ⟨ts, .ok p⟩)
    (h : parse text = .error e) :
    ∃ before, before <+: ts ∧ Refused (.ofText .filter text) before e := by
  simp only [parse, Parser.readFrom] at h
  cases hc : Cursor.ofLexer (.ofText .filter text) with
  | error err =>
      rw [Cursor.ofLexer, hs] at hc
      cases ts <;> cases hc
  | ok c =>
      simp only [hc] at h
      have hrun : (Parser.whole parser).run c = (.error e, ((Parser.whole parser).run c).2) :=
        Prod.ext h rfl
      obtain ⟨before, hreads, -, hreadable, hrefused⟩ := exists_refused rfl hc hrun
      rw [← List.append_nil ts] at hs
      obtain ⟨hts, hend⟩ := Lexer.tokenAt_of_stream hs
      have hlength : before.length ≤ ts.length := by
        refine Nat.le_of_not_lt fun hlt => ?_
        have heof : before[ts.length] = .eof p :=
          Except.ok.inj ((hreads _ hlt).symm.trans hend)
        have hne := (hreadable _ (List.getElem_mem hlt)).kind_ne_eof
        rw [heof] at hne
        exact hne rfl
      exact ⟨before, Lexer.prefix_of_tokenAt hreads hts hlength, hrefused⟩

/-- Where only the depth is too much, the error is that of a parenthesis too many. -/
theorem parse_eq_tooDeep {text : String} (hws : filter.Reads text.toList ws) (hf : f.Derived ws)
    (hread : ∀ w ∈ ws, w.Readable) (hdeep : maxDepth < depth f) :
    ∃ u, u.kind = .openParen ∧ parse text = .error (.tooDeep maxDepth u) := by
  obtain ⟨ts, p, hs, rfl⟩ := reads_iff_significant.1 hws
  cases hparse : parse text with
  | ok g =>
      obtain ⟨us, hus, hg, hdepth, -⟩ := parse_eq_ok_iff.1 hparse
      obtain ⟨ts', p', hs', rfl⟩ := reads_iff_significant.1 hus
      cases hs.symm.trans hs'
      rw [hf.unique hg] at hdeep
      exact absurd hdepth (Nat.not_le_of_lt hdeep)
  | error e =>
      obtain ⟨before, ⟨vs, rfl⟩, hrefused⟩ := exists_refused_of_parse hs hparse
      -- What comes after these tokens goes on with the filter, as the rest of it does.
      obtain ⟨u, hu, hcontinues, hreadable⟩ : ∃ u,
          (Lexer.ofText .filter text).tokenAt before.length = .ok u ∧
            Continues (before.map Token.kind) u.kind ∧ (u.kind ≠ .eof → u.lexeme.Readable) := by
        have hfound := (Lexer.tokenAt_of_stream hs).2
        rw [List.map_append] at hf hread
        cases vs with
        | nil =>
            refine ⟨_, hfound, ?_, fun hne => absurd rfl hne⟩
            exact ⟨_, f, by simpa using hf, map_kind_lexeme before⟩
        | cons v vs =>
            refine ⟨v, hfound, ?_, fun _ => hread _ (by simp)⟩
            rw [← map_kind_lexeme]
            exact continues_of_derived hf
      cases hrefused with
      | lex hfound => cases hu.symm.trans hfound
      | unexpected hfound _ hnot =>
          cases hu.symm.trans hfound
          exact absurd hcontinues hnot
      | @invalidLiteral sort _ hfound hk _ hrange =>
          cases hu.symm.trans hfound
          have hne : sort.kind ≠ .eof := by cases sort <;> decide
          exact absurd (hreadable (hk ▸ hne)).inRange hrange
      | @tooDeep u' hfound hk _ _ => exact ⟨u', hk, rfl⟩

theorem parse_group (hs : parse s = .ok a) :
    (depth a < maxDepth → parse ("(" ++ s ++ ")") = .ok [[.mk false (.group a)]]) ∧
      (maxDepth ≤ depth a →
        ∃ u, u.kind = .openParen ∧ parse ("(" ++ s ++ ")") = .error (.tooDeep maxDepth u)) := by
  obtain ⟨ws, hws, ha, -, hread⟩ := parse_eq_ok_iff.1 hs
  have htext : ("(" ++ s ++ ")").toList = '(' :: (s.toList ++ [')']) := by simp
  have hreads := reads_group hws
  rw [← htext] at hreads
  have hread : ∀ w ∈ (⟨.openParen, "("⟩ :: (ws ++ [⟨.closeParen, ")"⟩]) : List Lexeme),
      w.Readable := by
    rw [List.forall_mem_cons, List.forall_mem_append, List.forall_mem_singleton]
    exact ⟨trivial, hread, trivial⟩
  constructor
  · intro hdepth
    exact parse_eq_ok_iff.2 ⟨_, hreads, ha.group, (depth_group a).trans_le hdepth, hread⟩
  · intro hdepth
    exact parse_eq_tooDeep hreads ha.group hread (by rw [depth_group]; omega)

/-- Parentheses go as deep as they may. -/
theorem exists_parse_of_depth {n : Nat} (hn : n ≤ maxDepth) :
    ∃ s a, parse s = .ok a ∧ depth a = n := by
  induction n with
  | zero =>
      have hs : parse "''" = .ok [[.mk false (.test (.plain (.string "") []))]] :=
        parse_quoted (.inl rfl) (by simp) (by simp)
      exact ⟨_, _, hs, rfl⟩
  | succ n ih =>
      obtain ⟨s, a, hs, rfl⟩ := ih (Nat.le_of_succ_le hn)
      exact ⟨_, _, (parse_group hs).1 hn, depth_group a⟩

/-! ## The composition of filters -/

/-- Accepted texts joined by `AND` are one after the other, those joined by `OR` share the sequence
at the seam, and one in parentheses is a group unless that is a parenthesis too many. -/
theorem parse_composition (hs : parse s = .ok a) (ht : parse t = .ok b) :
    parse (s ++ " AND " ++ t) = .ok (a ++ b) ∧
    (∃ as c c' bs, a = as ++ [c] ∧ b = c' :: bs ∧
      parse (s ++ " OR " ++ t) = .ok (as ++ (c ++ c') :: bs)) ∧
    (depth a < maxDepth → parse ("(" ++ s ++ ")") = .ok [[.mk false (.group a)]]) ∧
    (maxDepth ≤ depth a →
      ∃ u, u.kind = .openParen ∧ parse ("(" ++ s ++ ")") = .error (.tooDeep maxDepth u)) := by
  refine ⟨parse_and hs ht, ?_, parse_group hs⟩
  obtain ⟨_, _, ha, -⟩ := parse_eq_ok_iff.1 hs
  obtain ⟨_, _, hb, -⟩ := parse_eq_ok_iff.1 ht
  obtain ⟨as, c, rfl⟩ := (List.eq_nil_or_concat a).resolve_left ha.ne_nil
  obtain ⟨c', bs, rfl⟩ := List.exists_cons_of_ne_nil hb.ne_nil
  rw [List.concat_eq_append] at *
  exact ⟨as, c, c', bs, rfl, rfl, parse_or hs ht⟩

theorem parse_composition_of_quoted :
    let x := Term.mk true (.test (.plain (.ident "a") []))
    let y := Term.mk false (.test (.plain (.string ")") []))
    (parse "-a" = .ok [[x]] ∧ parse "')'" = .ok [[y]]) ∧
      parse "-a AND ')'" = .ok [[x], [y]] ∧ parse "-a OR ')'" = .ok [[x, y]] ∧
      parse "(-a)" = .ok [[.mk false (.group [[x]])]] ∧
      ∃ s a u, parse s = .ok a ∧ parse ("(" ++ s ++ ")") = .error (.tooDeep maxDepth u) := by
  intro x y
  have hreads : filter.Reads "-a".toList [⟨.minus, "-"⟩, ⟨.ident, "a"⟩] :=
    (Lexer.reads_iff_stream (l := .ofText .filter "-a")).2
      ⟨⟨2, 1, 3⟩, by decide +kernel, by decide +kernel⟩
  have hderived : Filter.Derived [⟨.minus, "-"⟩, ⟨.ident, "a"⟩] [[x]] :=
    .one (.one (.negated (by decide) (.test (.plain .ident .nil))))
  have hx : parse "-a" = .ok [[x]] :=
    parse_eq_ok_iff.2 ⟨_, hreads, hderived, by decide, by simp [Lexeme.Readable]⟩
  have hy : parse "')'" = .ok [[y]] := parse_quoted (.inl rfl) (by simp) (by simp)
  obtain ⟨hand, ⟨as, c, c', bs, ha, hb, hor⟩, hgroup, -⟩ := parse_composition hx hy
  obtain ⟨s, a, hs, hdepth⟩ := exists_parse_of_depth (Nat.le_refl maxDepth)
  obtain ⟨-, -, -, hdeep⟩ := parse_composition hs hs
  obtain ⟨u, -, hu⟩ := hdeep hdepth.ge
  cases hb
  cases as with
  | nil =>
      cases ha
      exact ⟨⟨hx, hy⟩, hand, hor, hgroup (by decide), s, a, u, hs, hu⟩
  | cons d as => simp at ha

end Filter

end Sift
