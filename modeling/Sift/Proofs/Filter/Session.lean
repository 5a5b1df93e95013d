import Sift.Proofs.Filter.FirstError
import Sift.Proofs.Filter.Reader

/-!
# Using one reader of filters

A reader may be asked again and again for a filter, with the end of the input after it or without,
also after it has failed. Each time it goes on from the token it stands on, as a new reader would
that is given the tokens that are left.
-/

namespace Sift

open Sift.Parser
open Sift.Filter (maxDepth)

namespace Reader

/-- The two ways to ask for a filter. -/
inductive Call where
  | whole
  | filter

namespace Call

def parser : Call → Parser Filter
  | whole => Parser.whole Filter.parser
  | filter => Filter.parser

def routine : Call → Routine Filter
  | whole => Routine.whole Routine.filter
  | filter => Routine.filter

theorem follows (call : Call) : Follows maxDepth maxDepth call.routine call.parser := by
  cases call with
  | whole => exact Routine.follows_filter.whole
  | filter => exact Routine.follows_filter

end Call

/-- Where the calls leave the reader, whatever it answers to them. -/
def after (s : Reader) : List Call → Reader
  | [] => s
  | call :: calls => (call.routine s).2.after calls

variable {r : Stream} {c c' : Cursor} {s : Reader} {e : ParseError} {call : Call}

/-- Calls leave the reader at some place of the stream, with no parenthesis open. -/
theorem At.after (h : s.At r maxDepth maxDepth c) (calls : List Call) :
    ∃ c', (s.after calls).At r maxDepth maxDepth c' := by
  induction calls generalizing s c with
  | nil => exact ⟨c, h⟩
  | cons call calls ih => exact ih (call.follows c h).2

/-! ## What a call takes -/

theorem At.fails (h : s.At r maxDepth maxDepth c) (hrun : call.parser.run c = (.error e, c')) :
    c.Fails Filter.Derived (fun f => Filter.depth f ≤ maxDepth) maxDepth maxDepth c' e := by
  cases call with
  | filter => exact Filter.fails hrun
  | whole =>
      obtain ⟨ts, htokens, hts⟩ := h.exists_left
      have hne : ∀ t ∈ ts, t.kind ≠ .eof := fun t ht => h.kind_ne_eof t (by simp [htokens, ht])
      exact Parser.Fails.whole Filter.fails Filter.recognizes hts hne hrun

/-- Whatever it answers, a call passes some lexemes. The end of the input is not among them. -/
theorem At.exists_passes (h : s.At r maxDepth maxDepth c) (call : Call) :
    ∃ ws, c.Passes ws (call.parser.run c).2 := by
  obtain ⟨a, c', hrun⟩ : ∃ a c', call.parser.run c = (a, c') := ⟨_, _, rfl⟩
  rw [hrun]
  cases a with
  | error e =>
      obtain ⟨ws, hws, -⟩ := h.fails hrun
      exact ⟨ws, hws⟩
  | ok f =>
      cases call with
      | filter =>
          obtain ⟨ws, hws, -⟩ := Filter.recognizes.sound hrun
          exact ⟨ws, hws⟩
      | whole =>
          obtain ⟨c₁, hf, heof, hn⟩ := run_whole_eq_ok.1 hrun
          obtain ⟨ws, hws, -⟩ := Filter.recognizes.sound hf
          obtain ⟨ts, htokens, hts⟩ := h.exists_left
          obtain ⟨us, vs, rfl, -, hvs⟩ := Cursor.exists_of_passes hts hws
          have hne : ∀ t ∈ vs, t.kind ≠ .eof := fun t ht =>
            h.kind_ne_eof t (by simp [htokens, ht])
          cases (Cursor.next_of_eof hvs hne heof).symm.trans hn
          exact ⟨ws, hws⟩

/-! ## Where a call ends -/

/-- A call that fails leaves the reader on the token that the error is about, or on the last one
before what cannot be read. -/
theorem At.found {ws : List Lexeme} {d : Int} {n : Nat} (h : s.At r maxDepth n c)
    (hfault : Fault Filter.Derived (fun f => Filter.depth f ≤ maxDepth) maxDepth d c ws e) :
    e.found = .ok s.current ∨
      ∃ err, e = .lex err ∧ r = ⟨s.taken ++ [s.current], .error err⟩ := by
  rw [h.current_eq]
  cases hfault with
  | unexpected _ _ => exact .inl rfl
  | invalidLiteral _ _ _ _ _ => exact .inl rfl
  | tooDeep _ _ _ _ => exact .inl rfl
  | @lex err hn hread _ =>
      obtain ⟨ts, htokens, hts⟩ := h.exists_left
      obtain ⟨us, rfl, hnext⟩ := Cursor.exists_cons_of_ofStream hts hread.kind_ne_eof
      obtain ⟨tokens, ending⟩ := r
      rw [hn] at hnext
      cases us with
      | cons u us => cases hnext
      | nil =>
          cases ending with
          | ok p => cases hnext
          | error err' =>
              cases hnext
              exact .inr ⟨err, rfl, congrArg (Stream.mk · _) htokens⟩

/-- No filter goes on with what has been read of one and the token after it. -/
theorem not_derived_of_run {ws : List Lexeme} {f : Filter}
    (h : Filter.parser.run c = (.ok f, c')) (hws : c.Passes ws c') :
    ¬ ∃ more f', Filter.Derived (ws ++ c'.current.lexeme :: more) f' := by
  rintro ⟨more, f', hf'⟩
  have hne : c'.current.kind ≠ .eof := hf'.nested.kind_ne_eof c'.current.lexeme (by simp)
  have hexpect : (expect .eof .endOfInput).run c' =
      (.error (.unexpected .endOfInput c'.current), c') :=
    run_expect_eq_error.2 (.inr ⟨hne, rfl, rfl⟩)
  have hwhole : (whole Filter.parser).run c = (.error (.unexpected .endOfInput c'.current), c') := by
    simp only [whole, run_bind_eq_error]
    exact .inr ⟨f, c', h, .inl hexpect⟩
  have hstops := Filter.not_continues_of_syntactic hwhole (by simp [ParseError.Syntactic]) hws
  exact hstops (Filter.continues_of_derived hf')

/-! ## Sessions -/

/-- A reader of `l` between two calls: no parenthesis stands open, and never have more than
`maxDepth`. It has taken the tokens of `l` from the first one on, each of them once, and stands on
the next. -/
structure Idle (l : Lexer) (s : Reader) : Prop where
  depth_eq : s.depth = 0
  deepest_le : s.deepest ≤ maxDepth
  taken : ∀ i (h : i < s.taken.length), l.tokenAt i = .ok s.taken[i]
  current : l.tokenAt s.taken.length = .ok s.current
  tokens_eq : l.stream.significant.tokens = s.taken ++ s.left

theorem At.idle {l : Lexer} (h : s.At l.stream.significant maxDepth maxDepth c) : s.Idle l := by
  obtain ⟨htokens, hleft⟩ := h.left_eq
  have hstream : l.stream.significant = ⟨s.taken ++ s.left, l.stream.significant.ending⟩ := by
    rw [← htokens]
  obtain ⟨htaken, hcurrent⟩ := Lexer.tokenAt_of_stream hstream
  rw [hleft] at hcurrent
  exact ⟨Nat.add_eq_right.1 h.depth_add, h.deepest_le, htaken, h.current_eq ▸ hcurrent, htokens⟩

/-- Whatever has been called before, a call to a reader of a text goes on where the reader stands.
It answers as a new reader of the tokens that are left, and takes what its answer is about: all of
a filter with which the next token does not go on, or what stands before the token or the place that
the error is about. -/
theorem call_answers {g : Grammar} {text : String} {s₀ : Reader}
    (h : ofLexer (.ofText g text) = .ok s₀) (before : List Call) (call : Call) :
    let l := Lexer.ofText g text
    let r := l.stream.significant
    let s := s₀.after before
    let answer := (call.routine s).1
    let s' := (call.routine s).2
    s.Idle l ∧ s'.Idle l ∧
    (∃ c, Cursor.ofStream ⟨s.left, r.ending⟩ = .ok c ∧ answer = (call.parser.run c).1) ∧
    (∀ e, answer = .error e → e.found = .ok s'.current ∨
      ∃ err, e = .lex err ∧ r = ⟨s'.taken ++ [s'.current], .error err⟩) ∧
    ∃ ts, s'.taken = s.taken ++ ts ∧ s.left = ts ++ s'.left ∧
      ∀ f, call = .filter → answer = .ok f →
        Filter.Derived (ts.map Token.lexeme) f ∧
        ¬ ∃ more f', Filter.Derived (ts.map Token.lexeme ++ s'.current.lexeme :: more) f' := by
  intro l r s answer s'
  obtain ⟨_, h₀⟩ := at_ofLexer h maxDepth
  obtain ⟨c, hs⟩ := h₀.after before
  obtain ⟨hanswer, hs'⟩ := call.follows c hs
  obtain ⟨ws, hws⟩ := hs.exists_passes call
  obtain ⟨ts, rfl, htaken, hleft⟩ := hs.exists_taken hs' hws
  obtain ⟨a, c', hrun⟩ : ∃ a c', call.parser.run c = (a, c') := ⟨_, _, rfl⟩
  rw [hrun] at hanswer hs' hws
  refine ⟨hs.idle, hs'.idle, ⟨c, hs.left_eq.2, ?_⟩, ?_, ts, htaken, hleft, ?_⟩
  · rw [hrun]
    exact hanswer
  · intro e he
    obtain rfl : a = .error e := hanswer.symm.trans he
    obtain ⟨_, -, hfault⟩ := hs.fails hrun
    exact hs'.found hfault
  · rintro f rfl hf
    obtain rfl : a = .ok f := hanswer.symm.trans hf
    obtain ⟨us, hus, hderived, -⟩ := Filter.recognizes.sound hrun
    obtain ⟨ts', rfl, htaken', -⟩ := hs.exists_taken hs' hus
    obtain rfl : ts' = ts := List.append_cancel_left (htaken'.symm.trans htaken)
    rw [hs'.current_eq]
    exact ⟨hderived, not_derived_of_run hrun hus⟩

theorem call_answers_two_names :
    let a : Token := ⟨.ident, "a", ⟨0, 1⟩, ⟨0, 1, 1⟩⟩
    let b : Token := ⟨.ident, "b", ⟨2, 3⟩, ⟨2, 1, 3⟩⟩
    let s₀ : Reader := ⟨⟨.filter, ⟨1, 1, 2⟩, [' ', 'b']⟩, a, 0, 0, []⟩
    ofLexer (.ofText .filter "a b") = .ok s₀ ∧
      (Call.whole.routine s₀).1 = .error (.unexpected .endOfInput b) ∧
      (s₀.after [.whole]).current = b ∧
      (Call.filter.routine (s₀.after [.whole])).2.depth = 0 := by
  intro a b s₀
  have hsplit : Grammar.filter.split? "a b".toList = some (.ident, ['a'], [' ', 'b']) := by
    decide +kernel
  have h : ofLexer (.ofText .filter "a b") = .ok s₀ := by
    rw [ofLexer, Lexer.next_of_raw_ok (Lexer.raw_of_some hsplit)]
    rfl
  obtain ⟨-, -, ⟨c, hc, hanswer⟩, hfound, -⟩ := call_answers h [] .whole
  obtain ⟨-, hidle, -⟩ := call_answers h [.whole] .filter
  have hleft : s₀.left = [a, b] := by decide +kernel
  have hending : (Lexer.ofText .filter "a b").stream.significant.ending = .ok ⟨3, 1, 4⟩ := by
    decide +kernel
  have hstart : Cursor.ofStream ⟨s₀.left, (Lexer.ofText .filter "a b").stream.significant.ending⟩ =
      .ok ⟨a, [b], .ok ⟨3, 1, 4⟩⟩ := by
    rw [hleft, hending]
    rfl
  cases hc.symm.trans hstart
  have hwhole : (Call.whole.routine s₀).1 = .error (.unexpected .endOfInput b) :=
    hanswer.trans (by cbv)
  rcases hfound _ hwhole with hb | ⟨err, he, -⟩
  · exact ⟨h, hwhole, (Except.ok.inj hb).symm, hidle.depth_eq⟩
  · cases he

end Reader

end Sift
