import Sift.Order.Basic
import Sift.Proofs.Filter.Places
import Sift.Proofs.Token.Respacing

/-!
# Space between tokens means nothing

Whoever changes the space between the tokens of a text changes neither its tree nor what is wrong
with it, only where it is.
-/

namespace Sift

open Sift.Parser

/-! ## The parser of orders takes no notice of places -/

namespace Key

theorem placeless_ident : Placeless identParser :=
  fun _ => PlacelessAt.expect.bind fun _ _ _ => .pure rfl

theorem placeless : Placeless parser := by
  intro c
  apply (placeless_ident.separated c).bind
  intro path c₁ _
  exact .looksAt (fun _ => PlacelessAt.advance.bind fun _ _ _ => .pure rfl) fun _ => .pure rfl

end Key

theorem Order.placeless : Placeless parser := Key.placeless.separated

/-! ## Respaced texts -/

theorem Stream.map_lexeme_get {ts : List Token} {p : Position} (k : Nat) :
    (get ⟨ts, .ok p⟩ k).map Token.lexeme = .ok (((ts.map Token.lexeme)[k]?).getD ⟨.eof, ""⟩) := by
  rw [get, List.getElem?_map]
  cases ts[k]? <;> rfl

theorem Lexer.stream_of_tokenize {l : Lexer} {ts : List Token} {t : Token}
    (h : l.tokenize = .ok (ts ++ [t])) : ∃ p, l.stream = ⟨ts, .ok p⟩ := by
  obtain ⟨us, e, hs⟩ : ∃ us e, l.stream = ⟨us, e⟩ := ⟨_, _, rfl⟩
  rw [tokenize, hs] at h
  cases e with
  | error e => cases h
  | ok p =>
      obtain ⟨rfl, -⟩ := List.append_inj' (Except.ok.inj h) rfl
      exact ⟨p, hs⟩

/-- What a text means does not change with the space between its tokens. It is read as the same
lexemes, and its tree or what is wrong with it is the same but for places. -/
theorem Respaced.read_alike {g : Grammar} {text text' : String} {ts : List Token} {eof : Token}
    (htext : (Lexer.ofText g text).tokenize = .ok (ts ++ [eof])) (h : Respaced ts text'.toList) :
    (∃ us, (Lexer.ofText g text').tokenize = .ok us) ∧
    (∀ k, ((Lexer.ofText g text).tokenAt k).map Token.lexeme =
      ((Lexer.ofText g text').tokenAt k).map Token.lexeme) ∧
    (g = .filter → (Filter.parse text).mapError ParseError.placeless =
      (Filter.parse text').mapError ParseError.placeless) ∧
    (g = .orderBy → (Order.parse text).mapError ParseError.placeless =
      (Order.parse text').mapError ParseError.placeless) := by
  obtain ⟨p, hstream⟩ := Lexer.stream_of_tokenize htext
  have hsignificant : (Lexer.ofText g text).stream.significant =
      ⟨(Stream.significant ⟨ts, .ok p⟩).tokens, .ok p⟩ := by rw [hstream]; rfl
  have hreads : g.Reads text'.toList _ := Lexer.reads_of_respaced h hstream
  obtain ⟨us, p', hsignificant', hus⟩ := reads_iff_significant.1 hreads
  refine ⟨?_, fun k => ?_, ?_, ?_⟩
  · have hending : (Lexer.ofText g text').stream.ending = .ok p' :=
      congrArg Stream.ending hsignificant'
    rw [Lexer.tokenize, Stream.complete, hending]
    exact ⟨_, rfl⟩
  · rw [Lexer.tokenAt_eq_get, Lexer.tokenAt_eq_get, hsignificant, hsignificant',
      Stream.map_lexeme_get, Stream.map_lexeme_get, hus]
  · rintro rfl
    exact Filter.placeless.whole.readFrom_eq hsignificant hsignificant' hus.symm
  · rintro rfl
    exact Order.placeless.whole.readFrom_eq hsignificant hsignificant' hus.symm

theorem Respaced.read_alike_dotted :
    let ident : Token := ⟨.ident, "a", ⟨0, 1⟩, ⟨0, 1, 1⟩⟩
    let dot : Token := ⟨.dot, ".", ⟨1, 2⟩, ⟨1, 1, 2⟩⟩
    (Lexer.ofText .filter "a.").tokenize = .ok ([ident, dot] ++ [.eof ⟨2, 1, 3⟩]) ∧
      Respaced [ident, dot] "a\t . ".toList ∧
      (Filter.parse "a.").mapError ParseError.placeless =
        (Filter.parse "a\t . ").mapError ParseError.placeless := by
  intro ident dot
  have htext : (Lexer.ofText .filter "a.").tokenize = .ok ([ident, dot] ++ [.eof ⟨2, 1, 3⟩]) := by
    decide +kernel
  have hspaced : "a\t . ".toList =
      ident.text.toList ++ (['\t', ' '] ++ (dot.text.toList ++ ([' '] ++ []))) := by decide
  have h : Respaced [ident, dot] "a\t . ".toList := by
    rw [hspaced]
    exact .keep (.insert (by simp [Grammar.isSpace])
      (.keep (.insert (by simp [Grammar.isSpace]) .nil)))
  exact ⟨htext, h, (read_alike htext h).2.2.1 rfl⟩

end Sift
