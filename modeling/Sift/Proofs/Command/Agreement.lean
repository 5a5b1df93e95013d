import Sift.Command.Basic
import Sift.Proofs.Filter.Failure
import Sift.Proofs.Order.Failure
import Sift.Proofs.Token.Respacing

/-!
# Tokens and canonical forms

The list of tokens reads a text to its end before anything is made of it, the canonical form reads
it as far as its parser gets. Both come to the same verdict on the tokens of the text.
-/

namespace Sift

/-- The member of an object that stands under `key`. -/
def Json.member? (key : String) : Json → Option Json
  | object members => members.lookup key
  | _ => none

/-! ## The table of symbols -/

namespace Grammar

variable {g : Grammar}

theorem kind_mem_of_split? {s w rest : List Char} {k : Kind}
    (h : g.split? s = some (k, w, rest)) : k ∈ g.kinds := by
  obtain ⟨r, hr, rfl, -⟩ := exists_rule_of_split? h
  exact List.mem_map_of_mem hr

/-- Each kind of token has a number, as has the end of the input. -/
theorem exists_symbol {k : Kind} (h : k ∈ .eof :: g.kinds) : ∃ n, g.symbol? k = some n := by
  have hall : ∀ k ∈ .eof :: g.kinds, (g.symbol? k).isSome = true := by
    cases g <;> decide
  exact Option.isSome_iff_exists.1 (hall k h)

end Grammar

namespace Command

variable {g : Grammar} {text : String}

theorem member?_symbols (g : Grammar) (name : String) :
    (symbols g).member? name = (g.symbols.lookup name).map .int := by
  simp only [symbols, Json.member?]
  induction g.symbols with
  | nil => rfl
  | cons entry table ih =>
      rw [List.map_cons, List.lookup_cons, List.lookup_cons, ih]
      cases name == entry.1 <;> rfl

/-! ## What a list of tokens tells -/

/-- The item gives a kind of token that the table of symbols lists, the number that the table has
for it, and the text. -/
structure Describes (g : Grammar) (item : Json) (t : String) : Prop where
  symbol : ∃ name n, item.member? "kind" = some (.string name) ∧
    item.member? "symbol" = some (.int n) ∧ (symbols g).member? name = some (.int n)
  text : item.member? "text" = some (.string t)

theorem describes {t : Token} (h : t.kind ∈ .eof :: g.kinds) :
    Describes g (describeToken g t) t.text := by
  obtain ⟨n, hn⟩ := Grammar.exists_symbol h
  refine ⟨⟨t.kind.name, n, rfl, ?_, ?_⟩, rfl⟩
  · have hsymbol : (describeToken g t).member? "symbol" =
        some ((g.symbol? t.kind).elim .null .int) := rfl
    rw [hsymbol, hn]
    rfl
  · rw [member?_symbols, ← Grammar.symbol?, hn]
    rfl

/-- The tokens of a text and the end of input after them have the text of all. -/
theorem join_texts {l : Lexer} {p : Position} (h : l.stream.ending = .ok p) :
    String.join ((l.stream.tokens ++ [Token.eof p]).map Token.text) = String.ofList l.rest := by
  rw [← String.toList_inj, String.toList_join, String.toList_ofList, ← Lexer.chars_stream h]
  simp [Token.chars, Token.eof, List.flatMap_map]

theorem tokens_of_ending {p : Position} (h : (Lexer.ofText g text).stream.ending = .ok p) :
    ∃ items texts, tokens g text = .ok (.array items) ∧
      List.Forall₂ (Describes g) items texts ∧ String.join texts = text := by
  have htokenize : (Lexer.ofText g text).tokenize =
      .ok ((Lexer.ofText g text).stream.tokens ++ [.eof p]) := by
    rw [Lexer.tokenize, Stream.complete, h]
    rfl
  refine ⟨_, _, by rw [tokens, htokenize], ?_, (join_texts h).trans String.ofList_toList⟩
  rw [List.forall₂_map_left_iff, List.forall₂_map_right_iff, List.forall₂_same]
  intro t ht
  apply describes
  rcases List.mem_append.1 ht with ht | ht
  · obtain ⟨_, _, _, hs, -⟩ := Lexer.exists_split_of_mem_stream ht
    exact List.mem_cons_of_mem _ (Grammar.kind_mem_of_split? hs)
  · rw [List.mem_singleton.1 ht]
    exact List.mem_cons_self

theorem tokens_of_ending_error {e : LexError}
    (h : (Lexer.ofText g text).stream.ending = .error e) : tokens g text = .error (.lex e) := by
  rw [tokens, Lexer.tokenize, Stream.complete, h]
  rfl

/-! ## Agreement -/

section

variable {α β ε ε' : Type} {x : Except ε α} {f : α → β} {wrap : ε → ε'}

theorem mapError_map_eq_ok {b : β} :
    (x.map f).mapError wrap = .ok b ↔ ∃ a, x = .ok a ∧ f a = b := by
  cases x <;> simp [Except.map, Except.mapError]

theorem mapError_map_eq_error {e : ε'} :
    (x.map f).mapError wrap = .error e ↔ ∃ err, x = .error err ∧ wrap err = e := by
  cases x <;> simp [Except.map, Except.mapError]

end

theorem ending_of_canonical {out : String} (h : canonical g text = .ok out) :
    ∃ p, (Lexer.ofText g text).stream.ending = .ok p := by
  cases g with
  | filter =>
      obtain ⟨f, hf, -⟩ := mapError_map_eq_ok.1 h
      exact Filter.recognizes.ending_of_readFrom (by decide) hf
  | orderBy =>
      obtain ⟨o, ho, -⟩ := mapError_map_eq_ok.1 h
      exact Order.recognizes.ending_of_readFrom (by decide) ho

theorem ending_of_canonical_error {e : LexError}
    (h : canonical g text = .error (.parse (.lex e))) :
    (Lexer.ofText g text).stream.ending = .error e := by
  cases g with
  | filter =>
      obtain ⟨_, hf, he⟩ := mapError_map_eq_error.1 h
      cases he
      exact Filter.fails.ending_of_readFrom Filter.recognizes hf
  | orderBy =>
      obtain ⟨_, ho, he⟩ := mapError_map_eq_error.1 h
      cases he
      -- No parentheses are counted in an order, so that any number of them may be open.
      exact (@Order.fails 0 0).ending_of_readFrom Order.recognizes ho

/-- The canonical form fails where the tokens end in an error, if not there then before. -/
theorem canonical_of_ending_error {e : LexError}
    (h : (Lexer.ofText g text).stream.ending = .error e) :
    ∃ err, canonical g text = .error (.parse err) := by
  cases hout : canonical g text with
  | ok out =>
      obtain ⟨p, hp⟩ := ending_of_canonical hout
      cases h.symm.trans hp
  | error err =>
      have herr : ∃ err', CommandError.parse err' = err := by
        cases g <;> exact (mapError_map_eq_error.1 hout).imp fun _ => And.right
      obtain ⟨err', rfl⟩ := herr
      exact ⟨err', rfl⟩

/-- A text with a canonical form has a list of tokens. Where the canonical form fails by a lexical
error, the list fails by the same one, and the messages differ in how they begin. Where the list
fails, the canonical form does too. A list that is given describes tokens that make up the text. -/
theorem tokens_agrees (g : Grammar) (text : String) :
    (∀ out, canonical g text = .ok out → ∃ j, tokens g text = .ok j) ∧
    (∀ e, canonical g text = .error (.parse (.lex e)) →
      tokens g text = .error (.lex e) ∧
      (CommandError.parse (.lex e)).message = "parse error: " ++ e.message ∧
      (CommandError.lex e).message = "lex error: " ++ e.message) ∧
    (∀ e, tokens g text = .error e → ∃ err, canonical g text = .error (.parse err)) ∧
    ∀ j, tokens g text = .ok j → ∃ items texts, j = .array items ∧
      List.Forall₂ (Describes g) items texts ∧ String.join texts = text := by
  refine ⟨fun out hout => ?_, fun e he => ?_, fun e he => ?_, fun j hj => ?_⟩
  · obtain ⟨p, hp⟩ := ending_of_canonical hout
    obtain ⟨items, _, hitems, -⟩ := tokens_of_ending hp
    exact ⟨.array items, hitems⟩
  · refine ⟨tokens_of_ending_error (ending_of_canonical_error he), ?_, ?_⟩
    · simp [CommandError.message, ParseError.message]
    · simp [CommandError.message]
  · cases hending : (Lexer.ofText g text).stream.ending with
    | ok p =>
        obtain ⟨_, _, hitems, -⟩ := tokens_of_ending hending
        cases hitems.symm.trans he
    | error err => exact canonical_of_ending_error hending
  · cases hending : (Lexer.ofText g text).stream.ending with
    | ok p =>
        obtain ⟨items, texts, hitems, hdescribes, htexts⟩ := tokens_of_ending hending
        cases hitems.symm.trans hj
        exact ⟨items, texts, rfl, hdescribes, htexts⟩
    | error err => cases (tokens_of_ending_error hending).symm.trans hj

theorem tokens_agrees_percent_and_desc :
    let e : LexError := ⟨⟨6, 1, 7⟩, "% 1"⟩
    canonical .filter "a =  \t% 1" = .error (.parse (.lex e)) ∧
      tokens .filter "a =  \t% 1" = .error (.lex e) ∧
      (∃ err, canonical .filter "a =  \t% 1" = .error (.parse err)) ∧
      canonical .orderBy "a  desc" = .ok "a desc" ∧
      ∃ items texts, tokens .orderBy "a  desc" = .ok (.array items) ∧
        List.Forall₂ (Describes .orderBy) items texts ∧ String.join texts = "a  desc" := by
  intro e
  have hok : canonical .orderBy "a  desc" = .ok "a desc" := by decide +kernel
  have herror : canonical .filter "a =  \t% 1" = .error (.parse (.lex e)) := by decide +kernel
  obtain ⟨-, hlex, hfail, -⟩ := tokens_agrees .filter "a =  \t% 1"
  obtain ⟨hgiven, -, -, hlist⟩ := tokens_agrees .orderBy "a  desc"
  obtain ⟨j, hj⟩ := hgiven _ hok
  obtain ⟨items, texts, rfl, hdescribes, htexts⟩ := hlist j hj
  have htokens := (hlex e herror).1
  exact ⟨herror, htokens, hfail _ htokens, hok, items, texts, hj, hdescribes, htexts⟩

end Command

end Sift
