import Sift.Proofs.Token.Places
import Sift.Proofs.Token.Sequence

/-!
# Using one lexer

A lexer may be asked for raw tokens and for significant ones in any order. What it answers is read
off the stream of the text, at an index that only grows. The end of the input and an error are
answered again and again.
-/

namespace Sift

/-! ## Quotes -/

/-- What is read of the token `t` of the text: of a string what stands between its quotes, of any
other token all of it. -/
def Token.Unquotes (text : String) (t u : Token) : Prop :=
  if t.kind = .string then
    ∃ q p, (q = '\'' ∨ q = '"') ∧ q ∉ p ∧
      t.span.bytes text = (String.ofList (q :: p ++ [q])).toByteArray ∧
      u = { t with text := String.ofList p }
  else u = t

/-! ## The answers of a stream -/

namespace Lexer

/-- The two ways to ask for a token. -/
inductive Call where
  | raw
  | next

def call (l : Lexer) : Call → Except LexError Token × Lexer
  | .raw => l.raw
  | .next => l.next

/-- The answers to the calls, one after the other, and where they leave the lexer. -/
def calls (l : Lexer) : List Call → List (Except LexError Token) × Lexer
  | [] => ([], l)
  | c :: cs => ((l.call c).1 :: ((l.call c).2.calls cs).1, ((l.call c).2.calls cs).2)

end Lexer

namespace Stream

def drop (s : Stream) (n : Nat) : Stream := { s with tokens := s.tokens.drop n }

/-- All that is found from the index `i` on and before the index `j` is space. -/
def Blank (s : Stream) (i j : Nat) : Prop :=
  ∀ k, i ≤ k → k < j → ∃ t, s.get k = .ok t ∧ t.kind = .space

/-- What a call has to answer at the index `i`, and the index after it. -/
inductive Answers (text : String) (s : Stream) (i : Nat) :
    Lexer.Call → Except LexError Token → Nat → Prop
  | raw : Answers text s i .raw (s.get i) (i + 1)
  | next {j : Nat} {t u : Token} : i ≤ j → s.Blank i j → s.get j = .ok t → t.kind ≠ .space →
      t.Unquotes text u → Answers text s i .next (.ok u) (j + 1)
  | error {j : Nat} {e : LexError} : i ≤ j → s.Blank i j → s.get j = .error e →
      Answers text s i .next (.error e) (j + 1)

/-- What calls have to answer from the index `i` on, and the index after them. -/
inductive AnswersAll (text : String) (s : Stream) :
    Nat → List Lexer.Call → List (Except LexError Token) → Nat → Prop
  | nil {i : Nat} : AnswersAll text s i [] [] i
  | cons {i j n : Nat} {c : Lexer.Call} {cs : List Lexer.Call} {a : Except LexError Token}
      {as : List (Except LexError Token)} : s.Answers text i c a j →
      AnswersAll text s j cs as n → AnswersAll text s i (c :: cs) (a :: as) n

variable {text : String} {s : Stream} {i j : Nat}

theorem tail_drop (s : Stream) (n : Nat) : (s.drop n).tail = s.drop (n + 1) := by
  rw [tail, drop, drop, List.tail_drop]

theorem get_drop (s : Stream) (n k : Nat) : (s.drop n).get k = s.get (n + k) := by
  rw [get, get, drop, List.getElem?_drop]

theorem mem_of_get {t : Token} (h : s.get i = .ok t) (ht : t.kind ≠ .eof) : t ∈ s.tokens := by
  unfold get at h
  split at h
  · next u hu =>
      cases h
      exact List.mem_of_getElem? hu
  · cases he : s.ending with
    | error e => simp [he, Except.map] at h
    | ok p =>
        rw [he] at h
        cases h
        exact absurd rfl ht

theorem Blank.self (s : Stream) (i : Nat) : s.Blank i i := by
  intro k hk hki
  omega

theorem Blank.cons {t : Token} (ht : s.get i = .ok t) (hspace : t.kind = .space)
    (h : s.Blank (i + 1) j) : s.Blank i j := by
  intro k hik hkj
  rcases Nat.eq_or_lt_of_le hik with rfl | hik
  · exact ⟨t, ht, hspace⟩
  · exact h k hik hkj

/-- A space is left out before the answer. -/
theorem Answers.skip {t : Token} {a : Except LexError Token} (ht : s.get i = .ok t)
    (hspace : t.kind = .space) (h : s.Answers text (i + 1) .next a j) :
    s.Answers text i .next a j := by
  cases h with
  | next hij hblank hget hne hu =>
      exact .next (Nat.le_of_succ_le hij) (hblank.cons ht hspace) hget hne hu
  | error hij hblank hget => exact .error (Nat.le_of_succ_le hij) (hblank.cons ht hspace) hget

end Stream

/-! ## Answering from the stream -/

namespace Lexer

variable {l l' : Lexer} {text : String} {s : Stream} {i : Nat}

/-- The strings of a text stand in it between their quotes. -/
theorem unquotes_of_mem_stream {g : Grammar} {t : Token} (h : t ∈ (ofText g text).stream.tokens) :
    t.Unquotes text t.unquote := by
  unfold Token.Unquotes
  split
  · next hk =>
      obtain ⟨_, w, _, hs, ht⟩ := exists_split_of_mem_stream h
      rw [hk] at hs
      obtain ⟨q, p, hq, hp, hw⟩ := Grammar.quoted_of_split? hs
      obtain ⟨us, vs, hsplit⟩ := List.append_of_mem h
      obtain ⟨after, hstands⟩ := (at_ofText g text).stream.2 us t vs hsplit
      have hslice := Grammar.slice?_of_split? hs
      rw [← ht] at hslice
      refine ⟨q, p, hq, hp, by rw [hstands.bytes_eq, ht, hw], ?_⟩
      simp [Token.unquote, hk, hslice, hw]
  · next hk =>
      unfold Token.unquote
      split
      · contradiction
      · rfl

/-- Whoever reads on from the index `i` of the stream of the text. -/
structure Follower (text : String) (s : Stream) (i : Nat) (l : Lexer) : Prop where
  stream_eq : l.stream = s.drop i
  unquotes : ∀ t ∈ s.tokens, t.Unquotes text t.unquote

namespace Follower

theorem ofText (g : Grammar) (text : String) :
    Follower text (ofText g text).stream 0 (ofText g text) :=
  ⟨rfl, fun _ => unquotes_of_mem_stream⟩

theorem raw (h : l.Follower text s i) :
    l.raw.1 = s.get i ∧ l.raw.2.Follower text s (i + 1) := by
  obtain ⟨hget, htail⟩ := l.raw_eq_stream
  refine ⟨?_, ?_, h.unquotes⟩
  · rw [hget, h.stream_eq, Stream.get_drop, Nat.add_zero]
  · rw [htail, h.stream_eq, Stream.tail_drop]

theorem next (h : l.Follower text s i) :
    ∃ j, s.Answers text i .next l.next.1 j ∧ l.next.2.Follower text s j := by
  induction hn : l.rest.length using Nat.strong_induction_on generalizing l i with
  | _ n ih =>
      subst hn
      obtain ⟨hget, hafter⟩ := h.raw
      obtain ⟨a, l', hraw⟩ : ∃ a l', l.raw = (a, l') := ⟨_, _, rfl⟩
      rw [hraw] at hget hafter
      cases a with
      | error e =>
          rw [next_of_raw_error hraw]
          exact ⟨i + 1, .error le_rfl (.self s i) hget.symm, hafter⟩
      | ok t =>
          rw [next_of_raw_ok hraw]
          by_cases hspace : t.kind = .space
          · rw [if_pos hspace]
            have hlt := length_lt_of_raw hraw (by simp [hspace])
            obtain ⟨j, hanswers, hl⟩ := ih _ hlt hafter rfl
            exact ⟨j, hanswers.skip hget.symm hspace, hl⟩
          · rw [if_neg hspace]
            refine ⟨i + 1, .next le_rfl (.self s i) hget.symm hspace ?_, hafter⟩
            by_cases heof : t.kind = .eof
            · simp [Token.Unquotes, Token.unquote, heof]
            · exact h.unquotes t (Stream.mem_of_get hget.symm heof)

theorem call (h : l.Follower text s i) (c : Call) :
    ∃ j, s.Answers text i c (l.call c).1 j ∧ (l.call c).2.Follower text s j := by
  cases c with
  | raw =>
      obtain ⟨hget, hafter⟩ := h.raw
      exact ⟨i + 1, hget ▸ .raw, hafter⟩
  | next => exact h.next

theorem calls (h : l.Follower text s i) (cs : List Call) :
    ∃ n, s.AnswersAll text i cs (l.calls cs).1 n ∧ (l.calls cs).2.Follower text s n := by
  induction cs generalizing l i with
  | nil => exact ⟨i, .nil, h⟩
  | cons c cs ih =>
      obtain ⟨j, hanswer, hl⟩ := h.call c
      obtain ⟨n, hanswers, hl⟩ := ih hl
      exact ⟨n, .cons hanswer hanswers, hl⟩

end Follower

/-! ## Answers that repeat -/

/-- Whatever is called, the lexer answers `a` and stays where it is. -/
def Repeats (l : Lexer) (a : Except LexError Token) : Prop :=
  (∀ cs, l.calls cs = (List.replicate cs.length a, l)) ∧ l.tokenize = a.map fun t => [t]

/-- An answer after which nothing else comes. -/
def Final : Except LexError Token → Prop
  | .error _ => True
  | .ok t => t.kind = .eof

variable {a : Except LexError Token}

theorem raw_of_final (h : l.raw = (a, l')) (ha : Final a) :
    l' = l ∧ (∀ e, a = .error e → l.position = e.position) ∧
      ∀ t, a = .ok t → t = .eof l.position := by
  induction l using readInduction with
  | nil l hnil =>
      rw [raw_of_nil hnil] at h
      cases h
      exact ⟨rfl, by simp, by simp⟩
  | error l hne hs =>
      rw [raw_of_none hne hs] at h
      cases h
      exact ⟨rfl, by simp, by simp⟩
  | token l k w rest hs _ =>
      rw [raw_of_some hs] at h
      cases h
      exact absurd ha (Grammar.kind_ne_eof_of_split? hs)

/-- Such an answer is the one of the lexer's own place, also where space was left out before it. -/
theorem raw_of_next_final (h : l.next = (a, l')) (ha : Final a) : l'.raw = (a, l') := by
  induction hn : l.rest.length using Nat.strong_induction_on generalizing l with
  | _ n ih =>
      subst hn
      obtain ⟨b, l'', hraw⟩ : ∃ b l'', l.raw = (b, l'') := ⟨_, _, rfl⟩
      cases b with
      | error e =>
          rw [next_of_raw_error hraw] at h
          cases h
          obtain ⟨rfl, -⟩ := raw_of_final hraw ha
          exact hraw
      | ok t =>
          rw [next_of_raw_ok hraw] at h
          split at h
          · next hspace => exact ih _ (length_lt_of_raw hraw (by simp [hspace])) h rfl
          · cases h
            have hkind : t.kind = .eof := by rwa [Final, Token.kind_unquote] at ha
            obtain ⟨rfl, -, ht⟩ := raw_of_final hraw hkind
            rw [ht t rfl] at hraw ⊢
            exact hraw

theorem repeats_of_raw (h : l.raw = (a, l)) (ha : Final a) : l.Repeats a := by
  have hnext : l.next = (a, l) := by
    cases a with
    | error e => exact next_of_raw_error h
    | ok t =>
        have ht := (raw_of_final h ha).2.2 t rfl
        rw [next_of_raw_ok h, ht, if_neg (by simp [Token.eof])]
        rfl
  constructor
  · intro cs
    induction cs with
    | nil => rfl
    | cons c cs ih =>
        have hcall : l.call c = (a, l) := by cases c <;> assumption
        rw [calls, hcall, ih]
        rfl
  · cases a with
    | error e => rw [tokenize, stream_of_raw_error h]; rfl
    | ok t =>
        have ht := (raw_of_final h ha).2.2 t rfl
        have hkind : t.kind = .eof := ha
        rw [tokenize, stream_of_raw_ok h, if_pos hkind, ht]
        rfl

theorem raw_of_call_final {c : Call} (h : l.call c = (a, l')) (ha : Final a) :
    l'.raw = (a, l') := by
  cases c with
  | raw =>
      obtain ⟨rfl, -⟩ := raw_of_final h ha
      exact h
  | next => exact raw_of_next_final h ha

theorem raw_of_calls_final {cs : List Call} (h : (l.calls cs).1.getLast? = some a)
    (ha : Final a) : (l.calls cs).2.raw = (a, (l.calls cs).2) := by
  induction cs generalizing l with
  | nil => cases h
  | cons c cs ih =>
      cases cs with
      | nil => exact raw_of_call_final (Prod.ext (Option.some.inj h) rfl) ha
      | cons d cs => exact ih (by simpa [calls] using h)

/-- The end of the input is where the text ends. -/
theorem offset_of_ending {g : Grammar} {p : Position}
    (h : (ofText g text).stream.ending = .ok p) : p.offset = text.utf8ByteSize := by
  obtain ⟨⟨l, -, hat, hends⟩, -⟩ := (at_ofText g text).stream
  rw [h] at hends
  cases hends with
  | eof hnil =>
      rw [hat.position_eq, Position.offset_advance, Position.start, Nat.zero_add,
        ← Text.byteSize_toList, hat.toList_eq, hnil, List.append_nil]

/-- In any mix of calls the lexer answers from the stream of its text, one element after the other,
where `next` leaves out space and takes off quotes. After an error it stands at the place of the
error, which it goes on answering, as it does the end of the input. -/
theorem calls_answer (g : Grammar) (text : String) (cs : List Call) :
    let s := (ofText g text).stream
    let answers := ((ofText g text).calls cs).1
    let l := ((ofText g text).calls cs).2
    (∀ t ∈ s.tokens, t.kind ≠ .eof) ∧
    (∀ p, s.ending = .ok p → p.offset = text.utf8ByteSize) ∧
    (∃ n, s.AnswersAll text 0 cs answers n ∧ l.tokenize = (s.drop n).complete) ∧
    (∀ e, answers.getLast? = some (.error e) → l.position = e.position ∧ l.Repeats (.error e)) ∧
    ∀ t, answers.getLast? = some (.ok t) → t.kind = .eof → l.Repeats (.ok t) := by
  intro s answers l
  obtain ⟨n, hanswers, hl⟩ := (Follower.ofText g text).calls cs
  refine ⟨fun t => kind_ne_eof_of_mem_stream, fun p => offset_of_ending, ⟨n, hanswers, ?_⟩, ?_, ?_⟩
  · rw [tokenize, hl.stream_eq]
  · intro e he
    have hraw := raw_of_calls_final he trivial
    exact ⟨(raw_of_final hraw trivial).2.1 e rfl, repeats_of_raw hraw trivial⟩
  · intro t ht hkind
    exact repeats_of_raw (raw_of_calls_final ht hkind) hkind

end Lexer

end Sift
