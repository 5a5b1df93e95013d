import Mathlib.Data.List.Chain
import Mathlib.Data.List.DropRight
import Sift.Proofs.Token.Reading

/-!
# Places of tokens

The tokens of a text stand in it one after the other, without gaps, each where its span and its
position say. Together they are the whole text, or what stands before the place of an error.
-/

namespace Sift

/-- How many bytes the characters are in UTF-8. -/
def Text.byteSize (s : List Char) : Nat := (String.ofList s).utf8ByteSize

open Text (byteSize)

@[simp] theorem Text.byteSize_nil : byteSize [] = 0 := by
  simp [byteSize]

@[simp] theorem Text.byteSize_append (s t : List Char) :
    byteSize (s ++ t) = byteSize s + byteSize t := by
  simp [byteSize, String.ofList_append]

@[simp] theorem Text.byteSize_toList (s : String) : byteSize s.toList = s.utf8ByteSize := by
  simp [byteSize]

theorem Text.byteSize_cons (c : Char) (s : List Char) :
    byteSize (c :: s) = c.utf8Size + byteSize s := by
  rw [← List.singleton_append, byteSize_append]
  congr 1
  exact String.utf8ByteSize_singleton

/-- The bytes of the text that the span takes. -/
def Span.bytes (span : Span) (text : String) : ByteArray :=
  text.toByteArray.extract span.start span.stop

theorem Span.bytes_eq {text : String} {before w after : List Char}
    (h : text.toList = before ++ w ++ after) :
    bytes ⟨byteSize before, byteSize before + byteSize w⟩ text =
      (String.ofList w).toByteArray := by
  have htext : text = String.ofList before ++ (String.ofList w ++ String.ofList after) := by
    rw [← String.ofList_append, ← String.ofList_append, ← List.append_assoc, ← h,
      String.ofList_toList]
  have hsize (s : List Char) : byteSize s = (String.ofList s).toByteArray.size := rfl
  rw [bytes, htext, String.toByteArray_append, String.toByteArray_append, hsize, hsize,
    ← Nat.add_zero (ByteArray.size _), Nat.add_assoc, ByteArray.extract_append_size_add,
    Nat.zero_add]
  exact ByteArray.extract_append_eq_left rfl

/-! ## Counting characters and lines -/

namespace Position

theorem offset_advance (p : Position) (s : List Char) :
    (p.advance s).offset = p.offset + byteSize s := by
  induction s generalizing p with
  | nil => rfl
  | cons c s ih =>
      have hstep : (p.step c).offset = p.offset + c.utf8Size := by
        unfold step
        split <;> rfl
      rw [advance_cons, ih, hstep, Text.byteSize_cons, Nat.add_assoc]

theorem line_advance (p : Position) (s : List Char) :
    (p.advance s).line = p.line + s.count '\n' := by
  induction s generalizing p with
  | nil => rfl
  | cons c s ih =>
      have hstep : (p.step c).line = p.line + [c].count '\n' := by
        unfold step
        split <;> simp_all
      rw [advance_cons, ih, hstep, Nat.add_assoc, ← List.count_append, List.singleton_append]

/-- The column counts from the last line break, which a single step may put at the very end. -/
theorem column_advance_start (s : List Char) :
    (start.advance s).column = 1 + (s.rtakeWhile (· ≠ '\n')).length := by
  induction s using List.reverseRecOn with
  | nil => rfl
  | append_singleton s c ih =>
      rw [advance_append, advance_cons, advance_nil, List.rtakeWhile_concat, step]
      by_cases hc : c = '\n'
      · simp [hc]
      · simp only [hc, ih, if_false, ne_eq, not_false_eq_true, decide_true, if_true,
          List.length_append, List.length_singleton, Nat.add_assoc]

/-- The place after the characters `before`: bytes from 0, lines and columns from 1, columns from
the last line break on. -/
structure After (before : List Char) (p : Position) : Prop where
  offset : p.offset = byteSize before
  line : p.line = 1 + before.count '\n'
  column : p.column = 1 + (before.rtakeWhile (· ≠ '\n')).length

theorem after_advance (before : List Char) : (start.advance before).After before where
  offset := by rw [offset_advance, start, Nat.zero_add]
  line := line_advance start before
  column := column_advance_start before

end Position

/-! ## Tokens in their text -/

/-- The token is a piece of the text, which stands there between `before` and `after`. -/
structure Token.Stands (text : String) (before : List Char) (t : Token) (after : List Char) :
    Prop where
  ne_empty : t.text ≠ ""
  toList_eq : text.toList = before ++ t.text.toList ++ after
  bytes_eq : t.span.bytes text = t.text.toByteArray
  span_eq : t.span = ⟨byteSize before, byteSize before + t.text.utf8ByteSize⟩
  offset_eq : t.position.offset = t.span.start
  position : t.position.After before

/-- The characters of the tokens, one token after the other. -/
def Token.chars (ts : List Token) : List Char := ts.flatMap (·.text.toList)

namespace Lexer

variable {l l' : Lexer} {text : String} {before : List Char}

/-- The lexer has read the characters `before`, and the rest of the text is left. -/
structure At (text : String) (before : List Char) (l : Lexer) : Prop where
  toList_eq : text.toList = before ++ l.rest
  position_eq : l.position = Position.start.advance before

theorem at_ofText (g : Grammar) (text : String) : (ofText g text).At text [] := ⟨rfl, rfl⟩

/-- Reading a token leads from before it to after it. -/
theorem At.split {k : Kind} {w rest : List Char} (h : l.At text before)
    (hs : l.grammar.split? l.rest = some (k, w, rest)) :
    Token.Stands text before ⟨k, String.ofList w,
        ⟨l.position.offset, (l.position.advance w).offset⟩, l.position⟩ rest ∧
      At text (before ++ w) { l with position := l.position.advance w, rest } := by
  have htext : text.toList = before ++ w ++ rest := by
    rw [h.toList_eq, ← Grammar.append_of_split? hs, List.append_assoc]
  have hafter : l.position.After before := h.position_eq ▸ Position.after_advance before
  have hspan : (⟨l.position.offset, (l.position.advance w).offset⟩ : Span) =
      ⟨byteSize before, byteSize before + byteSize w⟩ := by
    rw [Position.offset_advance, hafter.offset]
  constructor
  · constructor
    · simpa using Grammar.ne_nil_of_split? hs
    · rw [htext, String.toList_ofList]
    · rw [hspan]
      exact Span.bytes_eq htext
    · exact hspan
    · rfl
    · exact hafter
  · exact ⟨htext, by rw [h.position_eq, Position.advance_append]⟩

/-- The lexer reads no more tokens, and finds the end of the text or an error. -/
inductive Ends (l : Lexer) : Except LexError Position → Prop
  | eof : l.rest = [] → Ends l (.ok l.position)
  | error : l.rest ≠ [] → l.grammar.split? l.rest = none →
      Ends l (.error ⟨l.position, LexError.sampleOf l.rest⟩)

/-- The tokens that are read stand one after the other, and after the last one reading ends. -/
theorem At.stream (h : l.At text before) :
    (∃ l' : Lexer, l'.grammar = l.grammar ∧ l'.At text (before ++ Token.chars l.stream.tokens) ∧
      l'.Ends l.stream.ending) ∧
    ∀ us t vs, l.stream.tokens = us ++ t :: vs →
      ∃ after, t.Stands text (before ++ Token.chars us) after := by
  induction l using readInduction generalizing before with
  | nil l hnil =>
      rw [stream_of_nil hnil]
      exact ⟨⟨l, rfl, by simpa [Token.chars] using h, .eof hnil⟩, by simp⟩
  | error l hne hs =>
      rw [stream_of_none hne hs]
      exact ⟨⟨l, rfl, by simpa [Token.chars] using h, .error hne hs⟩, by simp⟩
  | token l k w rest hs ih =>
      obtain ⟨hstands, hat⟩ := h.split hs
      obtain ⟨⟨l', hg, hat', hend⟩, hall⟩ := ih hat
      rw [stream_of_some hs]
      refine ⟨⟨l', hg, ?_, hend⟩, fun us t vs ht => ?_⟩
      · simpa [Stream.cons, Token.chars] using hat'
      · cases us with
        | nil =>
            obtain ⟨rfl, -⟩ := List.cons.inj ht
            exact ⟨rest, by simpa [Token.chars] using hstands⟩
        | cons u us =>
            obtain ⟨rfl, htokens⟩ := List.cons.inj ht
            obtain ⟨after, hafter⟩ := hall us t vs htokens
            exact ⟨after, by simpa [Token.chars] using hafter⟩

end Lexer

/-! ## The tokens of a text -/

/-- The tokens are the text from its beginning on, each in its place, and end where it does or where
no rule of the language applies. -/
structure Stream.Lossless (g : Grammar) (text : String) (s : Stream) : Prop where
  stands : ∀ us t vs, s.tokens = us ++ t :: vs →
    ∃ after, t.Stands text (Token.chars us) after
  start_eq : ∀ t ∈ s.tokens.head?, t.span.start = 0
  adjacent : s.tokens.IsChain fun t u => t.span.stop = u.span.start
  eof : ∀ p, s.ending = .ok p → Token.chars s.tokens = text.toList ∧ p.After text.toList ∧
    (Token.eof p).span = ⟨text.utf8ByteSize, text.utf8ByteSize⟩
  error : ∀ e, s.ending = .error e → ∃ rest, rest ≠ [] ∧
    text.toList = Token.chars s.tokens ++ rest ∧ e.position.After (Token.chars s.tokens) ∧
    (∀ r ∈ g.rules, ∀ w ∈ r.pattern.language, ¬ w <+: rest) ∧
    e.sample.toList = rest.take 16 ++ if 16 < rest.length then ['.', '.', '.'] else []

namespace Stream

variable {text : String} {s : Stream}

theorem start_eq_of_stands
    (h : ∀ us t vs, s.tokens = us ++ t :: vs → ∃ after, t.Stands text (Token.chars us) after) :
    ∀ t ∈ s.tokens.head?, t.span.start = 0 := by
  intro t ht
  obtain ⟨vs, hvs⟩ := List.head?_eq_some_iff.1 (Option.mem_def.1 ht)
  obtain ⟨after, hstands⟩ := h [] t vs hvs
  rw [hstands.span_eq]
  exact Text.byteSize_nil

theorem adjacent_of_stands
    (h : ∀ us t vs, s.tokens = us ++ t :: vs → ∃ after, t.Stands text (Token.chars us) after) :
    s.tokens.IsChain fun t u => t.span.stop = u.span.start := by
  rw [List.isChain_iff_forall_rel_of_append_cons_cons]
  intro t u us vs htokens
  obtain ⟨_, ht⟩ := h us t (u :: vs) htokens
  obtain ⟨_, hu⟩ := h (us ++ [t]) u vs (by simp [htokens])
  rw [ht.span_eq, hu.span_eq]
  simp [Token.chars]

end Stream

/-- Reading tokens loses nothing of a text, and their places are where their texts stand. -/
theorem Lexer.stream_lossless (g : Grammar) (text : String) :
    (ofText g text).stream.Lossless g text := by
  obtain ⟨⟨l, hg, hat, hend⟩, hall⟩ := (at_ofText g text).stream
  have hstands : ∀ us t vs, (ofText g text).stream.tokens = us ++ t :: vs →
      ∃ after, t.Stands text (Token.chars us) after := hall
  rw [List.nil_append] at hat
  have hafter : l.position.After (Token.chars (ofText g text).stream.tokens) :=
    hat.position_eq ▸ Position.after_advance _
  constructor
  case stands => exact hstands
  case start_eq => exact Stream.start_eq_of_stands hstands
  case adjacent => exact Stream.adjacent_of_stands hstands
  case eof =>
    intro p hp
    rw [hp] at hend
    cases hend with
    | eof hnil =>
        have htext : Token.chars (ofText g text).stream.tokens = text.toList := by
          rw [hat.toList_eq, hnil, List.append_nil]
        rw [htext] at hafter
        refine ⟨htext, hafter, ?_⟩
        rw [Token.eof, hafter.offset, Text.byteSize_toList]
  case error =>
    intro e he
    rw [he] at hend
    cases hend with
    | error hne hs =>
        refine ⟨l.rest, hne, hat.toList_eq, hafter, ?_, ?_⟩
        · rw [hg] at hs
          exact Grammar.split?_eq_none_iff.1 hs
        · rw [LexError.sampleOf, String.toList_ofList]
          rfl

end Sift
