import Sift.Filter.Parser
import Sift.Proofs.Parse.Reader

/-!
# Reading filters with one reader

The routines for filters change the count of open parentheses as they go, and look at it before they
open another one. They follow the parsers, which know by themselves how many may be opened.
-/

namespace Sift

/-! ## The routines -/

namespace Routine

def invalid (kind : NumberKind) : Routine Value := do fail (.invalidLiteral kind (← current))

/-- Accepts the current token as `v`. -/
def accept (v : Value) : Routine Value := do
  let _ ← advance
  return v

def acceptInt (t : Token) : Routine Value :=
  match Decimal.int64? t.text.toList with
  | some n => accept (.int n)
  | none => invalid .integer

def acceptFloat (t : Token) : Routine Value :=
  match Decimal.binary64? t.text.toList with
  | some x => if x.isFinite then accept (.float x) else invalid .float
  | none => invalid .float

def value : Routine Value := do
  let t ← current
  match t.kind with
  | .star => accept .wildcard
  | .float => acceptFloat t
  | .int => acceptInt t
  | .string => accept (.string t.text)
  | .trueWord => accept (.boolean true)
  | .falseWord => accept (.boolean false)
  | .ident => accept (.ident t.text)
  | _ => unexpected .value

def field : Routine Field := do
  match (← current).kind with
  | .andWord | .orWord | .notWord => return .keyword (← advance).text
  | _ => return .value (← value)

def path : Routine (List Field) := followed .dot field

/-- What may stand within parentheses. -/
structure Enclosed where
  group : Routine Filter
  args : Routine (List Arg)

def inParens {α : Type} (m : Routine α) : Routine α := do
  let _ ← expect .openParen .openParen
  let a ← m
  let _ ← expect .closeParen .closeParen
  return a

def comparable (inner : Enclosed) : Routine Comparable := do
  let value ← value
  let path ← path
  if ← looksAt .openParen then return .call value path (← inner.args)
  else return .plain value path

def arg (inner : Enclosed) : Routine Arg := do
  if ← looksAt .openParen then return .group (← inner.group)
  else return .comparable (← comparable inner)

def args (inner : Enclosed) : Routine (List Arg) := do
  if ← looksAt .closeParen then return []
  else separated .comma (arg inner)

def comparison : Routine Comparison := do
  match Comparison.ofSymbol? (← current).text with
  | some op =>
    let _ ← advance
    return op
  | none => unexpected .comparison

def simple (inner : Enclosed) : Routine Simple := do
  if ← looksAt .openParen then return .group (← inner.group)
  else
    let left ← comparable inner
    if ← looksAt .comparison then
      let op ← comparison
      return .compare left op (← arg inner)
    else return .test left

def term (inner : Enclosed) : Routine Term := do
  let kind := (← current).kind
  if kind = .notWord || kind = .minus then
    let _ ← advance
    return .mk true (← simple inner)
  else return .mk false (← simple inner)

def clause (inner : Enclosed) : Routine Clause := separated .orWord (term inner)

def filterWithin (inner : Enclosed) : Routine Filter := separated .andWord (clause inner)

/-- The calls of `nested` go no deeper than `n`. It is the reader's own count that stops them. -/
def enclosed : Nat → Enclosed
  | 0 => ⟨stuck, stuck⟩
  | n + 1 =>
    let inner := enclosed n
    ⟨nested Filter.maxDepth (inParens (filterWithin inner)),
      nested Filter.maxDepth (inParens (args inner))⟩

def filter : Routine Filter := filterWithin (enclosed (Filter.maxDepth + 1))

/-! ## Values and paths -/

variable {limit d : Nat}

theorem follows_accept (v : Value) : Follows limit d (accept v) (Value.accept v) :=
  fun _ => FollowsAt.advance.bind fun _ _ _ => .pure v

theorem follows_invalid (sort : NumberKind) : Follows limit d (invalid sort) (Value.invalid sort) :=
  fun _ => .current_bind (.fail _)

theorem follows_acceptInt (t : Token) : Follows limit d (acceptInt t) (Value.acceptInt t) := by
  unfold acceptInt Value.acceptInt
  cases Decimal.int64? t.text.toList with
  | some n => exact follows_accept _
  | none => exact follows_invalid _

theorem follows_acceptFloat (t : Token) : Follows limit d (acceptFloat t) (Value.acceptFloat t) := by
  unfold acceptFloat Value.acceptFloat
  cases Decimal.binary64? t.text.toList with
  | none => exact follows_invalid _
  | some x =>
      cases hfinite : x.isFinite with
      | true => simpa [hfinite] using follows_accept (.float x)
      | false => simpa [hfinite] using follows_invalid .float

theorem follows_value : Follows limit d value Value.parser := by
  intro c
  apply FollowsAt.current_bind
  cases c.current.kind with
  | float => exact follows_acceptFloat _ c
  | int => exact follows_acceptInt _ c
  | star | string | trueWord | falseWord | ident => exact follows_accept _ c
  | _ => exact .unexpected

theorem follows_field : Follows limit d field Field.parser := by
  intro c
  have hkeyword : FollowsAt limit d c (do return Field.keyword (← advance).text)
      (do return Field.keyword (← Parser.advance).text) := FollowsAt.advance.map
  apply FollowsAt.current_bind
  cases c.current.kind with
  | andWord | orWord | notWord => exact hkeyword
  | _ => exact (follows_value c).map

theorem follows_path : Follows limit d path Path.parser := follows_field.followed

/-! ## From parentheses to filters -/

theorem follows_inParens {α : Type} {m : Routine α} {p : Parser α} (h : Follows limit d m p) :
    Follows limit d (inParens m) (Sift.inParens p) := by
  intro c
  apply FollowsAt.expect.bind
  intro _ c₁ _
  apply (h c₁).bind
  intro a _ _
  exact FollowsAt.expect.bind fun _ _ _ => .pure a

theorem follows_comparison : Follows limit d comparison Comparison.parser := by
  intro c
  apply FollowsAt.current_bind
  cases Comparison.ofSymbol? c.current.text with
  | some op => exact FollowsAt.advance.bind fun _ _ _ => .pure op
  | none => exact .unexpected

section

variable {inner : Enclosed} {inner' : Sift.Enclosed}
variable (hgroup : Follows limit d inner.group inner'.group)
variable (hargs : Follows limit d inner.args inner'.args)

include hargs in
theorem follows_comparable : Follows limit d (comparable inner) (Comparable.parser inner') := by
  intro c
  apply (follows_value c).bind
  intro value c₁ _
  apply (follows_path c₁).bind
  intro path c₂ _
  exact .looksAt (fun _ => (hargs c₂).map) fun _ => .pure _

include hgroup hargs in
theorem follows_arg : Follows limit d (arg inner) (Arg.parser inner') :=
  fun c => .looksAt (fun _ => (hgroup c).map) fun _ => (follows_comparable hargs c).map

include hgroup hargs in
theorem follows_args : Follows limit d (args inner) (Args.parser inner') :=
  fun c => .looksAt (fun _ => .pure []) fun _ => (follows_arg hgroup hargs).separated c

include hgroup hargs in
theorem follows_simple : Follows limit d (simple inner) (Simple.parser inner') := by
  intro c
  apply FollowsAt.looksAt
  · intro _
    exact (hgroup c).map
  · intro _
    apply (follows_comparable hargs c).bind
    intro left c₁ _
    apply FollowsAt.looksAt
    · intro _
      apply (follows_comparison c₁).bind
      intro op c₂ _
      exact (follows_arg hgroup hargs c₂).map
    · intro _
      exact .pure _

include hgroup hargs in
theorem follows_term : Follows limit d (term inner) (Term.parser inner') := by
  intro c
  apply FollowsAt.current_bind
  dsimp only
  by_cases hk : (c.current.kind = .notWord || c.current.kind = .minus) = true
  · rw [if_pos hk, if_pos hk]
    apply FollowsAt.advance.bind
    intro _ c₁ _
    exact (follows_simple hgroup hargs c₁).map
  · rw [if_neg hk, if_neg hk]
    exact (follows_simple hgroup hargs c).map

include hgroup hargs in
theorem follows_filterWithin :
    Follows limit d (filterWithin inner) (Filter.parserWithin inner') :=
  ((follows_term hgroup hargs).separated).separated

end

/-- Where `d` more parentheses may be opened, the count lets in as many as the parser does. -/
theorem follows_enclosed (d : Nat) :
    Follows Filter.maxDepth d (enclosed (d + 1)).group (Filter.enclosed d).group ∧
      Follows Filter.maxDepth d (enclosed (d + 1)).args (Filter.enclosed d).args := by
  induction d with
  | zero => exact ⟨.nested_limit, .nested_limit⟩
  | succ d ih =>
      obtain ⟨hgroup, hargs⟩ := ih
      exact ⟨(follows_inParens (follows_filterWithin hgroup hargs)).nested,
        (follows_inParens (follows_args hgroup hargs)).nested⟩

theorem follows_filter : Follows Filter.maxDepth Filter.maxDepth filter Filter.parser :=
  follows_filterWithin (follows_enclosed Filter.maxDepth).1 (follows_enclosed Filter.maxDepth).2

end Routine

end Sift
