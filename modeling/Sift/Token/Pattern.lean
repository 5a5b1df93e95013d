/-!
# Regular patterns

A pattern describes a set of character sequences. `longest` finds the longest prefix of a text that
is in the set, one character at a time: after the character `c` the pattern `p` becomes `p.after c`,
which describes what may still follow.
-/

namespace Sift

inductive Pattern where
  /-- Describes nothing. -/
  | never
  /-- Describes the empty sequence. -/
  | empty
  | char (accepts : Char → Bool)
  | seq (first second : Pattern)
  | alt (left right : Pattern)
  /-- Zero or more times `p`. -/
  | star (p : Pattern)

namespace Pattern

def plus (p : Pattern) : Pattern := seq p (star p)

def optional (p : Pattern) : Pattern := alt p empty

def exactly (c : Char) : Pattern := char (· == c)

def word : List Char → Pattern
  | [] => empty
  | [c] => exactly c
  | c :: r => seq (exactly c) (word r)

def oneOf : List (List Char) → Pattern
  | [] => never
  | [w] => word w
  | w :: r => alt (word w) (oneOf r)

def nullable : Pattern → Bool
  | never => false
  | empty => true
  | char _ => false
  | seq p q => p.nullable && q.nullable
  | alt p q => p.nullable || q.nullable
  | star _ => true

/-- Like `seq`, without steps that are empty or impossible. -/
def andThen : Pattern → Pattern → Pattern
  | never, _ => never
  | empty, q => q
  | p, q => seq p q

/-- Like `alt`, without impossible branches. -/
def orElse : Pattern → Pattern → Pattern
  | never, q => q
  | p, never => p
  | p, q => alt p q

/-- What may follow `c` in a sequence that `p` describes. -/
def after (c : Char) : Pattern → Pattern
  | never => never
  | empty => never
  | char accepts => if accepts c then empty else never
  | seq p q =>
    if p.nullable then ((p.after c).andThen q).orElse (q.after c) else (p.after c).andThen q
  | alt p q => (p.after c).orElse (q.after c)
  | star p => (p.after c).andThen (star p)

/-- The longest prefix that the pattern describes, and what follows it. -/
def longest : Pattern → List Char → Option (List Char × List Char)
  | never, _ => none
  | p, [] => if p.nullable then some ([], []) else none
  | p, c :: r =>
    match (p.after c).longest r with
    | some (w, rest) => some (c :: w, rest)
    | none => if p.nullable then some ([], c :: r) else none

theorem append_of_longest {p : Pattern} {s w r : List Char} (h : p.longest s = some (w, r)) :
    w ++ r = s := by
  fun_induction longest p s generalizing w with
  | case1 => simp at h
  | case2 => simp_all
  | case3 => simp_all
  | case4 p c s _ w' r' hw ih =>
    cases h; simp [ih hw]
  | case5 => simp_all
  | case6 => simp_all

theorem ne_nil_of_longest {p : Pattern} (hp : p.nullable = false) {s w r : List Char}
    (h : p.longest s = some (w, r)) : w ≠ [] := by
  unfold longest at h
  split at h
  · simp at h
  · simp [hp] at h
  · split at h
    · cases h; simp
    · simp [hp] at h

end Pattern

end Sift
