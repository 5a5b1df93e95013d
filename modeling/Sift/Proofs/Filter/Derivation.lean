import Sift.Filter.Basic
import Sift.Proofs.Number.Decimal
import Sift.Proofs.Parse.Phrase

/-!
# The grammar of filters

`Filter.Derived ts f` says that the lexemes `ts` are a filter with the tree `f`. There is one rule
for each alternative of the grammar.
-/

namespace Sift

/-! ## The rules -/

inductive Value.Derived : List Lexeme → Value → Prop
  | star {x : String} : Value.Derived [⟨.star, x⟩] .wildcard
  | int {x : String} {n : Int64} :
      n.toInt = Decimal.intValue x.toList → Value.Derived [⟨.int, x⟩] (.int n)
  | float {x : String} {y : Binary64} :
      Decimal.binary64? x.toList = some y → Value.Derived [⟨.float, x⟩] (.float y)
  | string {x : String} : Value.Derived [⟨.string, x⟩] (.string x)
  | trueWord {x : String} : Value.Derived [⟨.trueWord, x⟩] (.boolean true)
  | falseWord {x : String} : Value.Derived [⟨.falseWord, x⟩] (.boolean false)
  | ident {x : String} : Value.Derived [⟨.ident, x⟩] (.ident x)

def Field.keywords : List Kind := [.andWord, .orWord, .notWord]

inductive Field.Derived : List Lexeme → Field → Prop
  | value {ts : List Lexeme} {v : Value} : v.Derived ts → Field.Derived ts (.value v)
  | keyword {k : Kind} {x : String} : k ∈ Field.keywords → Field.Derived [⟨k, x⟩] (.keyword x)

abbrev Path.Derived : List Lexeme → List Field → Prop := Followed .dot Field.Derived

def Term.negations : List Kind := [.notWord, .minus]

mutual

inductive Term.Derived : List Lexeme → Term → Prop
  | plain {ts : List Lexeme} {s : Simple} : Simple.Derived ts s → Term.Derived ts (.mk false s)
  | negated {k : Kind} {x : String} {ts : List Lexeme} {s : Simple} :
      k ∈ Term.negations → Simple.Derived ts s → Term.Derived (⟨k, x⟩ :: ts) (.mk true s)

inductive Simple.Derived : List Lexeme → Simple → Prop
  | group {ts : List Lexeme} {f : List (List Term)} :
      InParens (Separated .andWord (Separated .orWord Term.Derived)) ts f →
      Simple.Derived ts (.group f)
  | test {ts : List Lexeme} {c : Comparable} : Comparable.Derived ts c → Simple.Derived ts (.test c)
  | compare {ts us : List Lexeme} {l : Comparable} {op : Comparison} {a : Arg} :
      Comparable.Derived ts l → Arg.Derived us a →
      Simple.Derived (ts ++ ⟨.comparison, op.symbol⟩ :: us) (.compare l op a)

inductive Comparable.Derived : List Lexeme → Comparable → Prop
  | plain {ts us : List Lexeme} {v : Value} {path : List Field} :
      v.Derived ts → Path.Derived us path → Comparable.Derived (ts ++ us) (.plain v path)
  | call {ts us vs : List Lexeme} {v : Value} {path : List Field} {args : List Arg} :
      v.Derived ts → Path.Derived us path →
      InParens (Optionally (Separated .comma Arg.Derived)) vs args →
      Comparable.Derived (ts ++ us ++ vs) (.call v path args)

inductive Arg.Derived : List Lexeme → Arg → Prop
  | group {ts : List Lexeme} {f : List (List Term)} :
      InParens (Separated .andWord (Separated .orWord Term.Derived)) ts f →
      Arg.Derived ts (.group f)
  | comparable {ts : List Lexeme} {c : Comparable} :
      Comparable.Derived ts c → Arg.Derived ts (.comparable c)

end

abbrev Clause.Derived : List Lexeme → Clause → Prop := Separated .orWord Term.Derived

abbrev Filter.Derived : List Lexeme → Filter → Prop := Separated .andWord Clause.Derived

abbrev Args.Derived : List Lexeme → List Arg → Prop :=
  Optionally (Separated .comma Arg.Derived)

/-! ## Depth -/

mutual

/-- How many parentheses stand open at once. -/
def Term.depth : Term → Nat
  | .mk _ body => body.depth

def Simple.depth : Simple → Nat
  | .group filter => Filter.depth filter + 1
  | .test operand => operand.depth
  | .compare left _ right => max left.depth right.depth

def Comparable.depth : Comparable → Nat
  | .plain _ _ => 0
  | .call _ _ args => Args.depth args + 1

def Arg.depth : Arg → Nat
  | .group filter => Filter.depth filter + 1
  | .comparable operand => operand.depth

def Args.depth : List Arg → Nat
  | [] => 0
  | arg :: r => max arg.depth (Args.depth r)

def Clause.depth : List Term → Nat
  | [] => 0
  | term :: r => max term.depth (Clause.depth r)

def Filter.depth : List (List Term) → Nat
  | [] => 0
  | clause :: r => max (Clause.depth clause) (Filter.depth r)

end

theorem Args.depth_le_iff {args : List Arg} {d : Nat} :
    Args.depth args ≤ d ↔ ∀ a ∈ args, a.depth ≤ d := by
  induction args with
  | nil => simp [Args.depth]
  | cons a r ih => simp [Args.depth, ih]

theorem Clause.depth_le_iff {c : Clause} {d : Nat} :
    Clause.depth c ≤ d ↔ ∀ t ∈ c, t.depth ≤ d := by
  induction c with
  | nil => simp [Clause.depth]
  | cons t r ih => simp [Clause.depth, ih]

theorem Filter.depth_le_iff {f : Filter} {d : Nat} :
    Filter.depth f ≤ d ↔ ∀ c ∈ f, Clause.depth c ≤ d := by
  induction f with
  | nil => simp [Filter.depth]
  | cons c r ih => simp [Filter.depth, ih]

end Sift
