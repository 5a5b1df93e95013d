import Sift.Value.Basic

/-!
# Filters

A filter is a conjunction of clauses, a clause a disjunction of terms: `OR` binds tighter than
`AND`, so `a AND b OR c` is `a AND (b OR c)`.
-/

namespace Sift

/-- A step of a dotted path. Keywords may stand here. -/
inductive Field where
  | value (v : Value)
  | keyword (text : String)
deriving DecidableEq

mutual

inductive Term where
  | mk (negated : Bool) (body : Simple)

inductive Simple where
  | group (filter : List (List Term))
  /-- An operand on its own, which asks for its truth. -/
  | test (operand : Comparable)
  | compare (left : Comparable) (op : Comparison) (right : Arg)

/-- A value with a dotted path, and with arguments if it is called. -/
inductive Comparable where
  | plain (value : Value) (path : List Field)
  | call (value : Value) (path : List Field) (args : List Arg)

inductive Arg where
  | group (filter : List (List Term))
  | comparable (operand : Comparable)

end

abbrev Clause := List Term

abbrev Filter := List Clause

namespace Field

def chars : Field → List Char
  | value v => v.chars
  | keyword text => text.toList

/-- A space follows the point before a number, which would otherwise be read as one with it. -/
def suffix : Field → List Char
  | value (.int n) => ['.', ' '] ++ (Value.int n).chars
  | value (.float x) => ['.', ' '] ++ (Value.float x).chars
  | f => '.' :: f.chars

def same : Field → Field → Bool
  | value v, value w => v.same w
  | keyword s, keyword t => s == t
  | _, _ => false

end Field

def Path.same : List Field → List Field → Bool
  | [], [] => true
  | f :: r, g :: r' => f.same g && Path.same r r'
  | _, _ => false

/-! ## Text -/

mutual

def Term.chars : Term → List Char
  | .mk negated body => (if negated then ['-'] else []) ++ body.chars

def Simple.chars : Simple → List Char
  | .group filter => ['('] ++ Filter.chars filter ++ [')']
  | .test operand => operand.chars
  | .compare left op right => left.chars ++ op.symbol.toList ++ right.chars

def Comparable.chars : Comparable → List Char
  | .plain value path => value.chars ++ path.flatMap Field.suffix
  | .call value path args =>
    value.chars ++ path.flatMap Field.suffix ++ ['('] ++ Args.chars args ++ [')']

def Arg.chars : Arg → List Char
  | .group filter => ['('] ++ Filter.chars filter ++ [')']
  | .comparable operand => operand.chars

def Args.chars : List Arg → List Char
  | [] => []
  | [arg] => arg.chars
  | arg :: r => arg.chars ++ [',', ' '] ++ Args.chars r

def Clause.chars : List Term → List Char
  | [] => []
  | [term] => term.chars
  | term :: r => term.chars ++ [' ', 'O', 'R', ' '] ++ Clause.chars r

def Filter.chars : List (List Term) → List Char
  | [] => []
  | [clause] => Clause.chars clause
  | clause :: r => Clause.chars clause ++ [' ', 'A', 'N', 'D', ' '] ++ Filter.chars r

end

/-- The canonical text: negation is a minus sign, and only groups have parentheses. -/
def Filter.render (f : Filter) : String := String.ofList (Filter.chars f)

/-! ## Sameness

Two trees are the same when they have one shape and the same values in it.
-/

mutual

def Term.same : Term → Term → Bool
  | .mk n s, .mk n' s' => n == n' && s.same s'

def Simple.same : Simple → Simple → Bool
  | .group f, .group f' => Filter.same f f'
  | .test c, .test c' => c.same c'
  | .compare l op r, .compare l' op' r' => l.same l' && op == op' && r.same r'
  | _, _ => false

def Comparable.same : Comparable → Comparable → Bool
  | .plain v p, .plain v' p' => v.same v' && Path.same p p'
  | .call v p as, .call v' p' as' => v.same v' && Path.same p p' && Args.same as as'
  | _, _ => false

def Arg.same : Arg → Arg → Bool
  | .group f, .group f' => Filter.same f f'
  | .comparable c, .comparable c' => c.same c'
  | _, _ => false

def Args.same : List Arg → List Arg → Bool
  | [], [] => true
  | a :: r, a' :: r' => a.same a' && Args.same r r'
  | _, _ => false

def Clause.same : List Term → List Term → Bool
  | [], [] => true
  | t :: r, t' :: r' => t.same t' && Clause.same r r'
  | _, _ => false

def Filter.same : List (List Term) → List (List Term) → Bool
  | [], [] => true
  | c :: r, c' :: r' => Clause.same c c' && Filter.same r r'
  | _, _ => false

end

end Sift
