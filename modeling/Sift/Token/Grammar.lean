import Sift.Token.Basic
import Sift.Token.Pattern
import Sift.Text.Ordered

/-!
# The token rules of the two languages

At every place the rules are tried in the order of their table and the first that applies wins,
even when a later rule would take more of the input: `trueish` is the word `true` before the name
`ish`, and `-1` is a minus sign before `1`.
-/

namespace Sift

/-- A kind of token and the texts it may have. No rule takes the empty text. -/
structure Rule where
  kind : Kind
  pattern : Pattern
  proper : pattern.nullable = false

namespace Rule

def read (r : Rule) (s : List Char) : Option (List Char × List Char) := r.pattern.longest s

theorem append_of_read {r : Rule} {s w rest : List Char} (h : r.read s = some (w, rest)) :
    w ++ rest = s :=
  Pattern.append_of_longest h

theorem ne_nil_of_read {r : Rule} {s w rest : List Char} (h : r.read s = some (w, rest)) :
    w ≠ [] :=
  Pattern.ne_nil_of_longest r.proper h

end Rule

/-- The two languages. -/
inductive Grammar where
  | filter
  | orderBy
deriving DecidableEq

namespace Grammar

def isSpace (c : Char) : Bool :=
  c == '\t' || c == '\n' || c == '\x0c' || c == '\r' || c == ' '

def isLetter (c : Char) : Bool := c.isAlpha || c == '_'

def isSign (c : Char) : Bool := c == '-' || c == '+'

open Pattern

def space : Rule := ⟨.space, plus (char isSpace), rfl⟩

def ident : Rule :=
  ⟨.ident, seq (char isLetter) (star (char fun c => isLetter c || c.isDigit)), rfl⟩

/-- Digits after the point are required, those before it are not. -/
def float : Rule :=
  ⟨.float,
    seq (optional (char isSign))
      (seq (star (char Char.isDigit)) (seq (exactly '.') (plus (char Char.isDigit)))), rfl⟩

def int : Rule := ⟨.int, seq (optional (char isSign)) (plus (char Char.isDigit)), rfl⟩

/-- Text between two quotes of one sort. There is no escape for a quote. -/
def quotedBy (q : Char) : Pattern := seq (exactly q) (seq (star (char (· != q))) (exactly q))

def rules : Grammar → List Rule
  | filter => [
      space,
      ⟨.andWord, word ['A', 'N', 'D'], rfl⟩,
      ⟨.orWord, word ['O', 'R'], rfl⟩,
      ⟨.notWord, word ['N', 'O', 'T'], rfl⟩,
      ⟨.openParen, exactly '(', rfl⟩,
      ⟨.closeParen, exactly ')', rfl⟩,
      ⟨.minus, exactly '-', rfl⟩,
      ⟨.comparison, oneOf [['!', '='], ['>', '='], ['<', '='], ['>'], ['<'], ['='], [':']], rfl⟩,
      ⟨.trueWord, word ['t', 'r', 'u', 'e'], rfl⟩,
      ⟨.falseWord, word ['f', 'a', 'l', 's', 'e'], rfl⟩,
      ident,
      float,
      int,
      ⟨.star, exactly '*', rfl⟩,
      ⟨.string, alt (quotedBy '\'') (quotedBy '"'), rfl⟩,
      ⟨.comma, exactly ',', rfl⟩,
      ⟨.dot, exactly '.', rfl⟩]
  | orderBy => [
      space,
      ⟨.descWord, word ['d', 'e', 's', 'c'], rfl⟩,
      ident,
      ⟨.dot, exactly '.', rfl⟩,
      ⟨.comma, exactly ',', rfl⟩]

/-- The kinds of token in the order their rules are tried. -/
def kinds (g : Grammar) : List Kind := g.rules.map Rule.kind

/-- The number of each kind, by increasing name: the end of input is `-1`, and the kinds count down
from `-2` in the order of their rules. -/
def symbols (g : Grammar) : List (String × Int) :=
  (g.kinds.zipIdx.map fun (k, i) => (k.name, -((i : Int) + 2))).foldl
    (fun table entry => Text.insertBy Prod.fst entry table) [(Kind.eof.name, -1)]

def symbol? (g : Grammar) (k : Kind) : Option Int := g.symbols.lookup k.name

/-- The kind and text of the first token of `s`, and what follows it. -/
def split? (g : Grammar) (s : List Char) : Option (Kind × List Char × List Char) :=
  g.rules.findSome? fun r => (r.read s).map fun (w, rest) => (r.kind, w, rest)

theorem append_of_split? {g : Grammar} {s w rest : List Char} {k : Kind}
    (h : g.split? s = some (k, w, rest)) : w ++ rest = s := by
  obtain ⟨r, -, hr⟩ := List.exists_of_findSome?_eq_some h
  obtain ⟨⟨w', rest'⟩, hw, he⟩ := Option.map_eq_some_iff.1 hr
  cases he
  exact Rule.append_of_read hw

theorem ne_nil_of_split? {g : Grammar} {s w rest : List Char} {k : Kind}
    (h : g.split? s = some (k, w, rest)) : w ≠ [] := by
  obtain ⟨r, -, hr⟩ := List.exists_of_findSome?_eq_some h
  obtain ⟨⟨w', rest'⟩, hw, he⟩ := Option.map_eq_some_iff.1 hr
  cases he
  exact Rule.ne_nil_of_read hw

theorem length_lt_of_split? {g : Grammar} {s w rest : List Char} {k : Kind}
    (h : g.split? s = some (k, w, rest)) : rest.length < s.length := by
  have hw := List.length_pos_iff.2 (ne_nil_of_split? h)
  have := congrArg List.length (append_of_split? h)
  simp only [List.length_append] at this
  omega

end Grammar

end Sift
