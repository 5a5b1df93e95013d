/-!
# JSON

What the commands print.
-/

namespace Sift

inductive Json where
  | null
  | int (n : Int)
  | string (s : String)
  | array (items : List Json)
  /-- Members in the order given. -/
  | object (members : List (String × Json))

namespace Json

/-- How `c` is written within quotes. Control characters without a letter of their own are written
by their code. -/
def escape (c : Char) : List Char :=
  match c with
  | '"' => ['\\', '"']
  | '\\' => ['\\', '\\']
  | '\x08' => ['\\', 'b']
  | '\x0c' => ['\\', 'f']
  | '\n' => ['\\', 'n']
  | '\r' => ['\\', 'r']
  | '\t' => ['\\', 't']
  | c =>
    if c.toNat < 32 then
      let digits := Nat.toDigits 16 c.toNat
      ['\\', 'u'] ++ List.replicate (4 - digits.length) '0' ++ digits
    else [c]

def quoted (s : String) : String :=
  String.ofList (['"'] ++ s.toList.flatMap escape ++ ['"'])

/-- A line break and the indent of the level. -/
def newline (level : Nat) : String := String.ofList ('\n' :: List.replicate (2 * level) ' ')

mutual

/-- The value over several lines, two spaces a level, in pieces. -/
def pieces (level : Nat) : Json → List String
  | null => ["null"]
  | int n => [toString n]
  | string s => [quoted s]
  | array [] => ["[]"]
  | array (item :: r) =>
    ["[", newline (level + 1)] ++ pieces (level + 1) item ++ itemPieces (level + 1) r ++
      [newline level, "]"]
  | object [] => ["\x7b\x7d"]
  | object (member :: r) =>
    ["\x7b", newline (level + 1)] ++ memberPieces (level + 1) member ++
      membersPieces (level + 1) r ++ [newline level, "\x7d"]

/-- The items after the first. -/
def itemPieces (level : Nat) : List Json → List String
  | [] => []
  | item :: r => [",", newline level] ++ pieces level item ++ itemPieces level r

def memberPieces (level : Nat) : String × Json → List String
  | (key, value) => [quoted key, ": "] ++ pieces level value

/-- The members after the first. -/
def membersPieces (level : Nat) : List (String × Json) → List String
  | [] => []
  | member :: r => [",", newline level] ++ memberPieces level member ++ membersPieces level r

end

def render (j : Json) : String := .join (pieces 0 j)

end Json

end Sift
