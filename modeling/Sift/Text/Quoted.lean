import Sift.Text.Hidden

/-!
# Quoted text

Messages show a piece of input between double quotes. A quote or a backslash is written after a
backslash, the usual control characters by their letter, and every other hidden character by its
code point in hexadecimal.
-/

namespace Sift.Text

/-- How `c` is written inside the quotes. -/
def escape (c : Char) : List Char :=
  match c with
  | '"' => ['\\', '"']
  | '\\' => ['\\', '\\']
  | '\t' => ['\\', 't']
  | '\n' => ['\\', 'n']
  | '\r' => ['\\', 'r']
  | '\x00' => ['\\', '0']
  | c =>
    if isHidden c then ['\\', 'u', '\x7b'] ++ Nat.toDigits 16 c.toNat ++ ['\x7d'] else [c]

def quoted (s : String) : String :=
  String.ofList (['"'] ++ s.toList.flatMap escape ++ ['"'])

end Sift.Text
