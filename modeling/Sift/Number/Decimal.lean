import Sift.Number.Binary64

/-!
# Decimal text of numbers

Numbers are read from an optional sign and digits, without an exponent. Whole numbers are written
with all their digits; any other number with the fewest digits after the point that read back as the
same number, and with those nearest to it.
-/

namespace Sift.Decimal

/-- Whether a minus sign stands first, and the text without its sign. -/
def splitSign : List Char → Bool × List Char
  | '-' :: r => (true, r)
  | '+' :: r => (false, r)
  | s => (false, s)

def natOfDigits? (s : List Char) : Option Nat :=
  if s ≠ [] ∧ s.all Char.isDigit then some (Nat.ofDigitChars 10 s 0) else none

/-! ## Integers -/

def int64? (s : List Char) : Option Int64 := do
  let (negative, digits) := splitSign s
  let n ← natOfDigits? digits
  let z : Int := if negative then -n else n
  if Int64.minValue.toInt ≤ z ∧ z ≤ Int64.maxValue.toInt then some (.ofInt z) else none

def ofInt64 (n : Int64) : List Char :=
  (if n.toInt < 0 then ['-'] else []) ++ Nat.toDigits 10 n.toInt.natAbs

/-! ## Floating point -/

/-- Reads digits with a point before the last of them. -/
def binary64? (s : List Char) : Option Binary64 := do
  let (negative, body) := splitSign s
  let whole := body.takeWhile Char.isDigit
  match body.dropWhile Char.isDigit with
  | '.' :: fraction =>
    let n ← natOfDigits? (whole ++ fraction)
    if fraction = [] then none else some (.ofRatio negative n (Nat.pow 10 fraction.length))
  | _ => none

/-- The text of `n / 10^places`, with at least one digit before the point and `places` after it. -/
def fixed (n places : Nat) : List Char :=
  let fraction := Nat.toDigits 10 (n % Nat.pow 10 places)
  Nat.toDigits 10 (n / Nat.pow 10 places) ++ '.' ::
    (List.replicate (places - fraction.length) '0' ++ fraction)

/-- The multiple of `10^-places` nearest to the magnitude with number `code` among those that read
back as it. Of two equally near the greater. -/
def candidate? (code places : Nat) : Option Nat :=
  let scaled := Binary64.unitsOf code * Nat.pow 10 places
  let below := scaled / Binary64.one
  let readsBack (n : Nat) : Bool := Binary64.nearest n (Nat.pow 10 places) = code
  let belowIsNearer : Bool := 2 * (scaled % Binary64.one) < Binary64.one
  if readsBack below && (belowIsNearer || !readsBack (below + 1)) then some below
  else if readsBack (below + 1) then some (below + 1)
  else none

/-- Places enough to write every magnitude exactly. -/
def maxPlaces : Nat := 1074

def exact (code : Nat) : List Char :=
  fixed (Binary64.unitsOf code * Nat.pow 5 maxPlaces) maxPlaces

/-- The fewest places after the point, at least one, on which a candidate lies. -/
def shortest (code : Nat) : List Char :=
  ((List.range' 1 maxPlaces).findSome? fun p => (candidate? code p).map (fixed · p)).getD
    (exact code)

def magnitude (x : Binary64) : List Char :=
  if x.isFinite then
    if x.isWhole then Nat.toDigits 10 (x.units / Binary64.one) ++ ['.', '0']
    else shortest x.code.toNat
  else ['i', 'n', 'f']

def ofBinary64 (x : Binary64) : List Char :=
  if x.isNaN then ['N', 'a', 'N'] else (if x.negative then ['-'] else []) ++ magnitude x

end Sift.Decimal
