/-!
# 64-bit binary floating point

A number is a sign and a magnitude. Magnitudes are numbered from 0 in increasing order: first the
finite ones, which are multiples of `2^-1074`, then infinity, then those that are not numbers.
-/

namespace Sift

structure Binary64 where
  negative : Bool
  code : BitVec 63
deriving DecidableEq

namespace Binary64

/-- How many magnitudes there are from one power of two up to the next. -/
def fractionCount : Nat := 1 <<< 52

/-- The magnitude number of infinity. -/
def infinity : Nat := 2047 * fractionCount

/-- One, counted in the units in which every finite magnitude is whole. -/
def one : Nat := 1 <<< 1074

/-- The interchange format has the sign in the bit above the magnitude. -/
def ofBits (b : BitVec 64) : Binary64 := ⟨b.msb, b.truncate 63⟩

def toBits (x : Binary64) : BitVec 64 := BitVec.cons x.negative x.code

def zero : Binary64 := ⟨false, 0⟩

def isNaN (x : Binary64) : Bool := infinity < x.code.toNat

def isFinite (x : Binary64) : Bool := x.code.toNat < infinity

/-- The magnitude with number `code`, in units of `2^-1074`. -/
def unitsOf (code : Nat) : Nat :=
  let e := code / fractionCount - 1
  (code - e * fractionCount) <<< e

def units (x : Binary64) : Nat := unitsOf x.code.toNat

def isWhole (x : Binary64) : Bool := x.units % one = 0

/-- The whole number nearest to `num / den`, of two the even one. -/
def roundHalfEven (num den : Nat) : Nat :=
  let q := num / den
  let r := num % den
  if den < 2 * r ∨ (den = 2 * r ∧ q % 2 = 1) then q + 1 else q

/-- The number of the magnitude nearest to `num / den`, a tie to the even number. Between two powers
of two the magnitudes are evenly spaced, and rounding up past the last of them gives the first of
the next. -/
def nearest (num den : Nat) : Nat :=
  let e := (num * one / den).log2 - 52
  min infinity (e * fractionCount + roundHalfEven (num * one) (den <<< e))

/-- The number nearest to `num / den`. -/
def ofRatio (negative : Bool) (num den : Nat) : Binary64 := ⟨negative, .ofNat 63 (nearest num den)⟩

/-! ## Order

Zero has two signs and one place in the order. What is not a number has none. -/

def rank (x : Binary64) : Int := if x.negative then -x.code.toNat else x.code.toNat

def compare? (x y : Binary64) : Option Ordering :=
  if x.isNaN || y.isNaN then none else some (compare x.rank y.rank)

end Binary64

end Sift
