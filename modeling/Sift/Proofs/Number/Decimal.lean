import Mathlib.Algebra.Group.Int.Defs
import Mathlib.Algebra.Group.Nat.Defs
import Sift.Number.Decimal

/-!
# Reading back printed numbers

A magnitude is the nearest one to its own value, so that a finite number reads back from its decimal
text, and an integer does as well.
-/

namespace Sift

/-! ## The nearest magnitude -/

namespace Binary64

theorem roundHalfEven_mul {n den : Nat} (hden : 0 < den) : roundHalfEven (n * den) den = n := by
  simp [roundHalfEven, Nat.mul_div_cancel _ hden]
  omega

theorem unitsOf_of_lt {code : Nat} (h : code < 2 * fractionCount) : unitsOf code = code := by
  have hdiv : code / fractionCount < 2 := by
    rw [Nat.div_lt_iff_lt_mul (by decide)]
    exact h
  have he : code / fractionCount - 1 = 0 := by omega
  simp [unitsOf, he]

/-- A magnitude from the second power of two on has its full precision. -/
theorem exists_unitsOf {code : Nat} (h : 2 * fractionCount ≤ code) :
    ∃ e m, code = e * fractionCount + m ∧ fractionCount ≤ m ∧ m < 2 * fractionCount ∧
      unitsOf code = m * 2 ^ e := by
  have hpos : 0 < fractionCount := by decide
  have hmod := Nat.mod_lt code hpos
  have hdiv : 2 ≤ code / fractionCount := (Nat.le_div_iff_mul_le hpos).2 h
  have hcode := Nat.div_add_mod code fractionCount
  obtain ⟨e, he⟩ : ∃ e, code / fractionCount = e + 1 := ⟨code / fractionCount - 1, by omega⟩
  rw [he, Nat.mul_comm, Nat.add_mul] at hcode
  refine ⟨e, fractionCount + code % fractionCount, by omega, by omega, by omega, ?_⟩
  have hm : code - e * fractionCount = fractionCount + code % fractionCount := by omega
  simp only [unitsOf, he, Nat.add_sub_cancel, Nat.shiftLeft_eq, hm]

theorem log2_unitsOf (code : Nat) :
    ∃ e m, code = e * fractionCount + m ∧ unitsOf code = m * 2 ^ e ∧
      (unitsOf code).log2 - 52 = e := by
  have hcount : fractionCount = 2 ^ 52 := by decide
  by_cases h : code < 2 * fractionCount
  · refine ⟨0, code, by simp, by simp [unitsOf_of_lt h], ?_⟩
    rw [unitsOf_of_lt h]
    by_cases hzero : code = 0
    · simp [hzero]
    · have : code.log2 < 53 := (Nat.log2_lt hzero).2 (by omega)
      omega
  · obtain ⟨e, m, hcode, hle, hlt, hunits⟩ := exists_unitsOf (Nat.le_of_not_lt h)
    refine ⟨e, m, hcode, hunits, ?_⟩
    have hne : m * 2 ^ e ≠ 0 := by
      have := Nat.two_pow_pos e
      exact Nat.mul_ne_zero (by omega) (by omega)
    have hlog : (m * 2 ^ e).log2 = 52 + e := by
      refine (Nat.log2_eq_iff hne).2 ⟨?_, ?_⟩
      · rw [Nat.pow_add]
        exact Nat.mul_le_mul_right _ (by omega)
      · rw [show 52 + e + 1 = 53 + e by omega, Nat.pow_add]
        exact Nat.mul_lt_mul_of_pos_right (by omega) (Nat.two_pow_pos e)
    rw [hunits, hlog]
    omega

/-- A value that is a finite magnitude is its own nearest one. -/
theorem nearest_unitsOf {code num den : Nat} (hcode : code ≤ infinity) (hden : 0 < den)
    (h : num * one = unitsOf code * den) : nearest num den = code := by
  obtain ⟨e, m, hsplit, hunits, hlog⟩ := log2_unitsOf code
  have hdiv : num * one / den = unitsOf code := by rw [h, Nat.mul_div_cancel _ hden]
  have hround : roundHalfEven (num * one) (den <<< e) = m := by
    rw [h, hunits, Nat.shiftLeft_eq, Nat.mul_assoc, Nat.mul_comm (2 ^ e) den]
    exact roundHalfEven_mul (Nat.mul_pos hden (Nat.two_pow_pos e))
  simp only [nearest, hdiv, hlog, hround, ← hsplit]
  exact Nat.min_eq_right hcode

theorem ofRatio_eq {x : Binary64} {num den : Nat} (hneg : x.negative = false)
    (h : nearest num den = x.code.toNat) : ofRatio false num den = x := by
  obtain ⟨negative, code⟩ := x
  simp only at hneg h
  simp [ofRatio, h, hneg]

end Binary64

namespace Decimal

/-- One digit or more, and nothing else. -/
def IsDigits (s : List Char) : Prop := s ≠ [] ∧ ∀ c ∈ s, c.isDigit = true

theorem isDigits_toDigits (n : Nat) : IsDigits (Nat.toDigits 10 n) :=
  ⟨Nat.toDigits_ne_nil, fun _ hc => Nat.isDigit_of_mem_toDigits (by decide) (by decide) hc⟩

theorem natOfDigits?_of_isDigits {s : List Char} (h : IsDigits s) :
    natOfDigits? s = some (Nat.ofDigitChars 10 s 0) := by
  rw [natOfDigits?, if_pos ⟨h.1, List.all_eq_true.2 h.2⟩]

/-- A sign that says nothing. -/
def IsPlus (sign : List Char) : Prop := sign = [] ∨ sign = ['+']

theorem splitSign_append {sign s : List Char} (hsign : IsPlus sign)
    (hs : ∀ c ∈ s.head?, c ≠ '-' ∧ c ≠ '+') : splitSign (sign ++ s) = (false, s) := by
  rcases hsign with rfl | rfl
  · cases s with
    | nil => rfl
    | cons c s =>
        obtain ⟨hminus, hplus⟩ := hs c rfl
        simp only [List.nil_append]
        unfold splitSign
        split <;> simp_all
  · rfl

theorem isDigit_head {s : List Char} (h : ∀ c ∈ s, c.isDigit = true) :
    ∀ c ∈ s.head?, c ≠ '-' ∧ c ≠ '+' := by
  intro c hc
  have hdigit := h c (List.mem_of_mem_head? hc)
  constructor <;> (rintro rfl; exact absurd hdigit (by decide))

/-! ## Integers -/

/-- The number that an optional sign and digits stand for. -/
def intValue (s : List Char) : Int :=
  let (negative, digits) := splitSign s
  let n := Nat.ofDigitChars 10 digits 0
  if negative then -n else n

theorem intValue_append {sign digits : List Char} (hsign : IsPlus sign) (h : IsDigits digits) :
    intValue (sign ++ digits) = Nat.ofDigitChars 10 digits 0 := by
  simp [intValue, splitSign_append hsign (isDigit_head h.2)]

/-- Exactly the numbers of 64 bits are read. -/
theorem int64?_eq_some_iff {s : List Char} {n : Int64} :
    int64? s = some n ↔ IsDigits (splitSign s).2 ∧ n.toInt = intValue s := by
  have hbounds : Int64.minValue.toInt = -2 ^ 63 ∧ Int64.maxValue.toInt = 2 ^ 63 - 1 := by decide
  by_cases hd : IsDigits (splitSign s).2
  · have hvalue : int64? s = if -2 ^ 63 ≤ intValue s ∧ intValue s ≤ 2 ^ 63 - 1 then
        some (.ofInt (intValue s)) else none := by
      simp only [int64?, natOfDigits?_of_isDigits hd, hbounds, intValue]
      rfl
    rw [hvalue]
    simp only [hd, true_and]
    constructor
    · intro h
      split at h
      · next hrange =>
          cases h
          exact Int64.toInt_ofInt_of_le hrange.1 (by omega)
      · cases h
    · intro h
      have hle := n.le_toInt
      have hlt := n.toInt_lt
      rw [← h, if_pos ⟨hle, by omega⟩, Int64.ofInt_toInt]
  · have hnone : natOfDigits? (splitSign s).2 = none := by
      rw [natOfDigits?, if_neg]
      rintro ⟨hne, hall⟩
      exact hd ⟨hne, List.all_eq_true.1 hall⟩
    simp [int64?, hnone, hd]

theorem exists_int64?_iff {sign digits : List Char} (hsign : IsPlus sign) (h : IsDigits digits) :
    (∃ n, int64? (sign ++ digits) = some n) ↔ intValue (sign ++ digits) ≤ 2 ^ 63 - 1 := by
  simp only [int64?_eq_some_iff, splitSign_append hsign (isDigit_head h.2), h, true_and]
  constructor
  · rintro ⟨n, hn⟩
    have hlt := n.toInt_lt
    omega
  · intro hle
    rw [intValue_append hsign h] at hle ⊢
    exact ⟨.ofInt _, Int64.toInt_ofInt_of_le (by omega) (by omega)⟩

theorem intValue_nonneg {sign digits : List Char} (hsign : IsPlus sign) (h : IsDigits digits) :
    0 ≤ intValue (sign ++ digits) := by
  rw [intValue_append hsign h]
  exact Int.natCast_nonneg _

theorem ofInt64_of_nonneg {n : Int64} (hn : 0 ≤ n.toInt) :
    ofInt64 n = Nat.toDigits 10 n.toInt.natAbs := by
  simp [ofInt64, Int.not_lt.2 hn]

theorem int64?_ofInt64 {n : Int64} (hn : 0 ≤ n.toInt) : int64? (ofInt64 n) = some n := by
  have hd := isDigits_toDigits n.toInt.natAbs
  have hvalue := intValue_append (Or.inl rfl) hd
  have hsplit := splitSign_append (Or.inl rfl) (isDigit_head hd.2)
  rw [List.nil_append] at hvalue hsplit
  rw [ofInt64_of_nonneg hn, int64?_eq_some_iff, hsplit, hvalue, Nat.ofDigitChars_ten_toDigits]
  exact ⟨hd, by omega⟩

/-! ## Floating point -/

theorem ofDigitChars_append_eq (whole fraction : List Char) :
    Nat.ofDigitChars 10 (whole ++ fraction) 0 =
      Nat.ofDigitChars 10 whole 0 * 10 ^ fraction.length + Nat.ofDigitChars 10 fraction 0 := by
  rw [Nat.ofDigitChars_append, Nat.ofDigitChars_eq_ofDigitChars_zero, Nat.mul_comm]

theorem binary64?_append {sign whole fraction : List Char} (hsign : IsPlus sign)
    (hwhole : ∀ c ∈ whole, c.isDigit = true) (hfraction : IsDigits fraction) :
    binary64? (sign ++ (whole ++ '.' :: fraction)) =
      some (.ofRatio false (Nat.ofDigitChars 10 (whole ++ fraction) 0)
        (Nat.pow 10 fraction.length)) := by
  have hhead : ∀ c ∈ (whole ++ '.' :: fraction).head?, c ≠ '-' ∧ c ≠ '+' := by
    cases whole with
    | nil => simp
    | cons c whole => simpa using isDigit_head hwhole
  have hdot : Char.isDigit '.' = false := by decide
  have htake : (whole ++ '.' :: fraction).takeWhile Char.isDigit = whole := by
    rw [List.takeWhile_append_of_pos hwhole, List.takeWhile_cons_of_neg (by simp [hdot]),
      List.append_nil]
  have hdrop : (whole ++ '.' :: fraction).dropWhile Char.isDigit = '.' :: fraction := by
    rw [List.dropWhile_append_of_pos hwhole, List.dropWhile_cons_of_neg (by simp [hdot])]
  have hdigits : IsDigits (whole ++ fraction) := by
    refine ⟨by simp [hfraction.1], fun c hc => ?_⟩
    rcases List.mem_append.1 hc with hc | hc
    · exact hwhole c hc
    · exact hfraction.2 c hc
  simp only [binary64?, splitSign_append hsign hhead, htake, hdrop,
    natOfDigits?_of_isDigits hdigits]
  simp [hfraction.1]

theorem exists_fixed {n places : Nat} (hplaces : 0 < places) :
    ∃ whole fraction, fixed n places = whole ++ '.' :: fraction ∧ IsDigits whole ∧
      IsDigits fraction ∧ fraction.length = places ∧
        Nat.ofDigitChars 10 (whole ++ fraction) 0 = n := by
  have hlength : (Nat.toDigits 10 (n % 10 ^ places)).length ≤ places :=
    (Nat.length_toDigits_le_iff (by decide) hplaces).2 (Nat.mod_lt _ (Nat.pow_pos (by decide)))
  refine ⟨_, _, rfl, isDigits_toDigits _, ⟨by simp, fun c hc => ?_⟩, ?_, ?_⟩
  · rcases List.mem_append.1 hc with hc | hc
    · rw [(List.mem_replicate.1 hc).2]
      decide
    · exact (isDigits_toDigits _).2 c hc
  · simp only [List.length_append, List.length_replicate]
    exact Nat.sub_add_cancel hlength
  · rw [ofDigitChars_append_eq, Nat.ofDigitChars_append, Nat.ofDigitChars_replicate_zero]
    simp only [Nat.mul_zero, Nat.ofDigitChars_ten_toDigits, List.length_append,
      List.length_replicate]
    have hsub : places - (Nat.toDigits 10 (n % Nat.pow 10 places)).length +
        (Nat.toDigits 10 (n % Nat.pow 10 places)).length = places := Nat.sub_add_cancel hlength
    rw [hsub]
    exact Nat.div_add_mod' n (10 ^ places)

/-- A text of digits with a point among them that reads as `x`. -/
def Denotes (s : List Char) (x : Binary64) : Prop :=
  ∃ whole fraction, s = whole ++ '.' :: fraction ∧ IsDigits whole ∧ IsDigits fraction ∧
    binary64? s = some x

theorem denotes_of_nearest {whole fraction : List Char} {x : Binary64} (hwhole : IsDigits whole)
    (hfraction : IsDigits fraction) (hneg : x.negative = false)
    (h : Binary64.nearest (Nat.ofDigitChars 10 (whole ++ fraction) 0) (Nat.pow 10 fraction.length) =
      x.code.toNat) : Denotes (whole ++ '.' :: fraction) x := by
  refine ⟨whole, fraction, rfl, hwhole, hfraction, ?_⟩
  have hread := binary64?_append (Or.inl rfl) hwhole.2 hfraction
  rwa [Binary64.ofRatio_eq hneg h] at hread

theorem denotes_fixed {n places : Nat} {x : Binary64} (hplaces : 0 < places)
    (hneg : x.negative = false) (h : Binary64.nearest n (Nat.pow 10 places) = x.code.toNat) :
    Denotes (fixed n places) x := by
  obtain ⟨whole, fraction, he, hwhole, hfraction, hlength, hvalue⟩ := exists_fixed (n := n) hplaces
  rw [he]
  exact denotes_of_nearest hwhole hfraction hneg (by rwa [hlength, hvalue])

theorem nearest_of_candidate? {code places n : Nat} (h : candidate? code places = some n) :
    Binary64.nearest n (Nat.pow 10 places) = code := by
  simp only [candidate?] at h
  split at h
  · next hc =>
      cases h
      simp only [Bool.and_eq_true, decide_eq_true_eq] at hc
      exact hc.1
  · split at h
    · next hc =>
        cases h
        simpa using hc
    · cases h

/-- Units that are negative powers of two have as many places as the power. -/
theorem denotes_units {x : Binary64} {places : Nat} (hone : Binary64.one = 2 ^ places)
    (hplaces : 0 < places) (hcode : x.code.toNat ≤ Binary64.infinity) (hneg : x.negative = false) :
    Denotes (fixed (Binary64.unitsOf x.code.toNat * Nat.pow 5 places) places) x := by
  refine denotes_fixed hplaces hneg (Binary64.nearest_unitsOf hcode (Nat.pow_pos (by decide)) ?_)
  rw [hone, Nat.mul_assoc]
  exact congrArg _ (Nat.mul_pow 5 2 places).symm

theorem one_eq_pow : Binary64.one = 2 ^ maxPlaces := Nat.one_shiftLeft maxPlaces

theorem denotes_exact {x : Binary64} (hcode : x.code.toNat ≤ Binary64.infinity)
    (hneg : x.negative = false) : Denotes (exact x.code.toNat) x := by
  have hpos : 0 < maxPlaces := by decide
  unfold exact
  exact @denotes_units x maxPlaces one_eq_pow hpos hcode hneg

theorem denotes_shortest {x : Binary64} (hcode : x.code.toNat ≤ Binary64.infinity)
    (hneg : x.negative = false) : Denotes (shortest x.code.toNat) x := by
  unfold shortest
  cases hf : (List.range' 1 maxPlaces).findSome? fun p =>
      (candidate? x.code.toNat p).map (fixed · p) with
  | some s =>
      obtain ⟨p, hp, hs⟩ := List.exists_of_findSome?_eq_some hf
      obtain ⟨n, hn, rfl⟩ := Option.map_eq_some_iff.1 hs
      have hpos : 0 < p := by
        obtain ⟨i, -, rfl⟩ := List.mem_range'.1 hp
        omega
      rw [Option.getD_some]
      exact denotes_fixed hpos hneg (nearest_of_candidate? hn)
  | none =>
      rw [Option.getD_none]
      exact denotes_exact hcode hneg

theorem units_div_mul {x : Binary64} (h : x.isWhole = true) :
    x.units / Binary64.one * Binary64.one = x.units :=
  Nat.div_mul_cancel (Nat.dvd_of_mod_eq_zero (of_decide_eq_true h))

theorem denotes_whole {x : Binary64} {k : Nat} (hcode : x.code.toNat ≤ Binary64.infinity)
    (hneg : x.negative = false) (hk : k * Binary64.one = x.units) :
    Denotes (Nat.toDigits 10 k ++ ['.', '0']) x := by
  have hvalue : Nat.ofDigitChars 10 (Nat.toDigits 10 k ++ ['0']) 0 = k * 10 := by
    rw [ofDigitChars_append_eq, Nat.ofDigitChars_ten_toDigits]
    rfl
  have hten : Nat.pow 10 ['0'].length = 10 := by decide
  refine denotes_of_nearest (isDigits_toDigits k) ⟨by simp, by simp⟩ hneg ?_
  rw [hvalue, hten]
  refine Binary64.nearest_unitsOf hcode (by decide) ?_
  rw [Nat.mul_right_comm, hk, Binary64.units]

theorem denotes_magnitude {x : Binary64} (hfinite : x.isFinite = true) (hneg : x.negative = false) :
    Denotes (magnitude x) x := by
  have hcode : x.code.toNat ≤ Binary64.infinity := Nat.le_of_lt (of_decide_eq_true hfinite)
  rw [magnitude, if_pos hfinite]
  by_cases hwhole : x.isWhole = true
  · rw [if_pos hwhole]
    exact denotes_whole hcode hneg (units_div_mul hwhole)
  · rw [if_neg hwhole]
    exact denotes_shortest hcode hneg

/-- A finite number without a minus sign is written as digits around a point, which read back. -/
theorem denotes_ofBinary64 {x : Binary64} (hfinite : x.isFinite = true)
    (hneg : x.negative = false) : Denotes (ofBinary64 x) x := by
  have hnan : x.isNaN = false :=
    decide_eq_false (Nat.lt_asymm (of_decide_eq_true hfinite))
  have htext : ofBinary64 x = magnitude x := by
    rw [ofBinary64, hnan, hneg]
    rfl
  rw [htext]
  exact denotes_magnitude hfinite hneg

end Decimal

end Sift
