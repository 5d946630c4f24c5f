/-! Binary64 numbers as a sign and 63 bits of magnitude, read exactly from decimals. -/
namespace ViewCircuit

/-- A binary64 number: its sign, and exponent and fraction as one word that grows with the value. -/
structure Double where
  negative : Bool
  magnitude : BitVec 63
  deriving DecidableEq, Repr

namespace Double

/-- The leading bit of a normal significand, which the magnitude word leaves out. -/
def hidden : Nat := 1 <<< 52

/-- The magnitude word of infinity; every larger word is not a number. -/
def infinity : Nat := 2047 <<< 52

def isFinite (x : Double) : Bool := x.magnitude.toNat < infinity
def isNaN (x : Double) : Bool := infinity < x.magnitude.toNat
def isZero (x : Double) : Bool := x.magnitude == 0

/-- Numeric equality: both zeros agree and a NaN differs from itself. -/
def numEq (x y : Double) : Bool :=
  !x.isNaN && !y.isNaN && ((x.isZero && y.isZero) || x == y)

instance : BEq Double := ⟨numEq⟩

/-- Integer significand of a finite value, which is `significand * 2 ^ exponent`. -/
def significand (x : Double) : Nat :=
  let fraction := x.magnitude.toNat % hidden
  if x.magnitude.toNat < hidden then fraction else fraction + hidden

def exponent (x : Double) : Int := (max (x.magnitude.toNat / hidden) 1 : Nat) - 1075

/-- The nearest integer to `num / den`; a half goes to the even neighbour. -/
def roundDiv (num den : Nat) : Nat :=
  let q := num / den
  let r := num % den
  if 2 * r < den then q else if den < 2 * r then q + 1 else q + q % 2

/-- Binary exponent of the last significand bit of a value near `num / den`. -/
def gridExponent (num den : Nat) : Int :=
  let k : Int := (num.log2 : Int) - (den.log2 : Int)
  let atLeast := if 0 ≤ k then den <<< k.toNat ≤ num else den ≤ num <<< (-k).toNat
  max (if atLeast then k - 52 else k - 53) (-1074)

/-- Magnitude word of the double nearest to `num / den`. A carry out of the significand moves the
exponent by itself, because the word is one number. -/
def wordOfRatio (num den : Nat) : Nat :=
  let q := gridExponent num den
  let n := if 0 ≤ q then roundDiv num (den <<< q.toNat) else roundDiv (num <<< (-q).toNat) den
  (q + 1074).toNat * hidden + n

def ofRatio? (negative : Bool) (num den : Nat) : Option Double :=
  if num = 0 then some ⟨negative, 0⟩
  else
    let word := wordOfRatio num den
    if word < infinity then some ⟨negative, BitVec.ofNat 63 word⟩ else none

def decimalLength (n : Nat) : Nat := (Nat.toDigits 10 n).length

/-- The double nearest to `digits * 10 ^ exponent`, or nothing when it is out of range. Exponents
far outside the range are settled by the number of digits, before any power is computed. -/
def ofDecimal? (negative : Bool) (digits : Nat) (exponent : Int) : Option Double :=
  let top : Int := decimalLength digits + exponent
  if digits = 0 ∨ top < -330 then some ⟨negative, 0⟩
  else if 310 < top then none
  else if 0 ≤ exponent then ofRatio? negative (digits * Nat.pow 10 exponent.toNat) 1
  else ofRatio? negative digits (Nat.pow 10 (-exponent).toNat)

/-- The double nearest to an integer of at most 64 bits. -/
def ofInt (i : Int) : Double := (ofRatio? (i < 0) i.natAbs 1).getD ⟨false, 0⟩

end Double
end ViewCircuit
