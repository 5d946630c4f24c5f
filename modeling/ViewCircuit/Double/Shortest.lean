import ViewCircuit.Double

/-! The shortest decimal that reads back to a double, and its text. -/
namespace ViewCircuit.Double

/-- A positive decimal `digits * 10 ^ scale`. -/
structure Decimal where
  digits : Nat
  scale : Int
  deriving DecidableEq, Repr

/-- The reals that round to a double, as integers over the common denominator `4 * 2 ^ k`. -/
structure Interval where
  low : Nat
  value : Nat
  high : Nat
  den : Nat
  closed : Bool

/-- Half-way points around a finite value. Below a power of two the gap is half as wide. -/
def interval (x : Double) : Interval :=
  let m := x.significand
  let q := x.exponent
  let narrow := x.magnitude.toNat % hidden = 0 ∧ 2 * hidden ≤ x.magnitude.toNat
  let up := 1 <<< q.toNat
  { low := (if narrow then 4 * m - 1 else 4 * m - 2) * up
    value := 4 * m * up
    high := (4 * m + 2) * up
    den := 4 <<< (-q).toNat
    closed := m % 2 = 0 }

/-- Whether `n * 10 ^ scale` lies in the interval. -/
def Interval.holds (i : Interval) (n : Nat) (scale : Int) : Bool :=
  let point := n * Nat.pow 10 scale.toNat * i.den
  let unit := Nat.pow 10 (-scale).toNat
  if i.closed then i.low * unit ≤ point && point ≤ i.high * unit
  else i.low * unit < point && point < i.high * unit

/-- Of the two grid points around the value, the one that reads back; the nearer if both do. -/
def Interval.hit? (i : Interval) (scale : Int) : Option Decimal :=
  let num := i.value * Nat.pow 10 (-scale).toNat
  let den := i.den * Nat.pow 10 scale.toNat
  let below := num / den
  let up := i.holds (below + 1) scale
  let down := 0 < below && i.holds below scale
  if up && (!down || den ≤ 2 * (num % den)) then some ⟨below + 1, scale⟩
  else if down then some ⟨below, scale⟩
  else none

/-- Decimal exponent of the leading digit of a positive finite double, within one. -/
def leading (i : Interval) : Int :=
  if i.den ≤ i.value then (decimalLength (i.value / i.den) : Int) - 1
  else -(decimalLength (i.den / i.value) : Int)

def dropZeros : Nat → Decimal → Decimal
  | 0, d => d
  | n + 1, d =>
    if d.digits % 10 = 0 ∧ d.digits ≠ 0 then dropZeros n ⟨d.digits / 10, d.scale + 1⟩ else d

/-- The first grid, from coarse to fine, with a point that reads back. -/
def shortest (x : Double) : Decimal :=
  let i := x.interval
  let scales := (List.range 20).map fun (n : Nat) => leading i + 1 - n
  dropZeros 20 ((scales.findSome? i.hit?).getD ⟨0, 0⟩)

/-- Digits with a point after the first, an exponent mark and the exponent. -/
def scientific (digits : List Char) (top : Int) : String :=
  let mantissa := match digits with
    | [] => "0"
    | [d] => d.toString
    | d :: rest => d.toString ++ "." ++ String.ofList rest
  mantissa ++ "e" ++ toString top

/-- Plain digits with at least one on both sides of the point. -/
def positional (digits : List Char) (top : Int) : String :=
  if top < 0 then "0." ++ String.ofList (List.replicate ((-top).toNat - 1) '0' ++ digits)
  else
    let n := top.toNat + 1
    let whole := digits.take n ++ List.replicate (n - digits.length) '0'
    let rest := digits.drop n
    String.ofList whole ++ "." ++ (if rest.isEmpty then "0" else String.ofList rest)

/-- Positional from a ten-thousandth up to ten to the sixteenth, scientific outside. -/
def positionalRange (top : Int) : Bool := -4 ≤ top && top < 16

def text (x : Double) : String :=
  let sign := if x.negative then "-" else ""
  if x.isNaN then "NaN"
  else if !x.isFinite then sign ++ "inf"
  else if x.isZero then sign ++ "0.0"
  else
    let d := x.shortest
    let digits := Nat.toDigits 10 d.digits
    let top := d.scale + digits.length - 1
    sign ++ if positionalRange top then positional digits top else scientific digits top

end ViewCircuit.Double
