set_option autoImplicit false

/-!
# Decimals and 64-bit floating point numbers

A decimal is rounded to the nearest 64-bit floating point number, a tie to the one with
the even mantissa, and such a number is written as the shortest decimal that rounds to it.
Both are exact: everything is a quotient of natural numbers.
-/

namespace HostSheet.Decimal

/-- A positive factor as a quotient: `base ^ exponent`. -/
def power (base : Nat) (exponent : Int) : Nat × Nat :=
  if 0 ≤ exponent then (Nat.pow base exponent.toNat, 1) else (1, Nat.pow base (-exponent).toNat)

/-- The natural number nearest to `n / d`, a tie to the even one. -/
def roundHalfEven (n d : Nat) : Nat :=
  let low := n / d
  if 2 * (n % d) < d then low
  else if d < 2 * (n % d) then low + 1
  else low + low % 2

/-- A floating point number without its sign: `mantissa * 2 ^ exponent`.  The mantissa has
53 bits, or fewer at the least exponent. -/
structure Binary64 where
  mantissa : Nat
  exponent : Int
  deriving DecidableEq, Repr

namespace Binary64

/-- The highest of the 53 bits of a mantissa. -/
def highestBit : Nat := 0x10000000000000

def leastExponent : Int := -1074

def greatestExponent : Int := 971

def zero : Binary64 := ⟨0, leastExponent⟩

/-- The exponent `e` with `2 ^ e ≤ n / d < 2 ^ (e + 1)`, for positive `n` and `d`. -/
def exponentOf (n d : Nat) : Int :=
  let e : Int := n.log2 - d.log2
  let p := power 2 e
  if d * p.1 ≤ n * p.2 then e else e - 1

/-- The number nearest to `n / d`, or nothing if it is too large. -/
def ofQuotient? (n d : Nat) : Option Binary64 :=
  if n = 0 then some zero
  else
    let q := max (exponentOf n d - 52) leastExponent
    let p := power 2 q
    let m := roundHalfEven (n * p.2) (d * p.1)
    let x : Binary64 := if m = 2 * highestBit then ⟨highestBit, q + 1⟩ else ⟨m, q⟩
    if x.exponent ≤ greatestExponent then some x else none

/-- The number nearest to `digits * 10 ^ exponent`.  Exponents far beyond the range are
told apart first, so that no huge power is built for them. -/
def ofDecimal? (digits : Nat) (exponent : Int) : Option Binary64 :=
  let size : Int := (Nat.toDigits 10 digits).length
  if digits = 0 then some zero
  else if size + exponent < -400 then some zero
  else if 400 < size + exponent then none
  else
    let p := power 10 exponent
    ofQuotient? (digits * p.1) p.2

/-- The multiple of `10 ^ k` nearest to a positive number among those that round to it, in
units of `10 ^ k`; of two equally near the greater.  The numbers that round to `m * 2 ^ q`
reach halfway to its neighbours, and the lower neighbour of a power of two is nearer by
half. -/
def onGrid? (x : Binary64) (k : Int) : Option Nat :=
  let unit := power 2 (x.exponent - 2)
  let grid := power 10 k
  let a := unit.1 * grid.2
  let b := grid.1 * unit.2
  let value := 4 * x.mantissa * a
  let below := if x.mantissa = highestBit ∧ leastExponent < x.exponent then 1 else 2
  let low := (4 * x.mantissa - below) * a
  let high := (4 * x.mantissa + 2) * a
  let closed := x.mantissa % 2 = 0
  let hits (c : Nat) : Bool :=
    0 < c ∧ (low < c * b ∨ (closed ∧ low = c * b)) ∧
      (c * b < high ∨ (closed ∧ c * b = high))
  let c := value / b
  match hits c, hits (c + 1) with
  | true, true => some (if value - c * b < (c + 1) * b - value then c else c + 1)
  | true, false => some c
  | false, true => some (c + 1)
  | false, false => none

/-- The shortest decimal that rounds to a number: its digits and its exponent.  The
coarsest grid with a decimal on it that rounds to the number gives the fewest digits.
Zero lies on every grid, so no grid is the coarsest for it. -/
def shortest? (x : Binary64) : Option (Nat × Int) :=
  if x.mantissa = 0 then none
  else
    (List.range 653).findSome? fun (i : Nat) =>
      let k : Int := 309 - i
      (x.onGrid? k).map fun c => (c, k)

end Binary64

/-- A decimal in positional notation, with at least one digit on each side of the point. -/
def positional (digits : Nat) (exponent : Int) : List Char :=
  let ds := Nat.toDigits 10 digits
  if 0 ≤ exponent then ds ++ List.replicate exponent.toNat '0' ++ ['.', '0']
  else
    let places := (-exponent).toNat
    let ds := List.replicate (places + 1 - ds.length) '0' ++ ds
    ds.take (ds.length - places) ++ '.' :: ds.drop (ds.length - places)

/-- The shortest positional text of a number, with a digit on each side of the point. -/
def Binary64.text (x : Binary64) : List Char :=
  match x.shortest? with
  | some (digits, exponent) => positional digits exponent
  | none => ['0', '.', '0']

end HostSheet.Decimal
