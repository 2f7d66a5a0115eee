/-!
# Double-precision numbers, exactly

A finite double is a sign, a mantissa and a binary exponent, and everything here is
integer arithmetic on those: the double nearest to a ratio, the shortest decimal
that reads back as a given double, and truncation to a machine integer. A ratio too
large for any finite double has no nearest one.

In canonical form the mantissa has 53 bits, or the exponent is the least one.
-/
namespace StyleCascade

/-- The number `±mantissa · 2 ^ exponent`. -/
structure Binary64 where
  negative : Bool
  mantissa : Nat
  exponent : Int
deriving DecidableEq, Repr

namespace Binary64

/-- Mantissas stay below this bound. -/
def mantissaBound : Nat := 0x20000000000000

/-- The exponent of the least positive double. -/
def leastExponent : Int := -1074

/-- The exponent of the greatest finite double. -/
def greatestExponent : Int := 971

/-! ## Rounding -/

/-- The integer nearest to `num / den`; a half goes to the even neighbour. -/
def roundDiv (num den : Nat) : Nat :=
  let q := num / den
  let r := num % den
  if 2 * r < den then q
  else if den < 2 * r then q + 1
  else if q % 2 = 0 then q else q + 1

/-- The ratio `num / den` divided by `2 ^ e`, again as a ratio. -/
def dividedByPow (num den : Nat) (e : Int) : Nat × Nat :=
  if 0 ≤ e then (num, den * Nat.pow 2 e.toNat) else (num * Nat.pow 2 (-e).toNat, den)

/-- The greatest `l` with `2 ^ l ≤ num / den`, for a positive ratio. -/
def floorLog2 (num den : Nat) : Int :=
  let l : Int := (num.log2 : Int) - den.log2
  let (n, d) := dividedByPow num den l
  if d ≤ n then l else l - 1

/-- Mantissa and exponent of the double nearest to `num / den`, ties to the even
mantissa; `none` when that lies beyond the finite doubles. -/
def nearest (num den : Nat) : Option (Nat × Int) :=
  if num = 0 then some (0, leastExponent)
  else
    let e := max (floorLog2 num den - 52) leastExponent
    let (n, d) := dividedByPow num den e
    let m := roundDiv n d
    let (m, e) := if m = mantissaBound then (m / 2, e + 1) else (m, e)
    if greatestExponent < e then none else some (m, e)

/-- The double nearest to `±digits · 10 ^ exponent`. Decimals far outside the range
are settled without computing the power. -/
def ofDecimal (negative : Bool) (digits : Nat) (exponent : Int) : Option Binary64 :=
  if digits = 0 then some ⟨negative, 0, leastExponent⟩
  else if 400 < exponent then none
  else if exponent + digits.log2 / 3 + 1 < -400 then some ⟨negative, 0, leastExponent⟩
  else
    let ratio :=
      if 0 ≤ exponent then (digits * Nat.pow 10 exponent.toNat, 1)
      else (digits, Nat.pow 10 (-exponent).toNat)
    (nearest ratio.1 ratio.2).map fun (m, e) => ⟨negative, m, e⟩

/-! ## Values -/

/-- Whether two doubles are the same number; the two zeros are. -/
def same (x y : Binary64) : Bool :=
  x = y || (x.mantissa = 0 && y.mantissa = 0)

/-- The magnitude as a ratio of naturals. -/
def ratio (x : Binary64) : Nat × Nat :=
  if 0 ≤ x.exponent then (x.mantissa * Nat.pow 2 x.exponent.toNat, 1)
  else (x.mantissa, Nat.pow 2 (-x.exponent).toNat)

/-- The integer part, without the fraction. -/
def truncate (x : Binary64) : Int :=
  let magnitude : Int := x.ratio.1 / x.ratio.2
  if x.negative then -magnitude else magnitude

/-- The double nearest to an integer of at most 64 bits. -/
def ofInt (i : Int) : Binary64 :=
  match nearest i.natAbs 1 with
  | some (m, e) => ⟨decide (i < 0), m, e⟩
  | none => ⟨decide (i < 0), 0, leastExponent⟩

/-- The double nearest to a product. -/
def mul (x y : Binary64) : Option Binary64 :=
  (nearest (x.ratio.1 * y.ratio.1) (x.ratio.2 * y.ratio.2)).map fun (m, e) =>
    ⟨x.negative != y.negative, m, e⟩

/-- The double nearest to a quotient; there is none by zero. -/
def div (x y : Binary64) : Option Binary64 :=
  if y.mantissa = 0 then none
  else (nearest (x.ratio.1 * y.ratio.2) (x.ratio.2 * y.ratio.1)).map fun (m, e) =>
    ⟨x.negative != y.negative, m, e⟩

/-! ## Scaling by powers of ten -/

/-- The double nearest to `10 ^ k`. -/
def powTen (k : Nat) : Option Binary64 :=
  ofDecimal false 1 k

/-- The exponent of the greatest power of ten in the range of the finite doubles. -/
def greatestPowTen : Nat := 308

/-- A double times `10 ^ exponent`: the power is a double too, and the product or quotient
is rounded again. A divisor beyond the range of the doubles is taken in two steps, of which
the greatest leave zero of every number below `10 ^ 20`. Zero stays zero under any power. -/
def scaleByTen (x : Binary64) (exponent : Int) : Option Binary64 :=
  if x.mantissa = 0 then some x
  else if 0 ≤ exponent then do x.mul (← powTen exponent.toNat)
  else do
    let k := (-exponent).toNat
    let y ← x.div (← powTen (min k greatestPowTen))
    y.div (← powTen (min (k - greatestPowTen) greatestPowTen))

/-! ## Shortest decimal

The reals that round to a double form an interval around it, whose ends belong to
it when the mantissa is even. For one digit, two digits and so on, the two
neighbours of the double on that decimal grid are tried; the first grid with a
neighbour in the interval wins, the nearer neighbour of the two, and the even one
of a tie. Seventeen digits always suffice. -/

/-- Compares in quarter steps of the mantissa: `left` is a decimal with its scale
applied, `right` a number of quarters. -/
structure Grid where
  /-- What a decimal digit count is multiplied by. -/
  decimal : Nat
  /-- What a number of quarters is multiplied by. -/
  quarter : Nat

/-- The scale on which `c · 10 ^ p` and `q · 2 ^ (e - 2)` are both natural numbers. -/
def Grid.at (p e : Int) : Grid where
  decimal := Nat.pow 10 p.toNat * Nat.pow 2 (2 - e).toNat
  quarter := Nat.pow 2 (e - 2).toNat * Nat.pow 10 (-p).toNat

/-- The greatest `l` with `10 ^ l ≤ m · 2 ^ e`, for `0 < m`. -/
def floorLog10 (m : Nat) (e : Int) : Int :=
  let guess := ((m.log2 : Int) + e) * 30103 / 100000
  let atMost (p : Int) : Bool :=
    let g := Grid.at p e
    g.decimal ≤ 4 * m * g.quarter
  if atMost (guess + 1) then guess + 1 else if atMost guess then guess else guess - 1

/-- The neighbour of `m · 2 ^ e` among the multiples of `10 ^ p` that reads back as it. -/
def gridNeighbour (m : Nat) (e p : Int) : Option Nat :=
  let g := Grid.at p e
  let value := 4 * m * g.quarter
  let low := (4 * m - (if m = mantissaBound / 2 ∧ leastExponent < e then 1 else 2)) * g.quarter
  let high := (4 * m + 2) * g.quarter
  let inside (c : Nat) : Bool :=
    if m % 2 = 0 then low ≤ c * g.decimal && c * g.decimal ≤ high
    else low < c * g.decimal && c * g.decimal < high
  let c := value / g.decimal
  let below := value - c * g.decimal
  let above := (c + 1) * g.decimal - value
  match inside c, inside (c + 1) with
  | true, true =>
    if below < above then some c else if above < below then some (c + 1)
    else if c % 2 = 0 then some c else some (c + 1)
  | true, false => some c
  | false, true => some (c + 1)
  | false, false => none

/-- Drops factors of ten from `c`, counting them in `p`. -/
def withoutTrailingZeros : Nat → Nat → Int → Nat × Int
  | 0, c, p => (c, p)
  | count + 1, c, p => if c % 10 = 0 then withoutTrailingZeros count (c / 10) (p + 1) else (c, p)

/-- The shortest decimal `c · 10 ^ p` that reads back as `m · 2 ^ e`, for `0 < m`. -/
def shortest (m : Nat) (e : Int) : Nat × Int :=
  let top := floorLog10 m e
  let found := (List.range 17).findSome? fun (k : Nat) =>
    (gridNeighbour m e (top - k)).map fun c => (c, top - k)
  let (c, p) := found.getD (m, e)
  withoutTrailingZeros 17 c p

/-! ## Text

Decimal exponents from -5 to 15 are written in positional notation, always with a
fraction; the others as a digit, a fraction if there is one, and a signed exponent. -/

/-- The digits of a double in base ten and the exponent of the first of them. -/
def decimalDigits (x : Binary64) : List Char × Int :=
  let (c, p) := shortest x.mantissa x.exponent
  let digits := Nat.toDigits 10 c
  (digits, p + digits.length - 1)

/-- Digits `d₁d₂…`, the first of which has the decimal exponent `e`. -/
def positional (digits : List Char) (e : Int) : List Char :=
  if e < 0 then '0' :: '.' :: List.replicate (-e - 1).toNat '0' ++ digits
  else
    let whole := e.toNat + 1
    if digits.length ≤ whole then
      digits ++ List.replicate (whole - digits.length) '0' ++ ['.', '0']
    else digits.take whole ++ '.' :: digits.drop whole

def scientific (digits : List Char) (e : Int) : List Char :=
  let fraction := digits.drop 1
  let sign := if e < 0 then '-' else '+'
  digits.take 1 ++ (if fraction.isEmpty then [] else '.' :: fraction) ++
    'e' :: sign :: Nat.toDigits 10 e.natAbs

/-- The written form of a double. -/
def chars (x : Binary64) : List Char :=
  let magnitude :=
    if x.mantissa = 0 then ['0', '.', '0']
    else
      let (digits, e) := x.decimalDigits
      if -5 ≤ e ∧ e < 16 then positional digits e else scientific digits e
  if x.negative then '-' :: magnitude else magnitude

end Binary64
end StyleCascade
