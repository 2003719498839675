import ScalarLang.Decimal.Binary

/-! The shortest decimal of a double: the fewest digits that read back as the same double, and of
those the nearest. All comparisons are between whole numbers. -/

namespace ScalarLang.Decimal

/-- The decimal `digits · 10 ^ exponent`. -/
structure Scaled where
  digits : Nat
  exponent : Int

/-- Drops trailing zeros, at most `bound` of them. -/
def Scaled.strip : (bound : Nat) → Scaled → Scaled
  | 0, s => s
  | bound + 1, s =>
    if s.digits ≠ 0 ∧ s.digits % 10 = 0 then strip bound ⟨s.digits / 10, s.exponent + 1⟩ else s

/-- The place of the decimal point, counted from the first digit. -/
def Scaled.point (s : Scaled) : Int := digitCount s.digits + s.exponent

/-- The reals that round to a double, in quarters of its unit in the last place: the double is
`4 · mantissa`, the interval reaches `below` down and `2` up, and holds its ends iff `closed`. -/
structure Interval where
  centre : Nat
  below : Nat
  closed : Bool

/-- The spacing halves below a power of two, so the interval is narrower on that side. -/
def Interval.ofDyadic (d : Dyadic) : Interval where
  centre := 4 * d.mantissa
  below := if d.mantissa = Nat.pow 2 52 ∧ d.exponent ≠ leastExponent then 1 else 2
  closed := d.mantissa % 2 == 0

/-- Whether `c / unit`, in quarters, lies in the interval. -/
def Interval.holds (i : Interval) (unit c : Nat) : Bool :=
  let low := (i.centre - i.below) * unit
  let high := (i.centre + 2) * unit
  if i.closed then low ≤ c && c ≤ high else low < c && c < high

/-- The decimal with `count` digits that reads back as `d`, if there is one: the nearer of the two
neighbours of `d` on that grid, the upper one if both are equally near. -/
def onGrid (d : Dyadic) (point : Int) (count : Nat) : Option Scaled :=
  let interval := Interval.ofDyadic d
  let grid := point - count
  let quarter := powTwo (d.exponent - 2)
  let step := powTen grid
  let unit := quarter.1 * step.2
  let size := step.1 * quarter.2
  let below := interval.centre * unit / size
  let low := below * size
  let high := (below + 1) * size
  let exact := interval.centre * unit
  match interval.holds unit low, interval.holds unit high with
  | true, true => if exact - low < high - exact then some ⟨below, grid⟩ else some ⟨below + 1, grid⟩
  | true, false => some ⟨below, grid⟩
  | false, true => some ⟨below + 1, grid⟩
  | false, false => none

/-- Seventeen digits always suffice for a double. -/
def maxDigits : Nat := 17

def shortest (d : Dyadic) : Scaled :=
  if d.mantissa = 0 then ⟨0, 0⟩ else
    let value := powTwo d.exponent
    let point := pointPlace (d.mantissa * value.1) value.2
    let found := (List.range maxDigits).findSome? fun k => onGrid d point (k + 1)
    (found.getD ⟨0, 0⟩).strip maxDigits

end ScalarLang.Decimal
