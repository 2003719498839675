import ScalarLang.Decimal.Shortest

/-! Decimal texts of doubles. A `Style` fixes the choices of a shortest text; `fixed` and
`mantissaForm` write a given number of places of the exact value. -/

namespace ScalarLang.Decimal

/-- The choices that a shortest text leaves open. -/
structure Style where
  /-- Whole numbers are written with a fraction `.0`. -/
  fraction : Bool
  /-- Whether a number with this place of the decimal point is written with an exponent. -/
  exponential : Int → Bool

def zeros (n : Nat) : String := String.ofList (List.replicate n '0')

def signText (negative : Bool) : String := if negative then "-" else ""

/-- `digits` with the decimal point after the first `place` of them. -/
def insertPoint (digits : String) (place : Nat) : String :=
  String.ofList (digits.toList.take place) ++ "." ++ String.ofList (digits.toList.drop place)

def Scaled.positional (s : Scaled) (fraction : Bool) : String :=
  let digits := toString s.digits
  if 0 ≤ s.exponent then
    digits ++ zeros s.exponent.toNat ++ (if fraction then ".0" else "")
  else if s.point ≤ 0 then
    "0." ++ zeros (-s.point).toNat ++ digits
  else
    insertPoint digits s.point.toNat

def Scaled.scientific (s : Scaled) : String :=
  let digits := toString s.digits
  let mantissa := if digits.length = 1 then digits else insertPoint digits 1
  mantissa ++ "e" ++ toString (s.point - 1)

/-- The text of a double that is not finite. -/
def infiniteText (negative : Bool) : String := signText negative ++ "inf"

/-- The shortest text that reads back as `x`. -/
def Style.write (style : Style) (x : Float) : String :=
  match Magnitude.ofFloat x with
  | .nan => "NaN"
  | .infinite negative => infiniteText negative
  | .finite d =>
    let s := shortest d
    let text :=
      if d.mantissa ≠ 0 ∧ style.exponential s.point then s.scientific
      else s.positional style.fraction
    signText d.negative ++ text

/-- `digits` as at least `width` characters, filled up with zeros on the left. -/
def padZeros (width : Nat) (digits : String) : String := zeros (width - digits.length) ++ digits

/-- The exact value of `x` with `places` decimals; a half goes to the even neighbour. -/
def fixed (places : Nat) (x : Float) : String :=
  match Magnitude.ofFloat x with
  | .nan => "NaN"
  | .infinite negative => infiniteText negative
  | .finite d =>
    let value := powTwo d.exponent
    let units := roundHalfEven (d.mantissa * value.1 * Nat.pow 10 places) value.2
    let digits := padZeros (places + 1) (toString units)
    signText d.negative ++ insertPoint digits (digits.length - places)

/-- The exact value of `d` as a mantissa below ten with `places` decimals and its exponent. -/
def mantissaForm (places : Nat) (d : Dyadic) : String × Int :=
  if d.mantissa = 0 then (insertPoint (zeros (places + 1)) 1, 0) else
    let value := powTwo d.exponent
    let num := d.mantissa * value.1
    let point := pointPlace num value.2
    let scale := powTen (places + 1 - point)
    let units := roundHalfEven (num * scale.1) (value.2 * scale.2)
    -- rounding may carry into one more digit
    let digits := toString units
    let point := if digits.length = places + 1 then point else point + 1
    (insertPoint (String.ofList (digits.toList.take (places + 1))) 1, point - 1)

end ScalarLang.Decimal
