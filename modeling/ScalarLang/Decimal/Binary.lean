/-! Doubles as exact numbers. A finite double is a sign, a whole mantissa and a power of two,
read off its bits, so that every decimal text is computed in whole numbers. -/

namespace ScalarLang.Decimal

/-- The finite double `± mantissa · 2 ^ exponent`. -/
structure Dyadic where
  negative : Bool
  mantissa : Nat
  exponent : Int

/-- What a double stands for. -/
inductive Magnitude where
  | nan
  | infinite (negative : Bool)
  | finite (value : Dyadic)

/-- The least exponent of a double; numbers at this scale are evenly spaced down to zero. -/
def leastExponent : Int := -1074

def Magnitude.ofFloat (x : Float) : Magnitude :=
  let bits := x.toBits.toNat
  let negative := bits / Nat.pow 2 63 == 1
  let scale : Nat := bits / Nat.pow 2 52 % Nat.pow 2 11
  let fraction := bits % Nat.pow 2 52
  if scale = 2047 then
    if fraction = 0 then .infinite negative else .nan
  else if scale = 0 then
    .finite ⟨negative, fraction, leastExponent⟩
  else
    .finite ⟨negative, Nat.pow 2 52 + fraction, leastExponent + (scale - 1 : Nat)⟩

/-- `2 ^ e` as a quotient of whole numbers. -/
def powTwo (e : Int) : Nat × Nat := (Nat.pow 2 e.toNat, Nat.pow 2 (-e).toNat)

/-- `10 ^ e` as a quotient of whole numbers. -/
def powTen (e : Int) : Nat × Nat := (Nat.pow 10 e.toNat, Nat.pow 10 (-e).toNat)

/-- The number of decimal digits of `n`; zero has one. -/
def digitCount (n : Nat) : Nat := (Nat.toDigits 10 n).length

/-- The place of the decimal point of `num / den`: the least `p` with `num / den < 10 ^ p`. -/
def pointPlace (num den : Nat) : Int :=
  if den ≤ num then digitCount (num / den) else 1 - (digitCount ((den - 1) / num) : Int)

/-- The whole number nearest to `num / den`; a half goes to the even neighbour. -/
def roundHalfEven (num den : Nat) : Nat :=
  let quotient := num / den
  let twice := 2 * (num % den)
  if twice < den then quotient
  else if den < twice then quotient + 1
  else quotient + quotient % 2

end ScalarLang.Decimal
