/-!
# Double precision numbers

Binary64 numbers with exact arithmetic: a finite number is an integer times a power of two, and every
operation is the exact rational result rounded once, to the nearest number with ties to even.
-/

namespace Coverage

/-- The quotient rounded to the nearest integer, a half going to the even neighbour. -/
def roundDiv (num den : Nat) : Nat :=
  let q := num / den
  let r := num % den
  if 2 * r < den || (2 * r == den && q % 2 == 0) then q else q + 1

/-- A binary64 number; a finite one is `± mantissa * 2 ^ exponent`. -/
inductive Binary64 where
  | finite (negative : Bool) (mantissa : Nat) (exponent : Int)
  | infinite (negative : Bool)
  | nan
  deriving DecidableEq, Repr

namespace Binary64

/-- Numbers have at most this many binary digits. -/
def precision : Nat := 53

/-- The least exponent of a number. -/
def minExponent : Int := -1074

/-- The greatest exponent of a finite number. -/
def maxExponent : Int := 971

instance : Inhabited Binary64 := ⟨nan⟩

/-- The exponent with which `num / den` has `precision` digits before the point, or the least one. -/
def exponentFor (num den : Nat) : Int :=
  let k : Int := (num.log2 : Int) - (den.log2 : Int) - 52
  let (n, d) := scaled num den k
  max minExponent (if n / d < Nat.pow 2 52 then k - 1 else k)
where
  /-- `num / den / 2 ^ e` as a quotient. -/
  scaled (num den : Nat) (e : Int) : Nat × Nat :=
    if 0 ≤ e then (num, den * Nat.pow 2 e.toNat) else (num * Nat.pow 2 (-e).toNat, den)

/-- The number nearest to `± num / den`. -/
def ofQuotient (negative : Bool) (num den : Nat) : Binary64 :=
  if num = 0 then finite negative 0 minExponent
  else
    let e := exponentFor num den
    let (n, d) := exponentFor.scaled num den e
    let m := roundDiv n d
    let (m, e) := if m = Nat.pow 2 precision then (Nat.pow 2 52, e + 1) else (m, e)
    if e > maxExponent then infinite negative else finite negative m e

/-- The absolute value of a finite number as a quotient. -/
def quotient (mantissa : Nat) (exponent : Int) : Nat × Nat :=
  if 0 ≤ exponent then (mantissa * Nat.pow 2 exponent.toNat, 1) else (mantissa, Nat.pow 2 (-exponent).toNat)

/-- The number nearest to `± digits * 10 ^ exponent`. Exponents far outside the range are decided without
computing the power. -/
def ofDecimal (negative : Bool) (digits : Nat) (exponent : Int) : Binary64 :=
  if digits = 0 then finite negative 0 minExponent
  else if exponent > 400 then infinite negative
  else if (digits.log2 : Int) + 4 * exponent < -4000 then finite negative 0 minExponent
  else if 0 ≤ exponent then ofQuotient negative (digits * Nat.pow 10 exponent.toNat) 1
  else ofQuotient negative digits (Nat.pow 10 (-exponent).toNat)

/-- The quotient of two integers; `none` if it is beyond the greatest number. The divisor is not zero. -/
def divInts? (a b : Int) : Option Binary64 :=
  match ofQuotient (decide (a < 0) != decide (b < 0)) a.natAbs b.natAbs with
  | infinite _ => none
  | x => some x

def ofInt (n : Int) : Binary64 := ofQuotient (decide (n < 0)) n.natAbs 1

/-- The product with a natural number that binary64 holds exactly. -/
def mulNat (x : Binary64) (k : Nat) : Binary64 :=
  match x with
  | finite s m e =>
    let (n, d) := quotient m e
    ofQuotient s (n * k) d
  | x => x

/-- The integer part, towards zero; `none` for infinities and NaN. -/
def toInt? : Binary64 → Option Int
  | finite s m e =>
    let (n, d) := quotient m e
    some (if s then -((n / d : Nat) : Int) else ((n / d : Nat) : Int))
  | _ => none

/-- Whether the number is an integer. -/
def isIntegral : Binary64 → Bool
  | finite _ m e => let (n, d) := quotient m e; n % d == 0
  | _ => false

def isZero : Binary64 → Bool
  | finite _ 0 _ => true
  | _ => false

/-- The interchange encoding: sign, biased exponent, mantissa. -/
def bits : Binary64 → Nat
  | finite s m e =>
    signBit s + if m < Nat.pow 2 52 then m else ((e - minExponent).toNat + 1) * Nat.pow 2 52 + (m - Nat.pow 2 52)
  | infinite s => signBit s + 2047 * Nat.pow 2 52
  | nan => 2047 * Nat.pow 2 52 + Nat.pow 2 51
where
  signBit (s : Bool) : Nat := if s then Nat.pow 2 63 else 0

end Binary64

end Coverage
