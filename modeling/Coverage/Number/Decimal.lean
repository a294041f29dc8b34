import Coverage.Number.Binary64

/-!
# Decimal text of double precision numbers

The shortest decimal that reads back as the number, and the decimal with a fixed number of places.
-/

namespace Coverage.Decimal

/-- The digits of a natural number. -/
def digits (n : Nat) : List Char := Nat.toDigits 10 n

/-- Digits of at least `width`, zeros in front. -/
def padded (width n : Nat) : List Char :=
  List.replicate (width - (digits n).length) '0' ++ digits n

/-- `n` with a point before its last `places` digits. -/
def withPoint (places n : Nat) : List Char :=
  if places = 0 then digits n
  else digits (n / Nat.pow 10 places) ++ '.' :: padded places (n % Nat.pow 10 places)

/-- How many more times `num` must be multiplied by ten to reach `den`, at most `fuel`. -/
def tenfolds (den : Nat) : Nat → Nat → Nat
  | 0, _ => 0
  | fuel + 1, num => if den ≤ num then 0 else 1 + tenfolds den fuel (num * 10)

/-- The position of the point in `num / den = 0.ddd… * 10 ^ point`, for a positive quotient. -/
def pointOf (num den : Nat) : Int :=
  if den ≤ num then (digits (num / den)).length else 1 - (tenfolds den 400 num : Int)

/-- `num / den / 10 ^ e` as a quotient. -/
def scaled (num den : Nat) (e : Int) : Nat × Nat :=
  if 0 ≤ e then (num, den * Nat.pow 10 e.toNat) else (num * Nat.pow 10 (-e).toNat, den)

/-- A multiple of `10 ^ unit` next to `num / den` that reads back as `x`: the nearer of the two
neighbours, the even one if they are equally near. -/
def neighbour? (x : Binary64) (num den : Nat) (unit : Int) : Option Nat :=
  let (n, d) := scaled num den unit
  let c := n / d
  let below := Binary64.ofDecimal false c unit == x
  let above := Binary64.ofDecimal false (c + 1) unit == x
  match below, above with
  | true, true => some (roundDiv n d)
  | true, false => some c
  | false, true => some (c + 1)
  | false, false => none

/-- The first of the grids with `n`, `n + 1`, … digits that has a number which reads back as `x`. A
neighbour above `99…9` is a power of ten, and one digit writes it. -/
def search (x : Binary64) (num den : Nat) (point : Int) : Nat → Nat → Nat × Int
  | 0, n => (0, point - n)
  | fuel + 1, n =>
    match neighbour? x num den (point - n) with
    | some c => if c = Nat.pow 10 n then (1, point) else (c, point - n)
    | none => search x num den point fuel (n + 1)

/-- The digits and the exponent of the shortest decimal that reads back as `mantissa * 2 ^ exponent`. -/
def shortest (mantissa : Nat) (exponent : Int) : Nat × Int :=
  let (num, den) := Binary64.quotient mantissa exponent
  search (.finite false mantissa exponent) num den (pointOf num den) 17 1

/-- Numbers from `10 ^ -4` up to below `10 ^ 16` are written with a point, others with an exponent of at
least two digits. -/
def layout (ds : List Char) (point : Int) : List Char :=
  if -4 < point ∧ point ≤ 16 then
    if point ≤ 0 then '0' :: '.' :: (List.replicate (-point).toNat '0' ++ ds)
    else if ds.length ≤ point.toNat then ds ++ List.replicate (point.toNat - ds.length) '0' ++ ['.', '0']
    else ds.take point.toNat ++ '.' :: ds.drop point.toNat
  else
    let e := point - 1
    let front := match ds with
      | [d] => [d]
      | d :: rest => d :: '.' :: rest
      | [] => []
    front ++ 'e' :: (if e < 0 then '-' else '+') :: padded 2 e.natAbs

def signed (negative : Bool) (cs : List Char) : String :=
  String.ofList (if negative then '-' :: cs else cs)

/-- The shortest text that reads back as the number, always with a point or an exponent. -/
def text : Binary64 → String
  | .finite s 0 _ => signed s ['0', '.', '0']
  | .finite s m e =>
    let (d, e10) := shortest m e
    let ds := digits d
    signed s (layout ds (e10 + ds.length))
  | .infinite s => signed s ['i', 'n', 'f']
  | .nan => "nan"

/-- `|x| * 10 ^ places` rounded to an integer, a half going to the even neighbour. -/
def scaledRound (places mantissa : Nat) (exponent : Int) : Nat :=
  let (n, d) := Binary64.quotient mantissa exponent
  roundDiv (n * Nat.pow 10 places) d

/-- The text with `places` digits after the point. -/
def fixed (places : Nat) : Binary64 → String
  | .finite s m e => signed s (withPoint places (scaledRound places m e))
  | x => text x

/-- The number nearest to the decimal with `places` digits after the point. -/
def round (places : Nat) : Binary64 → Binary64
  | .finite s m e => .ofDecimal s (scaledRound places m e) (-(places : Int))
  | x => x

end Coverage.Decimal
