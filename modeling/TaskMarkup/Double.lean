import TaskMarkup.Text.Decimal

namespace TaskMarkup

/-- The number `mantissa · 2 ^ exponent` with a sign, or what lies beyond all numbers. The mantissa
has as many bits as there are, unless the exponent is the least one; so no number is written in two
ways, but zero has a sign. -/
inductive Double
  | finite (negative : Bool) (mantissa : Nat) (exponent : Int)
  | infinite (negative : Bool)
  | nan
  deriving DecidableEq, Repr

namespace Double

def precision : Nat := 53

def minExponent : Int := -1074

def maxExponent : Int := 971

def zero (negative : Bool) : Double := .finite negative 0 minExponent

def isFinite : Double → Bool
  | .finite .. => true
  | .infinite _ | .nan => false

def nearest (n d : Nat) : Nat :=
  let q := n / d
  let r := 2 * (n % d)
  if r < d || (r = d && q % 2 = 0) then q else q + 1

def exponentOf (n d : Nat) : Int :=
  let e := max ((n.log2 : Int) - d.log2 - precision) minExponent
  if d <<< e.toNat <<< precision ≤ n <<< (-e).toNat then e + 1 else e

def ofQuotient (negative : Bool) (n d : Nat) : Double :=
  let e := exponentOf n d
  let m := nearest (n <<< (-e).toNat) (d <<< e.toNat)
  let (m, e) := if m = 1 <<< precision then (1 <<< (precision - 1), e + 1) else (m, e)
  if maxExponent < e then .infinite negative else .finite negative m e

/-- The double next to `digits · 10 ^ exponent`. Every number from `10 ^ 310` on is beyond the
doubles, and every one below `10 ^ -330` is next to zero. -/
def ofDecimal (negative : Bool) (digits : List Char) (exponent : Int) : Double :=
  let digits := digits.dropWhile (· = '0')
  let magnitude := digits.length + exponent
  if digits.isEmpty || magnitude < -330 then zero negative
  else if 310 < magnitude then .infinite negative
  else ofQuotient negative (Text.decimal digits * Nat.pow 10 exponent.toNat)
    (Nat.pow 10 (-exponent).toNat)

def round (bound : Nat) : Double → Nat
  | .finite true .. | .infinite true | .nan => 0
  | .infinite false => bound
  | .finite false m e =>
    if 0 ≤ e then min bound (m <<< e.toNat)
    else
      let unit := 1 <<< (-e).toNat
      min bound ((2 * m + unit) / (2 * unit))

end Double

end TaskMarkup
