import TaskMarkup.Double

namespace TaskMarkup.Double

def exactDecimal (m : Nat) (e : Int) : List Char × Int :=
  if 0 ≤ e then (Nat.toDigits 10 (m <<< e.toNat), 0)
  else (Nat.toDigits 10 (m * Nat.pow 5 (-e).toNat), e)

def neighbours (n : Nat) (digits : List Char) : List (List Char) :=
  let below := digits.take n
  let above := Nat.toDigits 10 (Text.decimal below + 1)
  match digits.drop n with
  | [] => [below]
  | d :: _ => if '5' ≤ d then [above, below] else [below, above]

/-- The value `m · 2 ^ e` with the fewest digits that read back, as `digits · 10 ^ exponent`.
Seventeen digits always do. -/
def shortest (m : Nat) (e : Int) : List Char × Int :=
  let (digits, exponent) := exactDecimal m e
  let found := (List.range' 1 17).findSome? fun n =>
    let exponent : Int := exponent + (digits.length - n : Nat)
    let reading := (neighbours n digits).find? (ofDecimal false · exponent = .finite false m e)
    reading.map (·, exponent)
  found.getD (digits, exponent)

def positional (digits : List Char) (exponent : Int) : List Char :=
  let places := (-exponent).toNat
  let digits := Text.zeroFill (places + 1) (digits ++ List.replicate exponent.toNat '0')
  let split := digits.length - places
  let whole := (digits.take (split - 1)).dropWhile (· = '0') ++ (digits.drop (split - 1)).take 1
  let fraction := ((digits.drop split).reverse.dropWhile (· = '0')).reverse
  whole ++ '.' :: if fraction.isEmpty then ['0'] else fraction

def text : Double → String
  | .nan => "NaN"
  | .infinite negative => if negative then "-inf" else "inf"
  | .finite negative m e =>
    let (digits, exponent) := shortest m e
    (if negative then "-" else "") ++ String.ofList (positional digits exponent)

end TaskMarkup.Double
