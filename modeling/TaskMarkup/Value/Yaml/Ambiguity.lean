import TaskMarkup.Double

namespace TaskMarkup.Value.Yaml

open TaskMarkup.Text

def truthWords : List String := ["true", "True", "TRUE", "false", "False", "FALSE"]

def nullWords : List String := ["", "null", "Null", "NULL", "~"]

def infinityWords : List String :=
  [".inf", ".Inf", ".INF", "+.inf", "+.Inf", "+.INF", "-.inf", "-.Inf", "-.INF", ".nan", ".NaN",
    ".NAN"]

def isBased (bound : Nat) : List Char → Bool
  | '0' :: 'x' :: ds => (numeral? 16 ds).any (· < bound)
  | '0' :: 'o' :: ds => (numeral? 8 ds).any (· < bound)
  | '0' :: 'b' :: ds => (numeral? 2 ds).any (· < bound)
  | _ => false

/-- Integers in a named base fit into 128 bits, with a sign bit if they are negative. -/
def isBasedInteger : List Char → Bool
  | '-' :: cs => isBased (Nat.pow 2 127 + 1) cs
  | '+' :: cs => isBased (Nat.pow 2 128) cs
  | cs => isBased (Nat.pow 2 128) cs

def dropSign : List Char → List Char
  | '-' :: cs | '+' :: cs => cs
  | cs => cs

def isZeroPadded (cs : List Char) : Bool :=
  match dropSign cs with
  | '0' :: d :: ds => (d :: ds).all Char.isDigit
  | _ => false

def exponent? : List Char → Option Int
  | [] => some 0
  | c :: cs =>
    if c = 'e' || c = 'E' then
      (numeral? 10 (dropSign cs)).map fun n => if cs.head? = some '-' then -(n : Int) else n
    else none

def isDecimal (cs : List Char) : Bool :=
  let cs := dropSign cs
  let whole := cs.takeWhile Char.isDigit
  let rest := cs.dropWhile Char.isDigit
  let fraction := if rest.head? = some '.' then (rest.drop 1).takeWhile Char.isDigit else []
  let rest := if rest.head? = some '.' then (rest.drop 1).dropWhile Char.isDigit else rest
  match exponent? rest with
  | none => false
  | some e =>
    !(whole ++ fraction).isEmpty
      && (Double.ofDecimal false (whole ++ fraction) (e - fraction.length)).isFinite

def isAmbiguous (s : String) : Bool :=
  truthWords.contains s || nullWords.contains s || infinityWords.contains s
    || isBasedInteger s.toList || isZeroPadded s.toList || isDecimal s.toList

end TaskMarkup.Value.Yaml
