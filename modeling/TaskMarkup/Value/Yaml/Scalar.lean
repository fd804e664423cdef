import TaskMarkup.Value.Yaml.Ambiguity

namespace TaskMarkup.Value.Yaml

def isBreak (c : Char) : Bool :=
  c = '\n' || c = '\r' || c = '\u0085' || c = '\u2028' || c = '\u2029'

def isBlank (c : Char) : Bool := c = ' ' || c = '\t' || isBreak c

def isPrintable (c : Char) : Bool :=
  let n := c.toNat
  n = 0x0A || (0x20 ≤ n && n ≤ 0x7E) || (0xA0 ≤ n && n ≠ 0xFEFF && n ≠ 0xFFFE && n ≠ 0xFFFF)

def anyAdjacent (r : Char → Char → Bool) (cs : List Char) : Bool :=
  (cs.zip (cs.drop 1)).any fun (a, b) => r a b

def indicators : List Char := "#,[]\x7b\x7d&*!|>\x27\"%@\x60".toList

def hasIndicator (cs : List Char) : Bool :=
  "---".toList.isPrefixOf cs || "...".toList.isPrefixOf cs
    || (cs.head?.any fun c =>
      indicators.contains c || (c = '-' || c = '?') && (cs.drop 1).head?.all isBlank)
    || anyAdjacent (fun a b => a = ':' && isBlank b || isBlank a && b = '#') cs
    || cs.getLast? = some ':'

def hasHiddenSpace (cs : List Char) : Bool := anyAdjacent (fun a b => a = ' ' && isBreak b) cs

def canBePlain (cs : List Char) : Bool :=
  cs.all isPrintable && !cs.any isBreak && cs.head? ≠ some ' ' && cs.getLast? ≠ some ' '
    && !hasIndicator cs

def canBeQuoted (cs : List Char) : Bool :=
  cs.all isPrintable && !hasHiddenSpace cs && !anyAdjacent (fun a b => isBreak a && b = ' ') cs

def canBeBlock (cs : List Char) : Bool :=
  cs.all isPrintable && !hasHiddenSpace cs && cs.getLast? ≠ some ' '

inductive ScalarStyle
  | plain | singleQuoted | doubleQuoted | block
  deriving DecidableEq, Repr

def scalarStyle (s : String) : ScalarStyle :=
  let cs := s.toList
  if cs.contains '\n' then
    if canBeBlock cs then .block else .doubleQuoted
  else if !isAmbiguous s && canBePlain cs then .plain
  else if canBeQuoted cs then .singleQuoted
  else .doubleQuoted

def escapeChar (c : Char) : String :=
  let n := c.toNat
  if n = 0x00 then "\\0"
  else if n = 0x07 then "\\a"
  else if n = 0x08 then "\\b"
  else if n = 0x09 then "\\t"
  else if n = 0x0A then "\\n"
  else if n = 0x0B then "\\v"
  else if n = 0x0C then "\\f"
  else if n = 0x0D then "\\r"
  else if n = 0x1B then "\\e"
  else if n = 0x22 then "\\\""
  else if n = 0x5C then "\\\\"
  else if n = 0x85 then "\\N"
  else if n = 0x2028 then "\\L"
  else if n = 0x2029 then "\\P"
  else if n ≤ 0xFF then "\\x" ++ Text.upperHex 2 n
  else if n ≤ 0xFFFF then "\\u" ++ Text.upperHex 4 n
  else "\\U" ++ Text.upperHex 8 n

def doubleQuoted (cs : List Char) : String :=
  let char (c : Char) : String :=
    if isPrintable c && !isBreak c && c ≠ '"' && c ≠ '\\' then String.singleton c else escapeChar c
  "\"" ++ String.join (cs.map char) ++ "\""

def indented (indent : List Char) : (fresh : Bool) → List Char → List Char
  | _, [] => []
  | fresh, c :: cs =>
    if isBreak c then c :: indented indent true cs
    else if fresh then indent ++ c :: indented indent false cs
    else c :: indented indent false cs

def singleQuoted (indent : List Char) (cs : List Char) : String :=
  let doubled := cs.flatMap fun c => if c = '\x27' then [c, c] else [c]
  let trailing := if cs.getLast?.any isBreak then indent else []
  "\x27" ++ String.ofList (indented indent false doubled ++ trailing) ++ "\x27"

/-- What stands behind the bar of a literal block: the indentation if the text starts with white
space, and whether its last line ends and empty lines follow. -/
def blockHints (cs : List Char) : String :=
  let indentHint := if cs.head?.any fun c => c = ' ' || isBreak c then "2" else ""
  let chomping :=
    match cs.reverse with
    | [] => "-"
    | [c] => if isBreak c then "+" else "-"
    | c :: d :: _ => if !isBreak c then "-" else if isBreak d then "+" else ""
  indentHint ++ chomping

def scalar (indent : String) (s : String) : String :=
  let cs := s.toList
  match scalarStyle s with
  | .plain => s ++ "\n"
  | .singleQuoted => singleQuoted indent.toList cs ++ "\n"
  | .doubleQuoted => doubleQuoted cs ++ "\n"
  | .block =>
    "|" ++ blockHints cs ++ "\n" ++ String.ofList (indented indent.toList true cs)
      ++ if cs.getLast?.any isBreak then "" else "\n"

end TaskMarkup.Value.Yaml
