import TaskMarkup.Date
import TaskMarkup.Toml

/-!
The grammar of TOML documents. A document that breaks a rule has no value.
-/

namespace TaskMarkup.Toml

abbrev Scan := StateT (List Char) Option

namespace Scan

variable {α : Type}

def next? : Scan (Option Char) := do return (← get).head?

def char (c : Char) : Scan Unit := do
  match ← get with
  | d :: rest => if c = d then set rest else failure
  | [] => failure

def accept (text : String) : Scan Bool := do
  let cs ← get
  if text.toList.isPrefixOf cs then
    set (cs.drop text.length)
    return true
  return false

def acceptAny : List String → Scan Bool
  | [] => return false
  | text :: texts => do if ← accept text then return true else acceptAny texts

def expect (text : String) : Scan Unit := do unless ← accept text do failure

def takeWhile (p : Char → Bool) : Scan (List Char) := do
  let cs ← get
  set (cs.dropWhile p)
  return cs.takeWhile p

def orElse (first second : Scan α) : Scan α := fun cs => (first cs).orElse fun _ => second cs

def collect (rule : Scan (Option α)) : (n : Nat) → Scan (List α)
  | 0 => failure
  | n + 1 => do
    match ← rule with
    | none => return []
    | some a => return a :: (← collect rule n)

def many (rule : Scan (Option α)) : Scan (List α) := do collect rule ((← get).length + 1)

/-! White space, comments and the ends of lines. -/

def isInlineBlank (c : Char) : Bool := c = ' ' || c = '\t'

def isPlain (c : Char) : Bool := c = '\t' || (0x20 ≤ c.toNat && c.toNat ≠ 0x7F)

def blank : Scan Unit := do let _ ← takeWhile isInlineBlank

def newline? : Scan Bool := acceptAny ["\n", "\r\n"]

def comment : Scan Unit := do
  if ← accept "#" then let _ ← takeWhile isPlain

def lineEnd : Scan Unit := do
  blank
  comment
  unless (← get).isEmpty do
    unless ← newline? do failure

def space : Scan Unit := do
  let _ ← many do
    let before := (← get).length
    blank
    comment
    let _ ← newline?
    return if (← get).length < before then some () else none

/-! Strings. -/

def unicode (digits : Nat) : Scan Char := do
  let cs ← get
  set (cs.drop digits)
  if cs.length < digits then failure
  match Text.numeral? 16 (cs.take digits) with
  | none => failure
  | some n => if n.isValidChar then return Char.ofNat n else failure

def escape : Scan Char := do
  match ← get with
  | [] => failure
  | c :: rest =>
    set rest
    match c with
    | 'b' => return '\x08'
    | 't' => return '\t'
    | 'n' => return '\n'
    | 'f' => return '\x0c'
    | 'r' => return '\r'
    | '"' => return '"'
    | '\\' => return '\\'
    | 'u' => unicode 4
    | 'U' => unicode 8
    | _ => failure

def basicString : Scan (List Char) := do
  let cs ← many do
    match ← get with
    | [] => failure
    | c :: rest =>
      set rest
      if c = '"' then return none
      else if c = '\\' then return some (← escape)
      else if isPlain c then return some c
      else failure
  return cs

def literalString : Scan (List Char) := do
  let cs ← takeWhile fun c => isPlain c && c ≠ '\x27'
  expect "\x27"
  return cs

def dropSpace : List Char → List Char
  | ' ' :: cs | '\t' :: cs | '\n' :: cs | '\r' :: '\n' :: cs => dropSpace cs
  | cs => cs

def lineContinuation? : Scan Bool := do
  let rest := (← get).dropWhile isInlineBlank
  if rest.head? = some '\n' || rest.take 2 = ['\r', '\n'] then
    set (dropSpace rest)
    return true
  return false

def closing (quote : Char) (cs : List Char) : Option (List Char × List Char) :=
  let run := cs.takeWhile (· = quote)
  if run.length < 3 then none
  else
    let inner := min (run.length - 3) 2
    some (List.replicate inner quote, cs.drop (inner + 3))

def multiline (quote : Char) (special : Option (Scan (List Char))) : Scan (List Char) := do
  let _ ← newline?
  let parts ← many (do
    let cs ← get
    if cs.take 3 = List.replicate 3 quote then return none
    if ← newline? then return some ['\n']
    match cs with
    | [] => failure
    | c :: rest =>
      set rest
      match special with
      | some rule => if c = '\\' then return some (← rule)
      | none => pure ()
      if isPlain c then return some [c] else failure)
  match closing quote (← get) with
  | none => failure
  | some (quotes, rest) =>
    set rest
    return parts.flatten ++ quotes

def multilineEscape : Scan (List Char) := do
  if ← lineContinuation? then return [] else return [← escape]

def string : Scan String := do
  if ← accept "\"\"\"" then return String.ofList (← multiline '"' (some multilineEscape))
  if ← accept "\x27\x27\x27" then return String.ofList (← multiline '\x27' none)
  if ← accept "\"" then return String.ofList (← basicString)
  expect "\x27"
  return String.ofList (← literalString)

/-! Keys. -/

def isKeyChar (c : Char) : Bool := c.isAlphanum || c = '_' || c = '-'

def simpleKey : Scan String := do
  if ← accept "\"" then return String.ofList (← basicString)
  if ← accept "\x27" then return String.ofList (← literalString)
  let cs ← takeWhile isKeyChar
  if cs.isEmpty then failure
  return String.ofList cs

/-- How many simple keys a key may have, and how deep values may nest. -/
def maxNesting : Nat := 79

def key : Scan (List String) := do
  blank
  let first ← simpleKey
  blank
  let more ← many do
    unless ← accept "." do return none
    blank
    let k ← simpleKey
    blank
    return some k
  if maxNesting < more.length + 1 then failure
  return first :: more

/-! Numbers. -/

def digits (base : Nat) : Scan (List Char) := do
  let run ← takeWhile fun c => Text.isDigitOf base c || c = '_'
  let doubled := (run.zip (run.drop 1)).any fun (a, b) => a = '_' && b = '_'
  if run.isEmpty || run.head? = some '_' || run.getLast? = some '_' || doubled then failure
  return run.filter (· ≠ '_')

def based (letters : String) (base : Nat) : Scan Toml := do
  expect letters
  let n := (Text.numeral? base (← digits base)).getD 0
  if Text.isWord n then return .integer n else failure

def sign : Scan Bool := do
  if ← accept "-" then return true
  let _ ← accept "+"
  return false

def whole : Scan (List Char) := do
  let ds ← digits 10
  if ds.head? = some '0' && ds ≠ ['0'] then failure
  return ds

/-- A number too large for a double is an error unless it is negative. -/
def decimalFloat : Scan Toml := do
  let negative ← sign
  let ds ← whole
  let fraction ← if ← accept "." then digits 10 else pure []
  let mut exponent : Int := 0
  let mut hasExponent := false
  if ← acceptAny ["e", "E"] then
    let down ← sign
    let n : Int := Text.decimal (← digits 10)
    exponent := if down then -n else n
    hasExponent := true
  if fraction.isEmpty && !hasExponent then failure
  match Double.ofDecimal negative (ds ++ fraction) (exponent - fraction.length) with
  | .infinite false => failure
  | x => return .float x

def specialFloat : Scan Toml := do
  let negative ← sign
  if ← accept "inf" then return .float (.infinite negative)
  expect "nan"
  return .float .nan

def decimalInteger : Scan Toml := do
  let negative ← sign
  let n : Int := Text.decimal (← whole)
  let n := if negative then -n else n
  if Text.isWord n then return .integer n else failure

/-! Dates and times. -/

structure ClockLimits where
  hour : Nat
  offsetHour : Nat
  offsetMinute : Nat

def ClockLimits.values : ClockLimits := { hour := 23, offsetHour := 23, offsetMinute := 59 }

def isDigits (width : Nat) (cs : List Char) : Bool := cs.length = width && cs.all Char.isDigit

def field (width low high : Nat) : Scan (Nat × String) := do
  let cs ← get
  let ds := cs.take width
  set (cs.drop width)
  let n := Text.decimal ds
  if isDigits width ds && low ≤ n && n ≤ high then return (n, String.ofList ds) else failure

def fullDate : Scan String := do
  let (year, y) ← field 4 0 9999
  expect "-"
  let (month, m) ← field 2 1 12
  expect "-"
  let (_, d) ← field 2 1 (Date.daysInMonth year month)
  return y ++ "-" ++ m ++ "-" ++ d

def secondFraction : Scan String := do
  unless ← accept "." do return ""
  let ds ← takeWhile Char.isDigit
  if ds.isEmpty then failure
  let kept := ((ds.take 9).reverse.dropWhile (· = '0')).reverse
  return if kept.isEmpty then "" else "." ++ String.ofList kept

def time (limits : ClockLimits) : Scan String := do
  let (_, h) ← field 2 0 limits.hour
  expect ":"
  let (_, m) ← field 2 0 59
  expect ":"
  let (_, s) ← field 2 0 60
  return h ++ ":" ++ m ++ ":" ++ s ++ (← secondFraction)

def offset (limits : ClockLimits) : Scan String := do
  if ← acceptAny ["Z", "z"] then return "Z"
  let negative ← accept "-"
  unless negative do expect "+"
  let (hours, _) ← field 2 0 limits.offsetHour
  expect ":"
  let (minutes, _) ← field 2 0 limits.offsetMinute
  let total := 60 * hours + minutes
  if 24 * 60 < total then failure
  let sign := if negative && total ≠ 0 then "-" else "+"
  return sign ++ Text.padded 2 (total / 60) ++ ":" ++ Text.padded 2 (total % 60)

def timeAhead : Scan Bool := do
  if ← acceptAny ["T", "t"] then return true
  if (← get).head? = some ' ' && isDigits 2 (((← get).drop 1).take 2) then accept " "
  else return false

def dateTime (limits : ClockLimits) : Scan String :=
  orElse (do
    let date ← fullDate
    unless ← timeAhead do return date
    let t ← time limits
    let o ← orElse (offset limits) (pure "")
    return date ++ "T" ++ t ++ o) (time limits)

def number : Scan Toml :=
  orElse (do return .dateTime (← dateTime .values)) <| orElse decimalFloat <|
    orElse specialFloat <| orElse (based "0x" 16) <| orElse (based "0o" 8) <|
    orElse (based "0b" 2) decimalInteger

/-! Values. -/

def separated {α : Type} (item : Scan α) (gap : Scan Unit) (close : String) (last : Bool) :
    Scan (List α) := do
  gap
  if ← accept close then return []
  let first ← item
  gap
  let more ← many do
    if ← accept close then return none
    expect ","
    gap
    if last then
      if ← accept close then return none
    let a ← item
    gap
    return some a
  return first :: more

def pair (value : Scan Toml) : Scan (List String × Toml) := do
  let path ← key
  expect "="
  blank
  return (path, ← value)

def tableOfPairs (pairs : List (List String × Toml)) : Option Draft.Entries :=
  pairs.foldlM (fun es (path, v) =>
    match path.getLast? with
    | none => none
    | some last => Draft.addDotted last v path.dropLast es) []

def scalar : Scan Toml := do
  match ← next? with
  | some '"' | some '\x27' => return .string (← string)
  | some 't' => do expect "true"; return .bool true
  | some 'f' => do expect "false"; return .bool false
  | _ => number

def value : (n : Nat) → Scan Toml
  | 0 => scalar
  | n + 1 => do
    match ← next? with
    | some '[' =>
      char '['
      return .array (← separated (value n) space "]" true)
    | some '\x7b' =>
      char '\x7b'
      let pairs ← separated (pair (value n)) blank "\x7d" false
      match tableOfPairs pairs with
      | none => failure
      | some es => return .table (Draft.finishEntries es)
    | _ => scalar

/-! Documents. -/

structure Progress where
  header : List String := []
  entries : Draft.Entries := []

def header : Scan (List String × Bool) := do
  let double ← accept "[["
  unless double do expect "["
  let path ← key
  expect (if double then "]]" else "]")
  return (path, double)

def line (p : Progress) : Scan Progress := do
  blank
  match ← next? with
  | some '[' =>
    let (path, double) ← header
    let change := if double then Draft.appendTable else Draft.openTable
    match Draft.underHeader change path p.entries with
    | none => failure
    | some entries => return { header := path, entries }
  | some c =>
    if c = '#' || c = '\n' || c = '\r' then return p
    let (path, v) ← pair (value maxNesting)
    match path.getLast? with
    | none => failure
    | some last =>
      match Draft.addUnder p.header path.dropLast last v p.entries with
      | none => failure
      | some entries => return { p with entries }
  | none => return p

def lines : (n : Nat) → Progress → Scan Progress
  | 0, p => return p
  | n + 1, p => do
    if (← get).isEmpty then return p
    let p ← line p
    lineEnd
    lines n p

end Scan

end TaskMarkup.Toml
