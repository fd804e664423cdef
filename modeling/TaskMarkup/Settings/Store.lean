import TaskMarkup.Double.Shortest
import TaskMarkup.Fault
import TaskMarkup.Text.Blank
import TaskMarkup.Text.Lowercase
import TaskMarkup.Toml

/-!
A store of settings that layers are written into. Tables are merged entry by entry, anything else is
replaced. Keys are kept in lower case. A value from a file knows the file, but a table that came
into being by writing into it has no origin.
-/

namespace TaskMarkup

inductive Scalar
  | nil
  | string (s : String)
  | integer (n : Int)
  | float (x : Double)
  | bool (b : Bool)
  deriving DecidableEq, Repr

inductive Setting
  | scalar (origin : Option String) (v : Scalar)
  | array (origin : Option String) (items : List Setting)
  | table (origin : Option String) (entries : List (String × Setting))

/-- Where a setting is: under a key, under a key of a table, or at a place of an array. A negative
place counts from the end. -/
inductive SettingPath
  | key (name : String)
  | child (parent : SettingPath) (name : String)
  | item (parent : SettingPath) (place : Int)
  deriving DecidableEq, Repr

namespace Setting

abbrev Entries := List (String × Setting)

def nil : Setting := .scalar none .nil

mutual

def ofToml (origin : Option String) : Toml → Setting
  | .string s | .dateTime s => .scalar origin (.string s)
  | .integer n => .scalar origin (.integer n)
  | .float x => .scalar origin (.float x)
  | .bool b => .scalar origin (.bool b)
  | .array items => .array origin (ofTomlItems origin items)
  | .table entries => .table origin (ofTomlEntries origin entries)

def ofTomlItems (origin : Option String) : List Toml → List Setting
  | [] => []
  | v :: vs => ofToml origin v :: ofTomlItems origin vs

def ofTomlEntries (origin : Option String) : List (String × Toml) → List (String × Setting)
  | [] => []
  | (key, v) :: es => (key, ofToml origin v) :: ofTomlEntries origin es

end

def entries : Setting → Entries
  | .table _ es => es
  | _ => []

def items : Setting → List Setting
  | .array _ vs => vs
  | _ => []

def withEntries (es : Entries) : Setting → Setting
  | .table origin _ => .table origin es
  | _ => .table none es

def withItems (vs : List Setting) : Setting → Setting
  | .array origin _ => .array origin vs
  | _ => .array none vs

def get? (key : String) (s : Setting) : Option Setting := s.entries.lookup key

def put (key : String) (v : Setting) : Entries → Entries
  | [] => [(key, v)]
  | (k, v') :: es => if k = key then (key, v) :: es else (k, v') :: put key v es

mutual

def assign (key : String) (root : Setting) : Setting → Setting
  | .table _ incoming =>
    let target := (root.get? (Text.lower key)).getD (.table none [])
    root.withEntries (put (Text.lower key) (assignAll target incoming) root.entries)
  | .scalar origin v => root.withEntries (put (Text.lower key) (.scalar origin v) root.entries)
  | .array origin vs => root.withEntries (put (Text.lower key) (.array origin vs) root.entries)

def assignAll (target : Setting) : List (String × Setting) → Setting
  | [] => target
  | (key, v) :: es => assignAll (assign key target v) es

end

def placeIn (size : Nat) (place : Int) : Except Fault Nat :=
  if 0 ≤ place then .ok place.toNat
  else if place.natAbs ≤ size then .ok (size - place.natAbs)
  else .error (.overflow .subtract)

/-- How many items an array can have: so many as fill half of the addresses of 64 bits, each of them
with 96 bytes. -/
def maxItems : Nat := 0x7fffffffffffffff / 96

def grow (n : Nat) (vs : List Setting) : Except Fault (List Setting) :=
  if n < vs.length then .ok vs
  else if n < maxItems then .ok (vs ++ List.replicate (n + 1 - vs.length) nil)
  else .error .capacity

def changeItem (place : Int) (f : Setting → Except Fault Setting) (s : Setting) :
    Except Fault Setting := do
  let n ← placeIn s.items.length place
  let vs ← grow n s.items
  return s.withItems (vs.set n (← f (vs[n]?.getD nil)))

def changeEntry (key : String) (f : Setting → Except Fault Setting) (s : Setting) :
    Except Fault Setting := do
  let v ← f ((s.get? (Text.lower key)).getD nil)
  return s.withEntries (put (Text.lower key) v s.entries)

def change (f : Setting → Except Fault Setting) : SettingPath → Setting → Except Fault Setting
  | .key name, s => changeEntry name f s
  | .child parent name, s => change (changeEntry name f) parent s
  | .item parent place, s => change (changeItem place f) parent s

def write (v : Setting) : SettingPath → Setting → Except Fault Setting
  | .key name, s => .ok (s.assign name v)
  | .child parent name, s => change (fun p => .ok (assign name p v)) parent s
  | .item parent place, s => change (changeItem place fun _ => .ok v) parent s

end Setting

namespace SettingPath

def isKeyChar (c : Char) : Bool := c.isAlphanum || c = ' ' || c = '_' || c = '-'

def isGap (c : Char) : Bool := c = ' ' || c = '\t'

def place? (cs : List Char) : Option Int :=
  let number : Option Int := match Text.dropEndWhile isGap (cs.dropWhile isGap) with
    | '-' :: ds => (Text.numeral? 10 ds).map fun n => -(n : Int)
    | ds => (Text.numeral? 10 ds).map Int.ofNat
  number.filter Text.isWord

def extend (p : SettingPath) : (fuel : Nat) → List Char → Option SettingPath
  | _, [] => some p
  | 0, _ => none
  | fuel + 1, '.' :: cs =>
    let name := cs.takeWhile isKeyChar
    if name.isEmpty then none
    else extend (.child p (String.ofList name)) fuel (cs.dropWhile isKeyChar)
  | fuel + 1, '[' :: cs =>
    match place? (cs.takeWhile (· ≠ ']')), cs.dropWhile (· ≠ ']') with
    | some n, _ :: rest => extend (.item p n) fuel rest
    | _, _ => none
  | _, _ => none

def parse? (text : String) : Option SettingPath :=
  let cs := text.toList
  let name := cs.takeWhile isKeyChar
  if name.isEmpty then none
  else extend (.key (String.ofList name)) cs.length (cs.dropWhile isKeyChar)

end SettingPath

end TaskMarkup
