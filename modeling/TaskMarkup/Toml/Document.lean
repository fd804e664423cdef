import TaskMarkup.Text.Utf8
import TaskMarkup.Toml.Grammar

namespace TaskMarkup.Toml

def dateTimeKey : String := "$__toml_private_datetime"

/-- The limits of dates and times that strings spell: the end of a day may be its hour 24, and an
offset may have any two digits on both sides of its colon. -/
def Scan.ClockLimits.spelled : ClockLimits := { hour := 24, offsetHour := 99, offsetMinute := 99 }

def spelled? : Toml → Option Toml
  | .string s =>
    match Scan.dateTime .spelled s.toList with
    | some (text, []) => some (.dateTime text)
    | _ => none
  | _ => none

mutual

def resolve? : Toml → Option Toml
  | .array items => (resolveItems? items).map .array
  | .table es => resolveTable? es
  | v => some v

def resolveItems? : List Toml → Option (List Toml)
  | [] => some []
  | v :: vs => do return (← resolve? v) :: (← resolveItems? vs)

def resolveTable? : List (String × Toml) → Option Toml
  | [] => some (.table [])
  | (key, v) :: es =>
    if key = dateTimeKey then spelled? v
    else do return .table ((key, ← resolve? v) :: (← resolveEntries? es))

def resolveEntries? : List (String × Toml) → Option (List (String × Toml))
  | [] => some []
  | (key, v) :: es => do return (key, ← resolve? v) :: (← resolveEntries? es)

end

def parse? (text : String) : Option Toml := do
  let cs := Text.dropMark text.toList
  let (p, _) ← Scan.lines cs.length {} cs
  resolveTable? (Draft.finishEntries p.entries)

end TaskMarkup.Toml
