import TaskMarkup.Double

namespace TaskMarkup

inductive Toml
  | string (s : String)
  | dateTime (text : String)
  | integer (n : Int)
  | float (x : Double)
  | bool (b : Bool)
  | array (items : List Toml)
  | table (entries : List (String × Toml))

namespace Toml

inductive TableOrigin
  | header | implied | dotted
  deriving DecidableEq, Repr

/-- An entry of a document under construction; a list of tables is never empty, and its last one is
still open. -/
inductive Draft
  | value (v : Toml)
  | table (origin : TableOrigin) (entries : List (String × Draft))
  | tables (items : List (List (String × Draft)))

namespace Draft

abbrev Entries := List (String × Draft)

def put (key : String) (d : Draft) : Entries → Entries
  | [] => [(key, d)]
  | (k, d') :: es => if k = key then (key, d) :: es else (k, d') :: put key d es

def changeLast (f : Entries → Option Entries) : List Entries → Option (List Entries)
  | [] => none
  | [es] => (f es).map ([·])
  | es :: rest => (changeLast f rest).map (es :: ·)

def changeEntry (f : Option Draft → Option Draft) (key : String) (es : Entries) : Option Entries :=
  (f (es.lookup key)).map (put key · es)

/-- Changes the entries that the last key of a header's path stands among. Tables on the way that are
missing are implied, and a list of tables stands for its last one. -/
def underHeader (f : String → Entries → Option Entries) :
    (path : List String) → Entries → Option Entries
  | [], _ => none
  | [key], es => f key es
  | key :: path, es => do
    let d ← match es.lookup key with
      | none => (underHeader f path []).map (.table .implied)
      | some (.table origin inner) => (underHeader f path inner).map (.table origin)
      | some (.tables items) => (changeLast (underHeader f path) items).map .tables
      | some (.value _) => none
    return put key d es

def openTable (key : String) (es : Entries) : Option Entries :=
  match es.lookup key with
  | none => some (put key (.table .header []) es)
  | some (.table .implied inner) => some (put key (.table .header inner) (es.filter (·.1 ≠ key)))
  | some _ => none

def appendTable : String → Entries → Option Entries :=
  changeEntry fun
    | none => some (.tables [[]])
    | some (.tables items) => some (.tables (items ++ [[]]))
    | some _ => none

def addDotted (key : String) (v : Toml) : (path : List String) → Entries → Option Entries
  | [], es => if (es.lookup key).isNone then some (put key (.value v) es) else none
  | [last], es => do
    let d ← match es.lookup last with
      | none => (addDotted key v [] []).map (.table .dotted)
      | some (.table .dotted inner) => (addDotted key v [] inner).map (.table .dotted)
      | some _ => none
    return put last d es
  | step :: path, es => do
    let d ← match es.lookup step with
      | none => (addDotted key v path []).map (.table .dotted)
      | some (.table .header _) => none
      | some (.table origin inner) => (addDotted key v path inner).map (.table origin)
      | some (.tables items) => (changeLast (addDotted key v path) items).map .tables
      | some (.value _) => none
    return put step d es

def addUnder (header : List String) (path : List String) (key : String) (v : Toml) (es : Entries) :
    Option Entries :=
  match header with
  | [] => addDotted key v path es
  | _ =>
    let change := changeEntry fun
      | some (.table origin inner) => (addDotted key v path inner).map (.table origin)
      | some (.tables items) => (changeLast (addDotted key v path) items).map .tables
      | _ => none
    underHeader change header es

mutual

def finish : Draft → Toml
  | .value v => v
  | .table _ es => .table (finishEntries es)
  | .tables items => .array (finishTables items)

def finishEntries : List (String × Draft) → List (String × Toml)
  | [] => []
  | (key, d) :: es => (key, d.finish) :: finishEntries es

def finishTables : List (List (String × Draft)) → List Toml
  | [] => []
  | es :: rest => .table (finishEntries es) :: finishTables rest

end

end Draft

end Toml

end TaskMarkup
