import TaskMarkup.Settings
import TaskMarkup.Settings.Store
import TaskMarkup.Text.Quoted
import TaskMarkup.Text.Utf8
import TaskMarkup.Toml.Document

/-!
Settings from layers. The built-in defaults are the lowest, files follow in order, and single values
that were set override all of them whatever the order.
-/

namespace TaskMarkup

structure SettingsFile where
  path : String
  content : Option (List UInt8)
  required : Bool

inductive Layer
  | file (f : SettingsFile)
  | override (key : String) (v : Scalar)

namespace Scalar

def typeName : Scalar → String
  | .nil => "unit value"
  | .string s => "string " ++ Text.quoted s
  | .integer n => s!"integer `{n}`"
  | .float x => s!"floating point `{x.text}`"
  | .bool b => s!"boolean `{b}`"

end Scalar

namespace Setting

def sectionName : Setting → String
  | .scalar _ v => v.typeName
  | .array .. => "sequence"
  | .table .. => "map"

def maxNumber : Nat := 0xffffffffffffffff

def wordNumber? (word : String) : Option Nat :=
  if ["true", "on", "yes"].contains word then some 1
  else if ["false", "off", "no"].contains word then some 0
  else none

def parseNumber? (s : String) : Option Nat :=
  let ds := match s.toList with
    | '+' :: ds => ds
    | ds => ds
  (Text.numeral? 10 ds).filter (· ≤ maxNumber)

/-- The number of a setting. Words for truth values and truth values themselves count as one and
zero, and fractions are rounded. -/
def number (key : String) : Setting → Except SettingsError Nat
  | .scalar origin v =>
    match v with
    | .integer n => if 0 ≤ n then .ok n.toNat else .error (.negative key n origin)
    | .float x => .ok (x.round maxNumber)
    | .bool b => .ok b.toNat
    | .nil => .error (.noInteger key v.typeName origin)
    | .string s =>
      match (wordNumber? (Text.lower s)).or (parseNumber? s) with
      | none => .error (.noInteger key v.typeName origin)
      | some n => .ok n
  | .array origin _ => .error (.noInteger key "sequence" origin)
  | .table origin _ => .error (.noInteger key "map" origin)

def formatNamed (name : String) : Except SettingsError OutputFormat :=
  match OutputFormat.all.find? (·.name == Text.lower name) with
  | none => .error (.unknownFormat name)
  | some format => .ok format

def format : Setting → Except SettingsError OutputFormat
  | .scalar _ (.string name) => formatNamed name
  | .table _ [(name, _)] => formatNamed name
  | _ => .error .noFormat

end Setting

structure SettingsSection where
  key : String
  name : String
  size : Nat
  content : Setting

namespace SettingsSection

def find (store : Setting) (key name : String) (size : Nat) :
    Except SettingsError SettingsSection :=
  match store.get? key with
  | none => .error (.missing key)
  | some content => .ok { key, name, size, content }

def read? {α : Type} (s : SettingsSection) (rule : String → Setting → Except SettingsError α)
    (n : Nat) (key : String) : Except SettingsError (Option α) :=
  match s.content with
  | .table _ es =>
    match es.lookup key with
    | none => .ok none
    | some v => (rule (s.key ++ "." ++ key) v).map some
  | .array _ vs =>
    match vs[n]? with
    | none => .error (.shortSection vs.length s.size s.name)
    | some v => (rule (s.key ++ s!"[{n}]") v).map some
  | v@(.scalar ..) => .error (.noSection v.sectionName s.name)

def required {α : Type} (key : String) : Option α → Except SettingsError α
  | none => .error (.missing key)
  | some a => .ok a

end SettingsSection

namespace Settings

def defaultStore : Setting :=
  let d : Settings := {}
  let number (key : String) (n : Nat) := (key, Setting.scalar none (.integer n))
  .table none [
    ("parser", .table none [number "indent_width" d.indentWidth, number "max_depth" d.maxDepth]),
    ("lexer", .table none [number "max_peek_count" d.maxPeeks]),
    ("output", .table none [("format", .scalar none (.string d.format.name)),
      number "truncate" d.truncate])]

def write (v : Setting) (path : SettingPath) (store : Setting) : Except SettingsError Setting :=
  (Setting.write v path store).mapError .fault

def addEntries (store : Setting) (es : Setting.Entries) : Except SettingsError Setting :=
  es.foldlM (fun store (key, v) =>
    write v ((SettingPath.parse? key).getD (.key key)) store) store

def addFile (store : Setting) (f : SettingsFile) : Except SettingsError Setting :=
  match f.content with
  | none => if f.required then .error (.missingFile f.path) else .ok store
  | some bytes =>
    match Text.decode? bytes with
    | none => if f.required then .error .notText else .ok store
    | some text =>
      match (Toml.parse? text).map (Setting.ofToml (some f.path)) with
      | none => .error (.malformedFile f.path)
      | some (.table _ es) => addEntries store es
      | some root => .error (.noTable root.sectionName f.path)

/-- The settings that a store holds. All that a section has is read before anything is found to be
missing. -/
def ofStore (store : Setting) : Except SettingsError Settings := do
  let parser ← SettingsSection.find store "parser" "ParserConfig" 2
  let indentWidth ← parser.read? Setting.number 0 "indent_width"
  let maxDepth ← parser.read? Setting.number 1 "max_depth"
  let indentWidth ← SettingsSection.required "indent_width" indentWidth
  let maxDepth ← SettingsSection.required "max_depth" maxDepth
  let lexer ← SettingsSection.find store "lexer" "LexerConfig" 1
  let maxPeeks ← lexer.read? Setting.number 0 "max_peek_count"
  let maxPeeks ← SettingsSection.required "max_peek_count" maxPeeks
  let output ← SettingsSection.find store "output" "OutputConfig" 2
  let format ← output.read? (fun _ => Setting.format) 0 "format"
  let truncate ← output.read? Setting.number 1 "truncate"
  let format ← SettingsSection.required "format" format
  let truncate ← SettingsSection.required "truncate" truncate
  return { indentWidth, maxDepth, maxPeeks, format, truncate }

def overrides (layers : List Layer) : Except SettingsError (List (SettingPath × Scalar)) := do
  let found ← layers.mapM fun
    | .file _ => .ok none
    | .override key v =>
      match SettingPath.parse? key with
      | none => .error (.malformedKey key)
      | some path => .ok (some (path, v))
  return found.filterMap id

/-- Writes all entries of a store anew. A key that only has become a path by its lower case is one
now. -/
def settle (store : Setting) : Except SettingsError Setting :=
  addEntries (.table none []) store.entries

/-- The settings of some layers. A malformed key is found before any file is read. -/
def load (layers : List Layer) : Except SettingsError Settings := do
  let set ← overrides layers
  let store ← layers.foldlM (fun store layer =>
    match layer with
    | .file f => addFile store f
    | .override .. => .ok store) defaultStore
  let store ← settle store
  let store ← set.foldlM (fun store (path, v) => write (.scalar none v) path store) store
  validate (← ofStore store)

end Settings

end TaskMarkup
