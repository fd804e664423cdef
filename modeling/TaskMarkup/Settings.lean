import TaskMarkup.Document

namespace TaskMarkup

inductive OutputFormat
  | tree | json | yaml
  deriving DecidableEq, Repr

namespace OutputFormat

def name : OutputFormat → String
  | .tree => "tree"
  | .json => "json"
  | .yaml => "yaml"

def all : List OutputFormat := [.tree, .json, .yaml]

end OutputFormat

structure Settings where
  indentWidth : Nat := 2
  maxDepth : Nat := 32
  maxPeeks : Nat := 100
  format : OutputFormat := .tree
  /-- Labels with more characters than this are cut in trees. -/
  truncate : Nat := 40
  deriving DecidableEq, Repr

inductive SettingsError
  | missingFile (path : String)
  | notText
  | malformedFile (path : String)
  | noTable (found path : String)
  | malformedKey (key : String)
  | missing (field : String)
  | noInteger (key : String) (found : String) (origin : Option String)
  | negative (key : String) (n : Int) (origin : Option String)
  | noSection (found name : String)
  | shortSection (found size : Nat) (name : String)
  | noFormat
  | unknownFormat (name : String)
  | zero (key : String)
  | fault (f : Fault)
  deriving DecidableEq, Repr

namespace SettingsError

def place (key : String) (origin : Option String) : String :=
  s!" for key `{key}`" ++ (origin.map (" in " ++ ·)).getD ""

def message : SettingsError → String
  | .missingFile path => s!"configuration file \"{path}\" not found"
  | .notText => "stream did not contain valid UTF-8"
  | .malformedFile _ => "TOML parse error"
  | .noTable found path => s!"invalid type: {found}, expected a map in {path} in {path}"
  | .malformedKey key => s!"malformed key: {key}"
  | .missing field => s!"missing field `{field}`"
  | .noInteger key found origin =>
    s!"invalid type: {found}, expected an integer" ++ place key origin
  | .negative key n origin =>
    s!"invalid type: 64-bit integer `{n}`, expected an unsigned 64 bit or less integer" ++
      place key origin
  | .noSection found name => s!"invalid type: {found}, expected struct {name}"
  | .shortSection found size name =>
    let elements := if size = 1 then "element" else "elements"
    s!"invalid length {found}, expected struct {name} with {size} {elements}"
  | .noFormat =>
    "value of enum OutputFormat should be represented by either string or table " ++
      "with exactly one key"
  | .unknownFormat name => s!"enum OutputFormat does not have variant constructor {name}"
  | .zero key => s!"{key} must be at least 1"
  | .fault f => f.message

end SettingsError

namespace Settings

/-- Refuses limits of zero; the first in the order of the sections is reported. -/
def validate (s : Settings) : Except SettingsError Settings :=
  if s.indentWidth = 0 then .error (.zero "parser.indent_width")
  else if s.maxDepth = 0 then .error (.zero "parser.max_depth")
  else if s.maxPeeks = 0 then .error (.zero "lexer.max_peek_count")
  else .ok s

def options (s : Settings) : Options where
  indentWidth := s.indentWidth
  maxDepth := s.maxDepth
  maxPeeks := s.maxPeeks

end Settings

end TaskMarkup
