import TaskMarkup.Value
import TaskMarkup.Value.Yaml.Scalar

namespace TaskMarkup

namespace Value

mutual

def yamlField (indent : String) : Value → String
  | .null => " null\n"
  | .bool b => if b then " true\n" else " false\n"
  | .number n => " " ++ toString n ++ "\n"
  | .text s => " " ++ Yaml.scalar (indent ++ "  ") s
  | .list [] => " []\n"
  | .list (v :: vs) => "\n" ++ yamlItems indent (v :: vs)
  | .object [] => " \x7b\x7d\n"
  | .object (f :: fs) => "\n" ++ indent ++ "  " ++ yamlFields (indent ++ "  ") (f :: fs)
  | .variant name content => " !" ++ name ++ content.yamlField indent

def yamlItem (indent : String) : Value → String
  | .null => " null\n"
  | .bool b => if b then " true\n" else " false\n"
  | .number n => " " ++ toString n ++ "\n"
  | .text s => " " ++ Yaml.scalar (indent ++ "  ") s
  | .list [] => " []\n"
  | .list (v :: vs) => " -" ++ v.yamlItem (indent ++ "  ") ++ yamlItems (indent ++ "  ") vs
  | .object [] => " \x7b\x7d\n"
  | .object (f :: fs) => " " ++ yamlFields (indent ++ "  ") (f :: fs)
  | .variant name content => " !" ++ name ++ content.yamlField indent

def yamlItems (indent : String) : List Value → String
  | [] => ""
  | v :: vs => indent ++ "-" ++ v.yamlItem indent ++ yamlItems indent vs

def yamlFields (indent : String) : List (String × Value) → String
  | [] => ""
  | (key, v) :: fields =>
    key ++ ":" ++ v.yamlField indent
      ++ if fields.isEmpty then "" else indent ++ yamlFields indent fields

end

def yaml : Value → String
  | .list [] => "[]\n"
  | .list (v :: vs) => yamlItems "" (v :: vs)
  | .object (f :: fs) => yamlFields "" (f :: fs)
  | v => String.ofList ((v.yamlField "").toList.drop 1)

end Value

end TaskMarkup
