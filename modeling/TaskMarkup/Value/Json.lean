import TaskMarkup.Text.Decimal
import TaskMarkup.Value

namespace TaskMarkup

namespace Value

def jsonChar (c : Char) : String :=
  if c = '"' then "\\\""
  else if c = '\\' then "\\\\"
  else if c = '\x08' then "\\b"
  else if c = '\x0c' then "\\f"
  else if c = '\n' then "\\n"
  else if c = '\r' then "\\r"
  else if c = '\t' then "\\t"
  else if c.toNat < 0x20 then "\\u" ++ Text.hex 4 c.toNat
  else String.singleton c

def jsonString (s : String) : String := "\"" ++ String.join (s.toList.map jsonChar) ++ "\""

def jsonBlock (opening closing indent : String) (items : List String) : String :=
  if items.isEmpty then opening ++ closing
  else
    opening ++ "\n" ++ ",\n".intercalate (items.map (indent ++ "  " ++ ·)) ++ "\n" ++ indent
      ++ closing

mutual

def json (indent : String) : Value → String
  | .null => "null"
  | .bool b => if b then "true" else "false"
  | .number n => toString n
  | .text s => jsonString s
  | .list items => jsonBlock "[" "]" indent (jsonItems (indent ++ "  ") items)
  | .object fields => jsonBlock "\x7b" "\x7d" indent (jsonFields (indent ++ "  ") fields)
  | .variant name content =>
    jsonBlock "\x7b" "\x7d" indent [jsonString name ++ ": " ++ content.json (indent ++ "  ")]

def jsonItems (indent : String) : List Value → List String
  | [] => []
  | v :: vs => v.json indent :: jsonItems indent vs

def jsonFields (indent : String) : List (String × Value) → List String
  | [] => []
  | (key, v) :: fields => (jsonString key ++ ": " ++ v.json indent) :: jsonFields indent fields

end

end Value

end TaskMarkup
