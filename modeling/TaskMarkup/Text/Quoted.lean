import TaskMarkup.Text.Decimal
import TaskMarkup.Text.Hidden

namespace TaskMarkup.Text

def shownChar (c : Char) : String :=
  if c = '\\' then "\\\\"
  else if c = '\x00' then "\\0"
  else if c = '\t' then "\\t"
  else if c = '\n' then "\\n"
  else if c = '\r' then "\\r"
  else if isHidden c then "\\u\x7b" ++ hex 1 c.toNat ++ "\x7d"
  else String.singleton c

def quotedBy (quote : Char) (cs : List Char) : String :=
  let inner := cs.map fun c => if c = quote then "\\" ++ String.singleton c else shownChar c
  String.singleton quote ++ String.join inner ++ String.singleton quote

def quoted (s : String) : String := quotedBy '"' s.toList

def quotedChar (c : Char) : String := quotedBy '\x27' [c]

end TaskMarkup.Text
