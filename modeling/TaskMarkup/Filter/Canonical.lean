import TaskMarkup.Filter

namespace TaskMarkup

namespace Text

def escaped (delimiter : Char) (needle : List Char) : List Char :=
  needle.flatMap fun c => if c = delimiter || c = '\\' then ['\\', c] else [c]

def delimited (delimiter : Char) (needle : List Char) : List Char :=
  delimiter :: escaped delimiter needle ++ [delimiter]

end Text

def Predicate.text : Predicate → String
  | .any => "*"
  | .due => "due"
  | .done => "x"
  | .pin => "pin"
  | .hide => "hide"
  | .tag name => "@" ++ name.getD ""
  | .track none => "track"
  | .track (some id) => s!"track:{id}"
  | .fuzzy needle => String.ofList (Text.delimited '/' needle.toList)
  | .literal needle => String.ofList (Text.delimited '\x27' needle.toList)
  | .priority none => "#"
  | .priority (some n) => s!"#{n}"

namespace Operator

def join (op : Operator) (left right : String) : String :=
  left ++ " " ++ String.singleton op.sign ++ " " ++ right

end Operator

namespace Filter

def operandText : Filter → String
  | .predicate _ p => p.text
  | .not _ f => "!" ++ f.operandText
  | .binary _ op f g => "(" ++ op.join f.operandText g.operandText ++ ")"

def canonical : Filter → String
  | .binary _ op f g => op.join f.operandText g.operandText
  | f => f.operandText

end Filter

end TaskMarkup
