import TaskMarkup.Text.Quoted

namespace TaskMarkup

inductive Arithmetic
  | add | subtract | multiply
  deriving DecidableEq, Repr

def Arithmetic.name : Arithmetic → String
  | .add => "add"
  | .subtract => "subtract"
  | .multiply => "multiply"

inductive Fault
  | lookahead (distance : Nat)
  | stalled (peeks offset : Nat)
  | exhausted
  | outside (offset size : Nat)
  | insideChar (offset : Nat) (c : Char) (start : Nat)
  | overflow (operation : Arithmetic)
  | capacity
  deriving DecidableEq, Repr

def lookaheadSize : Nat := 16

def Fault.message : Fault → String
  | .lookahead distance =>
    s!"lexer lookahead {distance} is out of range (max {lookaheadSize})"
  | .stalled peeks offset =>
    s!"lexer is not advancing: {peeks} peeks without consuming a token at offset {offset}"
  | .exhausted => "rule repeated more often than the source has bytes"
  | .outside offset size =>
    s!"start byte index {offset} is out of bounds for string of length {size}"
  | .insideChar offset c start =>
    let stop := start + c.utf8Size
    s!"start byte index {offset} is not a char boundary; it is inside " ++ Text.quotedChar c ++
      s!" (bytes {start}..{stop} of string)"
  | .overflow operation => s!"attempt to {operation.name} with overflow"
  | .capacity => "capacity overflow"

end TaskMarkup
