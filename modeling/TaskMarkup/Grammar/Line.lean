import TaskMarkup.Cursor
import TaskMarkup.Lexer.Repeat

namespace TaskMarkup

/-- How indentation is measured: the width of a level in columns, and how many columns can be
counted if there is an end to it. -/
structure Ruler where
  width : Nat
  maxColumns : Option Nat
  deriving DecidableEq, Repr

structure Level where
  ruler : Ruler
  room : Nat
  deriving DecidableEq, Repr

def Tag.endsMarker (t : Tag) : Bool := t.isInlineSpace || t.endsLine

namespace Parse

open Rule

def counted (ruler : Ruler) (operation : Arithmetic) (columns : Nat) : Parse Nat :=
  if ruler.maxColumns.any (· < columns) then throw (.fault (.overflow operation))
  else return columns

def indentColumns (ruler : Ruler) : Parse Nat :=
  paused <| loop (fun columns => do
    let t ← peek 0
    match t.tag with
    | .spaces =>
      let columns ← counted ruler .add (columns + t.size)
      let _ ← eat
      return .again columns
    | .tab =>
      let tab ← counted ruler .multiply (2 * ruler.width)
      let columns ← counted ruler .add (columns + tab)
      let _ ← eat
      return .again columns
    | _ => return .done columns) 0

def measureIndent (ruler : Ruler) : Parse Nat := do
  return (← indentColumns ruler) / ruler.width

def lineTurn (ruler : Ruler) : Parse (Turn (Option Nat) Unit) := do
  if (← get).atEof then return .done none
  if let some measured := (← cursor).lineIndent then return .done (some measured)
  let measured ← measureIndent ruler
  match ← peekTag 0 with
  | .eof => return .done none
  | .newline =>
    let _ ← paused eat
    return .again ()
  | _ =>
    setLineIndent (some measured)
    return .done (some measured)

def lineStart (ruler : Ruler) : Parse (Option Nat) := loop (fun _ => lineTurn ruler) ()

def classify : Parse Marker := do
  let t ← peek 0
  match t.tag with
  | .hash =>
    let size ← repeats t
    if 1 ≤ size && size ≤ 5 then
      if (← peekTag size).isInlineSpace then return .header size
    return .paragraph
  | .leftBracket => return if (← repeats t) = 1 then .task else .paragraph
  | .dash =>
    if (← repeats t) = 1 then
      if (← peekTag 1).endsMarker then return .list
    return .paragraph
  | .pipe => return .table
  | .equals => return if 3 ≤ (← repeats t) then .separator else .paragraph
  | .rightAngle => return .raw
  | .number =>
    if (← peekTag 1) = .dot then
      if (← peekTag 2).endsMarker then return .ordered (t.value?.getD 0)
    return .paragraph
  | _ => return .paragraph

/-- Where no body may be opened any more, its marker is text. -/
def dispatch (room : Nat) : Parse Marker := do
  let marker ← classify
  return if room = 0 && marker.opensBody then .paragraph else marker

def nextTurn {α : Type} (level : Level) (indent : Nat) (continues : Marker → Bool) (a : α) :
    Parse (Turn α α) := do
  match ← lineStart level.ruler with
  | none => return .done a
  | some measured =>
    if measured ≠ indent then return .done a
    return if continues (← dispatch level.room) then .again a else .done a

end Parse

end TaskMarkup
