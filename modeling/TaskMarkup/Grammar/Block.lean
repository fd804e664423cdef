import TaskMarkup.Grammar.Directive
import TaskMarkup.Grammar.Table

/-!
The block grammar. A sequence of blocks has an indentation that its lines must reach; a line below
it ends the sequence and is left to the construct around it. The items of lists, tasks and table
cells hold such a sequence one level deeper, which starts with the rest of the marker's line.
-/

namespace TaskMarkup

namespace Parse

open Rule

/-- Eats the white space behind a marker. What follows on the line counts as a line at the body's
indentation. -/
def enterBody (indent : Nat) : Parse Unit := do
  eatInlineSpace
  let blank := (← peekTag 0).endsLine
  setLineIndent (if blank then none else some indent)

def header (level : Level) (size indent : Nat) : Parse Block := do
  let start := (← peek 0).start
  eatMany size
  eatInlineSpace
  let child ← paragraph { level, indent, mode := .singleLine }
  let _ ← eatIf .newline
  let stop := max (← endFrom start) child.stop
  return .header ⟨start, stop, indent⟩ size child

def separator (indent : Nat) : Parse Block := do
  let t ← peek 0
  eatMany (← repeats t)
  let stop ← endFrom t.start
  eatLine
  return .separator ⟨t.start, stop, indent⟩

def blankTurn (ruler : Ruler) (count : Nat) : Parse (Turn (Nat × Nat) Nat) := do
  let columns ← indentColumns ruler
  if (← peekTag 0) ≠ .newline then return .done (columns, count)
  let _ ← paused eat
  return .again (count + 1)

def skipBlankLines (ruler : Ruler) : Parse (Nat × Nat) := loop (blankTurn ruler) 0

def sourceText (start stop : Nat) : Parse (List Char) := do
  return (← get).source.slice start stop

/-- Spaces in the place of columns. A text holds at most half as many as can be counted. -/
def columnSpaces (ruler : Ruler) (columns : Nat) : Parse (List Char) :=
  if ruler.maxColumns.any (· / 2 < columns) then throw (.fault .capacity)
  else return List.replicate columns ' '

def rawNext (ruler : Ruler) (base indent : Nat) (text : List Char) (columns blank : Nat) :
    Parse (Turn (List Char) (List Char × Nat)) := do
  if (← peekTag 0) = .eof then return .done text
  let measured := columns / ruler.width
  setLineIndent (some measured)
  if measured ≤ indent then return .done text
  setLineIndent none
  let text := text ++ List.replicate (1 + blank) '\n' ++ (← columnSpaces ruler (columns - base))
  return .again (text, (← peek 0).start)

def rawTurn (ruler : Ruler) (base indent : Nat) :
    List Char × Nat → Parse (Turn (List Char) (List Char × Nat))
  | (text, start) => do
    eatUntil (·.tag == .newline)
    let stop ← endFrom start
    let text := text ++ (← sourceText start stop)
    if (← eatIf .newline).isNone then return .done text
    let (columns, blank) ← skipBlankLines ruler
    rawNext ruler base indent text columns blank

/-- The lines of a raw block from the offset `start` on. Lines after the first keep the indentation
that goes beyond `base` columns. -/
def rawLines (ruler : Ruler) (base indent start : Nat) : Parse (List Char) :=
  loop (rawTurn ruler base indent) ([], start)

def rawBlock (ruler : Ruler) (indent : Nat) : Parse Block := do
  let marker ← eat
  let behind := (← get).source.fromOffset marker.stop
  let start := if behind.head? = some ' ' then marker.stop + 1 else marker.stop
  let base ← counted ruler .multiply ((indent + 1) * ruler.width)
  let text ← rawLines ruler base indent start
  let textStop ← endFrom start
  let child := .text ⟨start, textStop, indent⟩ (String.ofList text)
  let stop ← endFrom marker.start
  return .raw ⟨marker.start, stop, indent⟩ [child]

def bodied (body : Nat → Parse (List Block)) (indent start : Nat) (kind : Container) :
    Parse Block := do
  enterBody (indent + 1)
  let children ← body (indent + 1)
  let stop ← endCovering start children
  return .container ⟨start, stop, indent⟩ kind children

def listItem (body : Nat → Parse (List Block)) (size indent : Nat) : Parse Block := do
  let start := (← peek 0).start
  eatMany size
  bodied body indent start .listItem

def itemTurn (level : Level) (body : Nat → Parse (List Block)) (size indent : Nat)
    (continues : Nat → Marker → Bool) (items : List Block) :
    Parse (Turn (List Block) (List Block)) := do
  let item ← listItem body size indent
  let items := items ++ [item]
  nextTurn level indent (continues items.length) items

def listItems (level : Level) (body : Nat → Parse (List Block)) (size indent : Nat)
    (continues : Nat → Marker → Bool) (kind : Container) : Parse Block := do
  let start := (← peek 0).start
  let items ← loop (itemTurn level body size indent continues) []
  let stop ← endCovering start items
  return .container ⟨start, stop, indent⟩ kind items

def list (level : Level) (body : Nat → Parse (List Block)) (indent : Nat) : Parse Block :=
  listItems level body 1 indent (fun _ marker => marker = .list) .list

def orderedList (level : Level) (body : Nat → Parse (List Block)) (first indent : Nat) :
    Parse Block :=
  listItems level body 2 indent (fun count marker => marker = .ordered (first + count))
    (.orderedList first)

def task (body : Nat → Parse (List Block)) (indent : Nat) : Parse Block := do
  let opening ← eat
  let task ← directives
  bodied body indent opening.start (.task task)

def block (level : Level) (body : Nat → Parse (List Block)) (indent : Nat) :
    Marker → Parse Block
  | .header size => header level size indent
  | .task => task body indent
  | .list => list level body indent
  | .ordered first => orderedList level body first indent
  | .table => table level body indent
  | .separator => separator indent
  | .raw => rawBlock level.ruler indent
  | .paragraph => paragraph { level, indent, mode := .block }

def nextBlock (level : Level) (body : Nat → Parse (List Block)) (indent : Nat) :
    Parse (Option Block) := do
  match ← lineStart level.ruler with
  | none => return none
  | some measured =>
    if measured < indent then return none
    let marker ← dispatch level.room
    record (.block marker indent)
    return some (← block level body indent marker)

def blockTurn (level : Level) (body : Nat → Parse (List Block)) (indent : Nat)
    (bs : List Block) : Parse (Turn (List Block) (List Block)) := do
  match ← nextBlock level body indent with
  | none => return .done bs
  | some b => return .again (bs ++ [b])

def blocks (level : Level) (body : Nat → Parse (List Block)) (indent : Nat) :
    Parse (List Block) :=
  loop (blockTurn level body indent) []

/-- The body of a container when `room` bodies may be opened, itself included. -/
def body (ruler : Ruler) : (room : Nat) → (indent : Nat) → Parse (List Block)
  | 0, _ => return []
  | room + 1, indent => blocks { ruler, room } (body ruler room) indent

end Parse

end TaskMarkup
