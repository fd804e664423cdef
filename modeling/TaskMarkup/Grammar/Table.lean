import TaskMarkup.Grammar.Inline

/-!
Tables. Each bar opens a cell, and a line may hold several. The first line of a cell is a paragraph
that ends at the next bar; the last cell of a line may go on with blocks one level deeper. A bar
with a dash behind it closes the row, and the first row is a header if a single plain line of cells
was written before that.
-/

namespace TaskMarkup

def CellSpan.ofToken? (t : Token) : Option CellSpan :=
  match t.tag with
  | .number => some (.count (t.value?.getD 1))
  | .asterisk => some .fill
  | _ => none

inductive TableLine
  | divider
  | cells (nested : Bool)

/-- The rows read so far, and the row that is still open with the number of its lines. -/
structure TableState where
  rows : List Block := []
  header : Bool := false
  cells : List Block := []
  rowStart : Nat
  lines : Nat := 0
  nested : Bool := false

namespace Parse

open Rule

def endCovering (start : Nat) (children : List Block) : Parse Nat := do
  return children.foldl (fun stop child => max stop child.stop) (← endFrom start)

def cellSpan (n : Nat) : Parse (Option CellSpan) := do return CellSpan.ofToken? (← peek n)

def cellSize (gap : Nat) : Parse CellConfig := do
  let width ← cellSpan (gap + 1)
  let height ← cellSpan (gap + 3)
  match width, height with
  | some width, some height =>
    if (← peekTag (gap + 2)) = .colon then
      if (← peekTag (gap + 4)) = .rightBracket then
        eatMany (gap + 5)
        return { width, height }
    return {}
  | _, _ => return {}

/-- An optional config in brackets: a hash hides the cell, two spans with a colon between them give
its width and height. -/
def cellConfig : Parse CellConfig := do
  let gap := if (← peekTag 0).isInlineSpace then 1 else 0
  if (← peekTag gap) ≠ .leftBracket then return {}
  if (← peekTag (gap + 1)) = .hash then
    if (← peekTag (gap + 2)) = .rightBracket then
      eatMany (gap + 3)
      return { invisible := true }
  cellSize gap

def cell (bar : Token) (indent : Nat) (config : CellConfig) (children : List Block) :
    Parse Block := do
  let stop ← endCovering bar.start children
  return .container ⟨bar.start, stop, indent⟩ (.tableCell config) children

def cellEnd (body : Nat → Parse (List Block)) (indent : Nat) (cells : List Block) (bar : Token)
    (config : CellConfig) (children : List Block) :
    Parse (Turn (List Block × TableLine) (List Block)) := do
  match ← peekTag 0 with
  | .pipe => return .again (cells ++ [← cell bar indent config children])
  | .newline =>
    let _ ← eat
    let blocks ← body (indent + 1)
    let cell ← cell bar indent config (children ++ blocks)
    return .done (cells ++ [cell], .cells !blocks.isEmpty)
  | _ => return .done (cells ++ [← cell bar indent config children], .cells false)

def cellBehind (level : Level) (body : Nat → Parse (List Block)) (indent : Nat)
    (cells : List Block) (bar : Token) : Parse (Turn (List Block × TableLine) (List Block)) := do
  if (← peekTag 0) = .dash then
    eatLine
    return .done (cells, .divider)
  let config ← cellConfig
  eatInlineSpace
  let next ← peekTag 0
  if !next.endsLine && next ≠ .pipe then
    let child ← paragraph { level, indent := indent + 1, mode := .cellLine }
    cellEnd body indent cells bar config [child]
  else cellEnd body indent cells bar config []

def cellTurn (level : Level) (body : Nat → Parse (List Block)) (indent : Nat)
    (cells : List Block) : Parse (Turn (List Block × TableLine) (List Block)) := do
  let bar ← eat
  cellBehind level body indent cells bar

def tableLine (level : Level) (body : Nat → Parse (List Block)) (indent : Nat)
    (cells : List Block) : Parse (List Block × TableLine) :=
  loop (cellTurn level body indent) cells

def tableRow (indent : Nat) (s : TableState) (divider : Bool) : Parse Block := do
  let stop ← endCovering s.rowStart s.cells
  return .container ⟨s.rowStart, stop, indent⟩ (.tableRow divider) s.cells

def tableLineEnd (indent : Nat) (s : TableState) : TableLine → Parse TableState
  | .divider => do
    if s.cells.isEmpty then return { s with lines := 0, nested := false }
    let row ← tableRow indent s true
    return {
      rows := s.rows ++ [row]
      header := s.header || (s.rows.isEmpty && s.lines ≤ 1 && !s.nested)
      rowStart := s.rowStart }
  | .cells nested => return { s with lines := s.lines + 1, nested := s.nested || nested }

def tableStepFrom (level : Level) (body : Nat → Parse (List Block)) (indent : Nat)
    (s : TableState) (rowStart : Nat) : Parse TableState := do
  let (cells, line) ← tableLine level body indent s.cells
  tableLineEnd indent { s with cells, rowStart } line

def tableStep (level : Level) (body : Nat → Parse (List Block)) (indent : Nat) (s : TableState) :
    Parse TableState := do
  if s.cells.isEmpty then tableStepFrom level body indent s (← peek 0).start
  else tableStepFrom level body indent s s.rowStart

def tableTurn (level : Level) (body : Nat → Parse (List Block)) (indent : Nat) (s : TableState) :
    Parse (Turn TableState TableState) := do
  let s ← tableStep level body indent s
  nextTurn level indent (· = .table) s

def tableRows (indent : Nat) (s : TableState) : Parse (List Block) := do
  if s.cells.isEmpty then return s.rows
  return s.rows ++ [← tableRow indent s false]

def table (level : Level) (body : Nat → Parse (List Block)) (indent : Nat) : Parse Block := do
  let start := (← peek 0).start
  let s ← loop (tableTurn level body indent) ({ rowStart := start } : TableState)
  let rows ← tableRows indent s
  let stop ← endCovering start rows
  return .container ⟨start, stop, indent⟩ (.table s.header) rows

end Parse

end TaskMarkup
