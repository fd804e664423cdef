import TaskMarkup.Inline
import TaskMarkup.Task

namespace TaskMarkup

inductive CellSpan
  | count (n : Nat)
  | fill
  deriving DecidableEq, Repr

structure CellConfig where
  width : CellSpan := .count 1
  height : CellSpan := .count 1
  invisible : Bool := false
  deriving DecidableEq, Repr

/-- A list and a numbered list hold items, a table holds rows, a row holds cells. The flag of a
table says whether its first row is a header, that of a row whether a divider closes it. -/
inductive Container
  | list
  | orderedList (first : Nat)
  | listItem
  | table (header : Bool)
  | tableRow (divider : Bool)
  | tableCell (config : CellConfig)
  | task (task : Task)
  deriving DecidableEq

def Container.name : Container → String
  | .list => "List"
  | .orderedList _ => "OrderedList"
  | .listItem => "ListItem"
  | .table _ => "Table"
  | .tableRow _ => "TableRow"
  | .tableCell _ => "TableCell"
  | .task _ => "Meta"

/-- The dummy stands for a text without blocks. -/
inductive Block
  | dummy (span : Span)
  | separator (span : Span)
  | raw (span : Span) (children : List Inline)
  | paragraph (span : Span) (children : List Inline)
  | header (span : Span) (size : Nat) (child : Block)
  | container (span : Span) (kind : Container) (children : List Block)

namespace Block

instance : Inhabited Block := ⟨.dummy ⟨0, 0, 0⟩⟩

def span : Block → Span
  | .dummy s | .separator s | .raw s _ | .paragraph s _ | .header s _ _ | .container s _ _ => s

def start (b : Block) : Nat := b.span.start

def stop (b : Block) : Nat := b.span.stop

def blocks : Block → List Block
  | .container _ _ bs => bs
  | .header _ _ b => [b]
  | .dummy _ | .separator _ | .raw .. | .paragraph .. => []

def inlines : Block → List Inline
  | .raw _ cs | .paragraph _ cs => cs
  | .dummy _ | .separator _ | .header .. | .container .. => []

def task? : Block → Option Task
  | .container _ (.task t) _ => some t
  | _ => none

def kindName : Block → String
  | .dummy _ => "Dummy"
  | .separator _ => "Separator"
  | .raw .. => "RawBlock"
  | .paragraph .. => "Paragraph"
  | .header .. => "Header"
  | .container _ kind _ => kind.name

mutual

def plainText : Block → String
  | .dummy _ | .separator _ => ""
  | .raw _ cs | .paragraph _ cs => Inline.plainTexts cs
  | .header _ _ b => b.plainText
  | .container _ _ bs => "\n".intercalate (plainTexts bs)

def plainTexts : List Block → List String
  | [] => []
  | b :: bs => if b.plainText.isEmpty then plainTexts bs else b.plainText :: plainTexts bs

end

mutual

def mapSpan (f : Span → Span) : Block → Block
  | .dummy s => .dummy (f s)
  | .separator s => .separator (f s)
  | .raw s cs => .raw (f s) (Inline.mapSpans f cs)
  | .paragraph s cs => .paragraph (f s) (Inline.mapSpans f cs)
  | .header s size b => .header (f s) size (b.mapSpan f)
  | .container s kind bs => .container (f s) kind (mapSpans f bs)

def mapSpans (f : Span → Span) : List Block → List Block
  | [] => []
  | b :: bs => b.mapSpan f :: mapSpans f bs

end

def relativeTo (origin : Nat) (b : Block) : Block := b.mapSpan (Span.relativeTo origin)

theorem mapSpans_eq_map (f : Span → Span) (bs : List Block) :
    mapSpans f bs = bs.map (mapSpan f) := by
  induction bs with
  | nil => rfl
  | cons b bs ih => simp [mapSpans, ih]

theorem plainTexts_eq_filter (bs : List Block) :
    plainTexts bs = (bs.map plainText).filter (!·.isEmpty) := by
  induction bs with
  | nil => rfl
  | cons b bs ih =>
    by_cases h : b.plainText.isEmpty <;> simp [plainTexts, ih, h]

end Block

end TaskMarkup
