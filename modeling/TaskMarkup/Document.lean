import TaskMarkup.Filter.Grammar
import TaskMarkup.Grammar.Block

/-!
Documents: the top-level blocks of a text, read one by one or all at once, and the parts of the text
that they cover. A text without blocks has a dummy as its only one.
-/

namespace TaskMarkup

structure Options where
  /-- The spaces that make a level of indentation; none counts as one. -/
  indentWidth : Nat := 2
  /-- How many bodies may be opened one inside the other. -/
  maxDepth : Nat := 32
  /-- How often a rule may look at tokens without eating one. -/
  maxPeeks : Nat := Lexer.defaultLimit
  /-- How many columns of indentation can be counted; without a value there is no end to it. -/
  maxColumns : Option Nat := some 0xffffffffffffffff
  deriving DecidableEq, Repr

namespace Options

def ruler (o : Options) : Ruler := ⟨max o.indentWidth 1, o.maxColumns⟩

def level (o : Options) : Level := ⟨o.ruler, o.maxDepth⟩

end Options

structure Reader where
  options : Options
  lexer : Lexer Cursor
  /-- The last block has been read. -/
  finished : Bool := false
  /-- A block has been read. -/
  started : Bool := false

abbrev Reading := EStateM Fault Reader

structure Excerpt where
  text : String
  block : Block

def Source.excerpt (s : Source) (b : Block) : Excerpt where
  text := String.ofList (s.slice b.start b.stop)
  block := b.relativeTo b.start

namespace Reader

def start (options : Options) (text : String) : Reader where
  options
  lexer := .start (Source.ofString text) options.maxPeeks {}

def source (r : Reader) : Source := r.lexer.source

def events (r : Reader) : List Event := r.lexer.observer.log.reverse

def run {α : Type} (rule : Parse α) : Reading α := fun r =>
  match rule r.lexer with
  | .ok a lexer => .ok a { r with lexer }
  | .error (.fault f) lexer => .error f { r with lexer }

def filter (precedence : Nat) : Reading (Except FilterError Filter) :=
  run (Rule.attempt (Filter.expression Filter.maxDepth precedence))

def next : Reading (Option Block) := do
  let r ← get
  if r.finished then return none
  let level := r.options.level
  match ← run (Parse.nextBlock level (Parse.body level.ruler level.room) 0) with
  | some b =>
    modify ({ · with started := true })
    return some b
  | none =>
    modify ({ · with started := true, finished := true })
    return if r.started then none else some (.dummy ⟨0, 0, 0⟩)

def take : (n : Nat) → Reading (List Block)
  | 0 => return []
  | n + 1 => do
    match ← next with
    | none => return []
    | some b => return b :: (← take n)

end Reader

/-- What the reading of a document gave: its blocks, up to a fault if there was one. -/
structure Transcript where
  blocks : List Block
  fault : Option Fault
  events : List Event

namespace Document

def readFrom : (n : Nat) → Reader → Transcript
  | 0, r => ⟨[], none, r.events⟩
  | n + 1, r =>
    match Reader.next.run r with
    | .ok none r => ⟨[], none, r.events⟩
    | .ok (some b) r =>
      let rest := readFrom n r
      { rest with blocks := b :: rest.blocks }
    | .error f r => ⟨[], some f, r.events⟩

/-- Reads a whole text. Each block covers a byte, but for a dummy that stands alone. -/
def read (options : Options) (text : String) : Transcript :=
  let r := Reader.start options text
  readFrom (r.source.size + 1) r

def blocks (options : Options) (text : String) : Except Fault (List Block) :=
  let t := read options text
  match t.fault with
  | none => .ok t.blocks
  | some f => .error f

def events (options : Options) (text : String) : List Event := (read options text).events

def excerpts (options : Options) (text : String) : Except Fault (List Excerpt) :=
  (blocks options text).map (List.map (Source.ofString text).excerpt)

end Document

end TaskMarkup
