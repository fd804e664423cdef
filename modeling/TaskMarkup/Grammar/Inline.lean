import TaskMarkup.Grammar.Line
import TaskMarkup.Block
import TaskMarkup.Text.Blank

/-!
The inline grammar. One loop collects plain text and opens a loop of the same kind for each styled
span; the styles open around a loop are its stops, innermost first. A delimiter of the innermost
stop closes its span, one of an outer stop ends the spans inside it without closing them, and any
other opens a span. Nothing fails: a span without its closing delimiter ends with its content.
-/

namespace TaskMarkup

namespace Style

def length (s : Style) : Nat := s.mark.2

/-- The style that a run of `run` delimiters stands for. An open style of just that length comes
first, then the innermost open one that fits into the run, then the longest that fits. -/
def choose (stops : List Style) (tag : Tag) (run : Nat) : Option Style :=
  let ofTag (s : Style) : Bool := s.mark.1 = tag
  let openHere := stops.filter ofTag
  openHere.find? (·.length = run)
    <|> openHere.find? (·.length ≤ run)
    <|> (all.filter ofTag).reverse.find? (·.length ≤ run)

end Style

inductive ParagraphMode
  | block | singleLine | cellLine
  deriving DecidableEq, Repr

structure ParagraphContext where
  level : Level
  indent : Nat
  mode : ParagraphMode

/-- Why an inline loop ended: its own delimiter is next, that of an outer span is next, a style that
ends with its line met the line's end, or the paragraph is over. -/
inductive InlineStop
  | close | interrupt | lineEnd | over
  deriving DecidableEq, Repr

structure TextRun where
  start : Nat
  stop : Nat
  text : List Char

structure InlineContent where
  nodes : List Inline := []
  pending : Option TextRun := none

namespace TextRun

def extend (run : Option TextRun) (t : Token) (text : List Char) : TextRun :=
  match run with
  | none => { start := t.start, stop := t.stop, text }
  | some r => { r with stop := t.stop, text := r.text ++ text }

def toInline (indent : Nat) (r : TextRun) : Inline :=
  .text ⟨r.start, r.stop, indent⟩ (String.ofList r.text)

end TextRun

namespace InlineContent

def push (c : InlineContent) (t : Token) (text : List Char) : InlineContent :=
  { c with pending := some (.extend c.pending t text) }

def flush (c : InlineContent) (indent : Nat) : List Inline :=
  c.nodes ++ (c.pending.map (·.toInline indent)).toList

def add (c : InlineContent) (indent : Nat) (node : Inline) : InlineContent :=
  { nodes := c.flush indent ++ [node], pending := none }

end InlineContent

namespace Parse

open Rule

def continueParagraph (p : ParagraphContext) : Parse (Option Token) := do
  let newline ← eat
  let measured ← measureIndent p.level.ruler
  if (← peekTag 0).endsLine then return none
  setLineIndent (some measured)
  if measured < p.indent then return none
  if (← dispatch p.level.room) = .paragraph then return some newline
  return none

def escape (c : InlineContent) : Parse InlineContent := do
  let backslash ← eat
  if (← peekTag 0).endsLine then return c.push backslash ['\\']
  let escaped ← eat
  return (c.push backslash []).push escaped escaped.text

def rawInline (indent : Nat) (t : Token) : Parse Inline := do
  let count := if 2 ≤ (← repeats t) then 2 else 1
  eatMany count
  let (stop, run) ← loop (fun (stop, run) => do
    let next ← peek 0
    if next.tag.endsLine then return .done (stop, run)
    if next.tag = .backtick then
      if count ≤ (← repeats next) then
        eatMany count
        return .done (next.start + count, run)
    let next ← eat
    return .again (next.stop, some (TextRun.extend run next next.text)))
    (t.start + count, none)
  let children := (run.map (TextRun.toInline indent)).toList
  return .raw ⟨t.start, stop, indent⟩ (count = 2) children

def linkAhead : Parse Bool := do
  let tag ← peekTag 1
  return !(tag.isInlineSpace || tag.endsLine || tag == .rightAngle)

def link (indent : Nat) : Parse Inline := do
  let opening ← eat
  let target ← readUntil fun tag => tag == .semicolon || tag == .rightAngle
  let mut caption := none
  if (← eatIf .semicolon).isSome then
    eatInlineSpace
    let text := Text.trimEnd (← readUntil (· == .rightAngle))
    unless text.isEmpty do caption := some (String.ofList text)
  let _ ← eatIf .rightAngle
  let stop ← endFrom opening.start
  return .link ⟨opening.start, stop, indent⟩ (String.ofList (Text.trimEnd target)) caption

def tagAhead : Parse Bool := do
  if (← cursor).wordStart then
    let next ← peek 1
    return (next.tag == .word || next.tag == .number) && isTagName next.text
  else return false

def tagRef (indent : Nat) : Parse Inline := do
  let sign ← eat
  let name ← eat
  let child := .text ⟨name.start, name.stop, indent⟩ (String.ofList name.text)
  return .tagRef ⟨sign.start, name.stop, indent⟩ child

def styled (indent : Nat) (style : Style) (inner : Parse (List Inline × InlineStop)) :
    Parse (Inline × InlineStop) := do
  let start := (← peek 0).start
  eatMany style.length
  let opened ← endFrom start
  let (children, ending) ← inner
  let mut stop := (children.getLast?.map (·.span.stop)).getD opened
  if ending = .close then
    eatMany style.length
    stop := (← cursor).lastEnd
  return (.styled ⟨start, stop, indent⟩ style children, ending)

def literal (c : InlineContent) : Parse InlineContent := do
  let t ← eat
  return c.push t t.text

def inlineTurn (p : ParagraphContext) (stops : List Style)
    (inner : List Style → Parse (List Inline × InlineStop)) (c : InlineContent) :
    Parse (Turn (List Inline × InlineStop) InlineContent) := do
  let finish (ending : InlineStop) := Turn.done (c.flush p.indent, ending)
  let t ← peek 0
  match t.tag with
  | .eof => return finish .over
  | .newline =>
    if stops.any Style.singleLine then return finish .lineEnd
    else if p.mode ≠ .block then return finish .over
    else
      match ← continueParagraph p with
      | none => return finish .over
      | some newline => return .again (c.push newline ['\n'])
  | .pipe =>
    if p.mode = .cellLine then return finish .over
    else return .again (← literal c)
  | .backslash => return .again (← escape c)
  | .asterisk | .tilde | .caret =>
    match Style.choose stops t.tag (← repeats t) with
    | none => return .again (← literal c)
    | some style =>
      if stops.head? = some style then return finish .close
      else if style ∈ stops then return finish .interrupt
      else
        let (node, ending) ← styled p.indent style (inner (style :: stops))
        let c := c.add p.indent node
        return if ending = .over then .done (c.nodes, .over) else .again c
  | .backtick => return .again (c.add p.indent (← rawInline p.indent t))
  | .leftAngle =>
    if ← linkAhead then return .again (c.add p.indent (← link p.indent))
    else return .again (← literal c)
  | .at =>
    if ← tagAhead then return .again (c.add p.indent (← tagRef p.indent))
    else return .again (← literal c)
  | _ => return .again (← literal c)

def inlines (p : ParagraphContext) : Nat → List Style → Parse (List Inline × InlineStop)
  | 0, _ => throw (.fault .exhausted)
  | n + 1, stops => loop (inlineTurn p stops (inlines p n)) {}

/-- The inline content of a paragraph and where the paragraph ends. No style is open twice, which
bounds how deep spans nest. -/
def paragraph (p : ParagraphContext) : Parse Block := do
  let start := (← peek 0).start
  let (children, _) ← inlines p (Style.all.length + 1) []
  let stop := children.foldl (fun stop child => max stop child.span.stop) (← endFrom start)
  return .paragraph ⟨start, stop, p.indent⟩ children

end Parse

end TaskMarkup
