import TaskMarkup.Filter
import TaskMarkup.Lexer.Repeat
import TaskMarkup.Task.Tags

/-!
The filter grammar: `!` binds tighter than `&`, and `&` tighter than `|`; both binary operators
group to the left, and parentheses group as they stand. White space between tokens is skipped.
Nesting is limited, so a query that nests deeper is rejected.
-/

namespace TaskMarkup

inductive FilterError
  | unexpected (found : Tag) (offset : Nat)
  | unterminated (delimiter : Char) (offset : Nat)
  | missingTrackerId (offset : Nat)
  | unclosedParen (offset : Nat)
  | trailingInput (offset : Nat)
  | tooDeep (offset : Nat)
  deriving DecidableEq, Repr

def FilterError.message : FilterError → String
  | .unexpected found offset => "unexpected " ++ found.name ++ s!" at offset {offset}"
  | .unterminated delimiter offset =>
    s!"unterminated {delimiter} literal starting at offset {offset}"
  | .missingTrackerId offset => s!"missing tracker id after `track:` at offset {offset}"
  | .unclosedParen offset => s!"unclosed parenthesis opened at offset {offset}"
  | .trailingInput offset => s!"trailing input at offset {offset}"
  | .tooDeep offset => s!"filter nested too deeply at offset {offset}"

namespace Filter

def maxDepth : Nat := 64

def notPrecedence : Nat := 4

def Operator.ofTag? : Tag → Option Operator
  | .ampersand => some .and
  | .pipe => some .or
  | _ => none

open Rule

variable {σ : Type} [Observer σ]

abbrev Query (σ : Type) := Rule FilterError σ

def spanning (start stop : Nat) : Span := ⟨start, stop, 0⟩

def keyword (p : Predicate) : Query σ Filter := do
  let t ← eat
  return .predicate (spanning t.start t.stop) p

def literalTurn (opening : Token) (delimiter : Char) (text : List Char) :
    Query σ (Turn (String × Nat) (List Char)) := do
  let t ← peek 0
  if t.tag.endsLine then reject (.unterminated delimiter opening.start)
  let _ ← eat
  if t.tag = opening.tag then return .done (String.ofList text, t.stop)
  if t.tag = .backslash then
    if (← peekTag 0).endsLine then reject (.unterminated delimiter opening.start)
    let escaped ← eat
    return .again (text ++ escaped.text)
  return .again (text ++ t.text)

def delimitedText (opening : Token) (delimiter : Char) : Query σ (String × Nat) := do
  let _ ← eat
  loop (literalTurn opening delimiter) []

def tracker (t : Token) : Query σ Filter := do
  let _ ← eat
  if (← eatIf .colon).isNone then
    return .predicate (spanning t.start t.stop) (.track none)
  match ← eatIf .number with
  | none => reject (.missingTrackerId t.start)
  | some number => return .predicate (spanning t.start number.stop) (.track number.value?)

/-- A predicate, a negation or a group; `expression` reads an expression nested in it whose
operators bind tighter than the given precedence. -/
def primary (expression : Nat → Query σ Filter) : Query σ Filter := do
  let t ← peek 0
  match t.tag with
  | .bang =>
    let _ ← eat
    let operand ← expression notPrecedence
    return .not (spanning t.start operand.span.stop) operand
  | .asterisk => keyword .any
  | .at =>
    let _ ← eat
    let next ← peek 0
    if (next.tag = .word || next.tag = .number) && isTagName next.text then
      let _ ← eat
      return .predicate (spanning t.start next.stop) (.tag (some (String.ofList next.text)))
    return .predicate (spanning t.start t.stop) (.tag none)
  | .hash =>
    let _ ← eat
    match ← eatIf .number with
    | none => return .predicate (spanning t.start t.stop) (.priority none)
    | some number => return .predicate (spanning t.start number.stop) (.priority number.value?)
  | .quote =>
    let (needle, stop) ← delimitedText t '\x27'
    return .predicate (spanning t.start stop) (.literal needle)
  | .slash =>
    let (needle, stop) ← delimitedText t '/'
    return .predicate (spanning t.start stop) (.fuzzy needle)
  | .leftParen =>
    let _ ← eat
    let inner ← expression 0
    eatInlineSpace
    match ← eatIf .rightParen with
    | none => reject (.unclosedParen t.start)
    | some closing =>
      return inner.withSpan { inner.span with start := t.start, stop := closing.stop }
  | .word =>
    match String.ofList t.text with
    | "x" | "done" => keyword .done
    | "due" => keyword .due
    | "pin" => keyword .pin
    | "hide" => keyword .hide
    | "track" => tracker t
    | _ => reject (.unexpected t.tag t.start)
  | _ => reject (.unexpected t.tag t.start)

def chainTurn (expression : Nat → Query σ Filter) (precedence : Nat) (left : Filter) :
    Query σ (Turn Filter Filter) := do
  eatInlineSpace
  match Operator.ofTag? (← peekTag 0) with
  | none => return .done left
  | some op =>
    if op.precedence ≤ precedence then return .done left
    let _ ← eat
    let right ← expression op.precedence
    return .again (.binary { left.span with stop := right.span.stop } op left right)

def chain (expression : Nat → Query σ Filter) (precedence : Nat) : Query σ Filter := do
  eatInlineSpace
  loop (chainTurn expression precedence) (← primary expression)

/-- An expression whose operators bind tighter than a precedence, in which `depth` expressions may
be open around one another. -/
def expression : (depth : Nat) → (precedence : Nat) → Query σ Filter
  | 0, _ => do reject (.tooDeep (← peek 0).start)
  | depth + 1, precedence => chain (expression depth) precedence

def query : Query σ Filter := do
  let filter ← expression maxDepth 0
  eatWhitespace
  let next ← peek 0
  if next.tag = .eof then return filter
  reject (.trailingInput next.start)

def parse (text : String) : Except (Failure FilterError) Filter :=
  match query (Lexer.start (Source.ofString text) Lexer.defaultLimit ()) with
  | .ok filter _ => .ok filter
  | .error failure _ => .error failure

def parse? (text : String) : Option Filter := (parse text).toOption

end Filter

end TaskMarkup
