import TaskMarkup.Cursor
import TaskMarkup.Lexer.Repeat

namespace TaskMarkup

def Tag.endsDirective (t : Tag) : Bool := t.isInlineSpace || t.endsLine || t == .rightBracket

namespace Parse

open Rule

abbrev InDirective := Rule DirectiveError Cursor

def expect (directive : String) (tags : List Tag) : InDirective Token := do
  let t ← peek 0
  unless t.tag ∈ tags do reject (.missingValue directive t.start)
  eat

def datePart (offset : Nat) (tag : Tag) : InDirective Token := do
  match ← eatIf tag with
  | none => reject (.invalidDate offset)
  | some t => return t

def date : InDirective Date := do
  let offset := (← peek 0).start
  let year ← datePart offset .number
  let _ ← datePart offset .dash
  let month ← datePart offset .number
  let _ ← datePart offset .dash
  let day ← datePart offset .number
  let value (t : Token) := t.value?.getD 0
  match Date.ofYearMonthDay? (value year) (value month) (value day) with
  | none => reject (.invalidDate offset)
  | some d => return d

def imagePath : InDirective (List Char) :=
  loop (fun path => do
    let next ← peek 0
    if next.tag.endsDirective then return .done path
    let _ ← eat
    if next.tag = .backslash then
      if (← peekTag 0).endsLine then return .done path
      let escaped ← eat
      return .again (path ++ escaped.text)
    return .again (path ++ next.text)) []

/-- An optional width and the path of an image. A number is a width only with white space behind
it. -/
def image : InDirective Image := do
  let t ← peek 0
  unless t.tag.isInlineSpace do reject (.missingValue "image" t.start)
  eatInlineSpace
  let first ← peek 0
  let mut width := none
  if first.tag = .number then
    if (← peekTag 1).isInlineSpace then
      let _ ← eat
      width := first.value?
      eatInlineSpace
  let path ← imagePath
  if path.isEmpty then reject (.missingValue "image" first.start)
  return { path := String.ofList path, width }

def directiveBody : InDirective Directive := do
  let t ← peek 0
  match t.tag with
  | .at =>
    let _ ← eat
    let name ← expect "@" [.word, .number]
    unless isTagName name.text do reject (.invalidTag (String.ofList name.text))
    return .tag (String.ofList name.text)
  | .hash =>
    let _ ← eat
    let number ← expect "#" [.number]
    return .priority (number.value?.getD 0)
  | .word =>
    match String.ofList t.text with
    | "x" =>
      let _ ← eat
      return .done
    | "hide" =>
      let _ ← eat
      return .hide
    | "pin" =>
      let _ ← eat
      return .pin
    | "due" =>
      let _ ← eat
      let _ ← expect "due" [.colon]
      return .due (← date)
    | "created" =>
      let _ ← eat
      let _ ← expect "created" [.colon]
      return .created (← date)
    | "track" =>
      let _ ← eat
      let _ ← expect "track" [.colon]
      let number ← expect "track" [.number]
      return .track (number.value?.getD 0)
    | "image" =>
      let _ ← eat
      return .image (← image)
    | word =>
      match Admonition.ofKeyword? word with
      | none => reject (.unknown t.start)
      | some kind =>
        let _ ← eat
        return .admonition kind
  | _ => reject (.unknown t.start)

def directive : InDirective Directive := do
  let d ← directiveBody
  let next ← peek 0
  unless next.tag.endsDirective do reject (.noDelimiter next.start)
  return d

def directives : Parse Task :=
  loop (fun task => do
    eatInlineSpace
    match ← peekTag 0 with
    | .rightBracket =>
      let _ ← eat
      return .done task
    | .newline | .eof => return .done task
    | _ =>
      match ← attempt directive with
      | .ok d => return .again (task.obey d)
      | .error e =>
        record (.skipped e)
        eatUntil (·.tag.endsDirective)
        return .again task) {}

end Parse

end TaskMarkup
