import TaskMarkup.Lexer

/-!
Repetition of a rule. Every turn but the last eats a token, and each token covers a byte, so the
size of the source bounds the number of turns.
-/

namespace TaskMarkup

/-- What a turn decides: the result, or the value for the next turn. -/
inductive Turn (α β : Type)
  | done (result : α)
  | again (next : β)

namespace Rule

variable {ε σ α β : Type}

def turns (step : β → Rule ε σ (Turn α β)) : Nat → β → Rule ε σ α
  | 0, _ => throw (.fault .exhausted)
  | n + 1, b => do
    match ← step b with
    | .done a => return a
    | .again b => turns step n b

def loop (step : β → Rule ε σ (Turn α β)) (first : β) : Rule ε σ α := do
  turns step ((← get).source.size + 1) first

def eatUntil [Observer σ] (stop : Token → Bool) : Rule ε σ Unit :=
  loop (fun _ => do
    let t ← peek 0
    if t.tag = .eof || stop t then return .done ()
    let _ ← eat
    return .again ()) ()

def eatLine [Observer σ] : Rule ε σ Unit := do
  eatUntil (·.tag == .newline)
  let _ ← eatIf .newline

def eatInlineSpace [Observer σ] : Rule ε σ Unit := eatUntil (!·.tag.isInlineSpace)

def eatWhitespace [Observer σ] : Rule ε σ Unit :=
  eatUntil fun t => !(t.tag.isInlineSpace || t.tag == .newline)

def readUntil [Observer σ] (stop : Tag → Bool) : Rule ε σ (List Char) :=
  loop (fun text => do
    let t ← peek 0
    if t.tag.endsLine || stop t.tag then return .done text
    let t ← eat
    return .again (text ++ t.text)) []

end Rule

end TaskMarkup
