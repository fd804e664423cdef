import TaskMarkup.Event
import TaskMarkup.Lexer

/-!
What the grammars know of the text already eaten, kept up to date by watching the lexer.
-/

namespace TaskMarkup

structure Cursor where
  /-- Where the last eaten token ended that counts towards the span of a node. -/
  lastEnd : Nat := 0
  /-- While set, eaten tokens leave `lastEnd`. -/
  paused : Bool := false
  /-- Whether a word may start here: after white space and at the start. -/
  wordStart : Bool := true
  /-- How deep the current line is indented, once that is measured. -/
  lineIndent : Option Nat := none
  /-- What happened so far, latest first. -/
  log : List Event := []

namespace Cursor

def note (tag : Tag) (stop : Nat) (c : Cursor) : Cursor :=
  if tag = .eof then c
  else
    { c with
      lastEnd := if c.paused then c.lastEnd else stop
      wordStart := tag.isInlineSpace || tag == .newline
      lineIndent := if tag = .newline then none else c.lineIndent }

def onEat (t : Token) : Cursor → Cursor := note t.tag t.stop

instance : Observer Cursor := ⟨onEat⟩

end Cursor

namespace Rule

variable {ε α : Type}

def cursor : Rule ε Cursor Cursor := observer

def setPaused (paused : Bool) : Rule ε Cursor Unit :=
  modifyObserver fun c => { c with paused }

def setLineIndent (lineIndent : Option Nat) : Rule ε Cursor Unit :=
  modifyObserver fun c => { c with lineIndent }

def record (e : Event) : Rule ε Cursor Unit :=
  modifyObserver fun c => { c with log := e :: c.log }

/-- Runs a rule whose tokens do not count towards the span of any node. -/
def paused (rule : Rule ε Cursor α) : Rule ε Cursor α := do
  setPaused true
  let a ← rule
  setPaused false
  return a

def endFrom (start : Nat) : Rule ε Cursor Nat := do return max (← cursor).lastEnd start

end Rule

abbrev Parse := Rule Empty Cursor

end TaskMarkup
