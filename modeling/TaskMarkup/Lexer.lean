import TaskMarkup.Lookahead
import TaskMarkup.Source
import TaskMarkup.Token.Runs

/-!
The lexer hands out the tokens of a source one by one. Tokens move from `upcoming` into the ring
`ready` only when a rule looks at them, and past the last token every look meets the sentinel
`Tag.eof`. Looks since the last eaten token are counted, and a rule that reaches the limit stops
with a fault. An observer sees each eaten token.
-/

namespace TaskMarkup

class Observer (σ : Type) where
  onEat : Token → σ → σ

instance : Observer Unit where
  onEat _ s := s

structure Lexer (σ : Type) where
  source : Source
  ready : Lookahead
  upcoming : List Token
  peeks : Nat
  limit : Nat
  observer : σ

/-- Why a rule ends without a result: a fault, or input that the grammar rejects. -/
inductive Failure (ε : Type)
  | fault (f : Fault)
  | rejected (e : ε)
  deriving DecidableEq, Repr

abbrev Rule (ε σ : Type) := EStateM (Failure ε) (Lexer σ)

namespace Lexer

variable {σ : Type}

def defaultLimit : Nat := 100

def start (source : Source) (limit : Nat) (observer : σ) : Lexer σ where
  source
  ready := .empty
  upcoming := tokenize source.chars
  peeks := 0
  limit := max limit 1
  observer

def pull (s : Lexer σ) : Lexer σ :=
  match s.upcoming with
  | [] => { s with ready := s.ready.push (Token.eof s.source.size) }
  | t :: rest => { s with ready := s.ready.push t, upcoming := rest }

def pullMany : Nat → Lexer σ → Lexer σ
  | 0, s => s
  | n + 1, s => pullMany n s.pull

def fill (s : Lexer σ) (n : Nat) : Lexer σ := s.pullMany (n - s.ready.size)

def nextOffset (s : Lexer σ) : Nat :=
  if 0 < s.ready.size then (s.ready.get 0).start
  else
    match s.upcoming with
    | [] => s.source.size
    | t :: _ => t.start

def atEof (s : Lexer σ) : Bool := 0 < s.ready.size && (s.ready.get 0).tag == .eof

/-- Drops the next token. The end sentinel is no progress, so it leaves the count of looks. -/
def advance [Observer σ] (t : Token) (s : Lexer σ) : Lexer σ :=
  { s with
    ready := s.ready.pop
    peeks := if t.tag = .eof then s.peeks else 0
    observer := Observer.onEat t s.observer }

end Lexer

namespace Rule

variable {ε σ α : Type}

def reject (e : ε) : Rule ε σ α := throw (.rejected e)

def attempt {δ : Type} (rule : Rule ε σ α) : Rule δ σ (Except ε α) := fun s =>
  match rule s with
  | .ok a s => .ok (.ok a) s
  | .error (.rejected e) s => .ok (.error e) s
  | .error (.fault f) s => .error (.fault f) s

def peek (n : Nat) : Rule ε σ Token := fun s =>
  if lookaheadSize ≤ n then .error (.fault (.lookahead n)) s
  else
    let s := { s with peeks := s.peeks + 1 }
    if s.limit ≤ s.peeks then .error (.fault (.stalled s.peeks s.nextOffset)) s
    else
      let s := s.fill (n + 1)
      .ok (s.ready.get n) s

def peekTag (n : Nat) : Rule ε σ Tag := do return (← peek n).tag

def eat [Observer σ] : Rule ε σ Token := do
  let t ← peek 0
  modify (·.advance t)
  return t

def observer : Rule ε σ σ := do return (← get).observer

def modifyObserver (f : σ → σ) : Rule ε σ Unit :=
  modify fun s => { s with observer := f s.observer }

def peekIf (tag : Tag) (n : Nat) : Rule ε σ (Option Token) := do
  let t ← peek n
  return if t.tag = tag then some t else none

def eatIf [Observer σ] (tag : Tag) : Rule ε σ (Option Token) := do
  match ← peekIf tag 0 with
  | none => return none
  | some _ => return some (← eat)

def peekAll : Nat → List Tag → Rule ε σ Bool
  | _, [] => return true
  | n, tag :: rest => do
    if (← peekTag n) = tag then peekAll (n + 1) rest else return false

def eatMany [Observer σ] : Nat → Rule ε σ Unit
  | 0 => return ()
  | n + 1 => do
    let _ ← eat
    eatMany n

/-- How often the character of a token stands in the source from the token's start on. Tokens that
do not stand for one character count once. -/
def repeats (t : Token) : Rule ε σ Nat := do
  match t.tag.char? with
  | none => return 1
  | some c => if t.size = 1 then return (← get).source.repeats c t.start else return 1

def distance (start stop : Nat) : Rule ε σ Nat :=
  if start ≤ stop then return stop - start else throw (.fault (.overflow .subtract))

def checkOffset (offset : Nat) : Rule ε σ Unit := do
  let source := (← get).source
  if source.size < offset then throw (.fault (.outside offset source.size))
  match source.charAround? offset with
  | none => return ()
  | some (c, start) => throw (.fault (.insideChar offset c start))

def repeatsBetween (tag : Tag) (start stop : Nat) : Rule ε σ Nat := do
  match tag.char? with
  | none => return 1
  | some c =>
    if (← distance start stop) ≠ 1 then return 1
    checkOffset start
    return (← get).source.repeats c start

end Rule

end TaskMarkup
