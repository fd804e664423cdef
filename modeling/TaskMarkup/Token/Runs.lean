import TaskMarkup.Token

namespace TaskMarkup

namespace Text

def isPlain (c : Char) : Bool := c != ' ' && (Tag.ofChar? c).isNone

def joins (a b : Char) : Bool := (a == ' ' && b == ' ') || (isPlain a && isPlain b)

def runs (cs : List Char) : List (List Char) := cs.splitBy joins

/-- A number has at most eight digits, so that a longer run of digits is a word. -/
def isNumeral (run : List Char) : Bool :=
  !run.isEmpty && run.length ≤ 8 && run.all Char.isDigit

end Text

def Tag.ofRun (run : List Char) : Tag :=
  match run.head? with
  | none => .word
  | some c =>
    match Tag.ofChar? c with
    | some t => t
    | none => if c = ' ' then .spaces else if Text.isNumeral run then .number else .word

namespace Token

def place : Nat → List (List Char) → List Token
  | _, [] => []
  | start, run :: rest =>
    { tag := Tag.ofRun run, start, text := run } :: place (start + Text.byteSize run) rest

end Token

/-- The tokens of a text, in order and without an end sentinel. -/
def tokenize (cs : List Char) : List Token := Token.place 0 (Text.runs cs)

theorem Token.flatten_text_place (start : Nat) (runs : List (List Char)) :
    ((place start runs).map Token.text).flatten = runs.flatten := by
  induction runs generalizing start with
  | nil => rfl
  | cons run rest ih => simp [place, ih]

theorem Token.length_place (start : Nat) (runs : List (List Char)) :
    (place start runs).length = runs.length := by
  induction runs generalizing start with
  | nil => rfl
  | cons run rest ih => simp [place, ih]

end TaskMarkup
