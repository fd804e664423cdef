import TaskMarkup.Text.Bytes
import TaskMarkup.Text.Decimal

namespace TaskMarkup

inductive Tag
  | backslash | asterisk | tilde | backtick | caret
  | leftAngle | rightAngle | semicolon | at | hash
  | leftBracket | rightBracket | dash | pipe | equals
  | dot | colon | leftParen | rightParen | bang
  | ampersand | quote | slash | comma | newline | tab
  | spaces | number | word
  | eof
  deriving DecidableEq, Repr

namespace Tag

def char? : Tag → Option Char
  | .backslash => some '\\'
  | .asterisk => some '*'
  | .tilde => some '~'
  | .backtick => some '\x60'
  | .caret => some '^'
  | .leftAngle => some '<'
  | .rightAngle => some '>'
  | .semicolon => some ';'
  | .at => some '@'
  | .hash => some '#'
  | .leftBracket => some '['
  | .rightBracket => some ']'
  | .dash => some '-'
  | .pipe => some '|'
  | .equals => some '='
  | .dot => some '.'
  | .colon => some ':'
  | .leftParen => some '('
  | .rightParen => some ')'
  | .bang => some '!'
  | .ampersand => some '&'
  | .quote => some '\x27'
  | .slash => some '/'
  | .comma => some ','
  | .newline => some '\n'
  | .tab => some '\t'
  | .spaces | .number | .word | .eof => none

def name : Tag → String
  | .backslash => "Backslash"
  | .asterisk => "Asterisk"
  | .tilde => "Tilde"
  | .backtick => "Backtick"
  | .caret => "Caret"
  | .leftAngle => "LeftAngle"
  | .rightAngle => "RightAngle"
  | .semicolon => "Semicolon"
  | .at => "At"
  | .hash => "Hash"
  | .leftBracket => "LeftBracket"
  | .rightBracket => "RightBracket"
  | .dash => "Dash"
  | .pipe => "Pipe"
  | .equals => "Equals"
  | .dot => "Dot"
  | .colon => "Colon"
  | .leftParen => "LeftParen"
  | .rightParen => "RightParen"
  | .bang => "Bang"
  | .ampersand => "Ampersand"
  | .quote => "Quote"
  | .slash => "Slash"
  | .comma => "Comma"
  | .newline => "Newline"
  | .tab => "Tab"
  | .spaces => "Spaces"
  | .number => "Number"
  | .word => "Word"
  | .eof => "Eof"

def reserved : List Tag :=
  [.backslash, .asterisk, .tilde, .backtick, .caret, .leftAngle, .rightAngle, .semicolon, .at,
    .hash, .leftBracket, .rightBracket, .dash, .pipe, .equals, .dot, .colon, .leftParen,
    .rightParen, .bang, .ampersand, .quote, .slash, .comma, .newline, .tab]

def all : List Tag := reserved ++ [.spaces, .number, .word, .eof]

def ofChar? (c : Char) : Option Tag := reserved.find? (·.char? == some c)

def isInlineSpace (t : Tag) : Bool := t == .spaces || t == .tab

def endsLine (t : Tag) : Bool := t == .newline || t == .eof

theorem mem_all (t : Tag) : t ∈ all := by cases t <;> decide

theorem ofChar?_eq_some_iff {c : Char} {t : Tag} : ofChar? c = some t ↔ t.char? = some c := by
  constructor
  · intro h
    simpa using List.find?_some h
  · intro h
    cases t <;> simp only [char?, Option.some.injEq, reduceCtorEq] at h <;> subst h <;> rfl

end Tag

structure Token where
  tag : Tag
  start : Nat
  text : List Char
  deriving DecidableEq, Repr

namespace Token

def eof (offset : Nat) : Token := { tag := .eof, start := offset, text := [] }

def size (t : Token) : Nat := Text.byteSize t.text

def stop (t : Token) : Nat := t.start + t.size

def value? (t : Token) : Option Nat :=
  if t.tag = .number then some (Text.decimal t.text) else none

end Token

end TaskMarkup
