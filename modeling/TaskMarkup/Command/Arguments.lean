import TaskMarkup.Text.Decimal

namespace TaskMarkup.Command

inductive Request
  | parse (path : String) (format : Option String) (split : Bool)
  | filter (query : String) (file : Option String)
  | locate (path : String) (offset : Int)
  deriving DecidableEq, Repr

structure Invocation where
  config : Option String
  request : Request
  deriving DecidableEq, Repr

inductive Refusal
  | help | version | misuse
  deriving DecidableEq, Repr

inductive OptionName
  | config | format | file | split
  deriving DecidableEq, Repr

namespace OptionName

def long : OptionName → String
  | .config => "config"
  | .format => "format"
  | .file => "file"
  | .split => "split"

def short? : OptionName → Option Char
  | .config => some 'c'
  | .format => some 'f'
  | .file | .split => none

def takesValue : OptionName → Bool
  | .split => false
  | .config | .format | .file => true

def admits (o : OptionName) (value : String) : Bool :=
  o ≠ .format || ["tree", "json", "yaml"].contains value

end OptionName

def offset? (text : String) : Option Int :=
  let n? := match text.toList with
    | '-' :: ds => (Text.numeral? 10 ds).map fun n => -(n : Int)
    | '+' :: ds => (Text.numeral? 10 ds).map Int.ofNat
    | ds => (Text.numeral? 10 ds).map Int.ofNat
  n?.filter Text.isWord

structure Syntax where
  options : List OptionName
  operands : Nat
  signed : Option Nat := none
  hasVersion : Bool := false

/-- The arguments of a command sorted out; `waiting` is an option that has no value yet, `literal`
says that all further arguments are operands. -/
structure Given where
  options : List (OptionName × String) := []
  operands : List String := []
  waiting : Option OptionName := none
  literal : Bool := false

namespace Given

def value? (g : Given) (o : OptionName) : Option String := g.options.lookup o

def store (g : Given) (o : OptionName) (value : String) : Except Refusal Given :=
  if (g.value? o).isSome || !o.admits value then .error .misuse
  else .ok { g with options := g.options ++ [(o, value)], waiting := none }

/-- Takes an operand that there is room for. An offset is read at once, so a wrong one is refused
whatever comes behind it. -/
def operand (c : Syntax) (g : Given) (text : String) : Except Refusal Given :=
  let place := g.operands.length
  if place < c.operands && (c.signed ≠ some place || (offset? text).isSome) then
    .ok { g with operands := g.operands ++ [text] }
  else .error .misuse

def option (g : Given) (o : OptionName) (attached : Option String) : Except Refusal Given :=
  match o.takesValue, attached with
  | true, some value => g.store o value
  | true, none => .ok { g with waiting := some o }
  | false, none => g.store o ""
  | false, some _ => .error .misuse

def longOption (c : Syntax) (g : Given) (text : List Char) : Except Refusal Given :=
  let name := String.ofList (text.takeWhile (· ≠ '='))
  let attached :=
    match text.dropWhile (· ≠ '=') with
    | [] => none
    | _ :: value => some (String.ofList value)
  match c.options.find? (·.long == name) with
  | some o => g.option o attached
  | none =>
    if attached.isSome then .error .misuse
    else if name = "help" then .error .help
    else if name = "version" && c.hasVersion then .error .version
    else .error .misuse

def shortOption (c : Syntax) (g : Given) : List Char → Except Refusal Given
  | [] => .error .misuse
  | letter :: rest =>
    match c.options.find? (·.short? == some letter) with
    | some o =>
      let attached :=
        match rest with
        | [] => none
        | '=' :: value => some (String.ofList value)
        | value => some (String.ofList value)
      g.option o attached
    | none =>
      if letter = 'h' then .error .help
      else if letter = 'V' && c.hasVersion then .error .version
      else .error .misuse

def isNumberTail (point exponent : Bool) : List Char → Bool
  | [] => true
  | c :: cs =>
    if c.isDigit then isNumberTail point exponent cs
    else if c = '.' then !point && !exponent && isNumberTail true exponent cs
    else c = 'e' && !exponent && !cs.isEmpty && isNumberTail point true cs

def isSigned (c : Syntax) (g : Given) (text : List Char) : Bool :=
  c.signed = some g.operands.length && text.head?.any Char.isDigit && isNumberTail false false text

def plain (c : Syntax) (g : Given) (text : String) : Except Refusal Given :=
  match g.waiting with
  | some o => g.store o text
  | none => g.operand c text

def add (c : Syntax) (g : Given) (arg : String) : Except Refusal Given :=
  if g.literal then g.operand c arg
  else
    match arg.toList with
    | '-' :: c₁ :: rest =>
      if isSigned c g (c₁ :: rest) then g.plain c arg
      else if g.waiting.isSome then .error .misuse
      else if c₁ = '-' then
        if rest.isEmpty then .ok { g with literal := true } else g.longOption c rest
      else g.shortOption c (c₁ :: rest)
    | _ => g.plain c arg

def ofArguments (c : Syntax) (args : List String) : Except Refusal Given := do
  let g ← args.foldlM (add c) {}
  if g.waiting.isSome || g.operands.length < c.operands then .error .misuse
  return g

end Given

def root : Syntax := { options := [.config], operands := 0, hasVersion := true }

def parseSyntax : Syntax := { options := [.config, .format, .split], operands := 1 }

def filterSyntax : Syntax := { options := [.config, .file], operands := 1 }

def locateSyntax : Syntax := { options := [.config], operands := 2, signed := some 1 }

def subcommand (config : Option String) (name : String) (args : List String) :
    Except Refusal Invocation := do
  match name with
  | "parse" =>
    let g ← Given.ofArguments parseSyntax args
    return {
      config := (g.value? .config).or config
      request := .parse (g.operands.headD "") (g.value? .format) (g.value? .split).isSome }
  | "filter" =>
    let g ← Given.ofArguments filterSyntax args
    return {
      config := (g.value? .config).or config
      request := .filter (g.operands.headD "") (g.value? .file) }
  | "locate" =>
    let g ← Given.ofArguments locateSyntax args
    match (g.operands[1]?).bind offset? with
    | none => .error .misuse
    | some offset =>
      return {
        config := (g.value? .config).or config
        request := .locate (g.operands.headD "") offset }
  | "help" =>
    if args.isEmpty || ["parse", "filter", "locate", "help"].any ([·] == args) then .error .help
    else .error .misuse
  | _ => .error .misuse

def ofArguments : Given → List String → Except Refusal Invocation
  | _, [] => .error .misuse
  | g, arg :: args =>
    if g.waiting.isNone && !g.literal && !"-".toList.isPrefixOf arg.toList then
      subcommand (g.value? .config) arg args
    else do
      let g ← g.add root arg
      ofArguments g args

def parseArguments (args : List String) : Except Refusal Invocation := ofArguments {} args

end TaskMarkup.Command
