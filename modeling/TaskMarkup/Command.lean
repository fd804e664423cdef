import TaskMarkup.Command.Arguments
import TaskMarkup.Files
import TaskMarkup.Filter.Evaluate
import TaskMarkup.Node.Encoding
import TaskMarkup.Node.Locate
import TaskMarkup.Node.Outline
import TaskMarkup.Settings.Layers
import TaskMarkup.Text.Utf8
import TaskMarkup.Value.Json
import TaskMarkup.Value.Yaml

namespace TaskMarkup

inductive CommandError
  | settings (e : SettingsError)
  | unreadable (path : String) (e : FileError)
  | rejectedFilter (query : String)
  | noNode (offset : Int)
  | fault (f : Fault)

namespace CommandError

def message : CommandError → String
  | .settings e => "Failed to load configuration: " ++ e.message
  | .unreadable path e => s!"Error reading {path}: " ++ e.message
  | .rejectedFilter query => s!"Invalid filter: {query}"
  | .noNode offset => s!"No node at offset {offset}"
  | .fault f => f.message

def code : CommandError → Nat
  | .fault _ => 101
  | _ => 1

end CommandError

structure Outcome where
  code : Nat
  output : String := ""
  errors : String := ""
  deriving DecidableEq, Repr

namespace Outcome

def done (output : String) : Outcome := { code := 0, output }

def failed (e : CommandError) (output : String) : Outcome where
  code := e.code
  output
  errors := s!"Error: {e.message}\n"

def refused : Command.Refusal → Outcome
  | .help => { code := 0 }
  | .version => { code := 0, output := "tmark 0.1.0\n" }
  | .misuse => { code := 2 }

def ofExcept : Except CommandError String → Outcome
  | .ok output => done output
  | .error e => failed e ""

end Outcome

namespace Command

/-- Where a configuration file may be: under its name, or with the extension added to the last step
if that is a name. -/
def configPaths (path : String) : List String :=
  let named := (Files.steps path).getLast?.any (· ≠ "..")
  if named then [path, Files.shortPath path ++ ".toml"] else [path]

def configFile (files : Files) (path : String) : SettingsFile :=
  let found := (configPaths path).findSome? fun p =>
    (files p).toOption.map fun bytes => (Files.shortPath p, bytes)
  match found with
  | none => { path, content := none, required := true }
  | some (found, bytes) => { path := found, content := some bytes, required := true }

def layers (files : Files) (inv : Invocation) : List Layer :=
  let config := inv.config.map fun path => Layer.file (configFile files path)
  let format := match inv.request with
    | .parse _ (some format) _ => some (Layer.override "output.format" (.string format))
    | _ => none
  config.toList ++ format.toList

def paths (inv : Invocation) : List String :=
  let config := (inv.config.map configPaths).getD []
  match inv.request with
  | .parse path .. | .locate path _ => config ++ [path]
  | .filter _ file => config ++ file.toList

def readText (files : Files) (path : String) : Except CommandError String := do
  let bytes ← (files path).mapError (.unreadable path)
  match Text.decode? bytes with
  | none => .error (.unreadable path .notText)
  | some text => .ok text

def render (s : Settings) (bs : List Block) : String :=
  match s.format with
  | .tree => Outline.draw { truncate := s.truncate } (bs.map Node.block)
  | .json => (Value.list (bs.map Block.value)).json "" ++ "\n"
  | .yaml => (Value.list (bs.map Block.value)).yaml

def line (text : String) : String :=
  String.ofList (Text.dropEndWhile (· = '\n') text.toList) ++ "\n"

def renderExcerpt (s : Settings) (n : Nat) (e : Excerpt) : String :=
  s!"--- block {n} ---\n" ++ line e.text ++ render s [e.block]

def parse (s : Settings) (text : String) (split : Bool) : Outcome :=
  let t := Document.read s.options text
  let output :=
    if split then
      let excerpts := t.blocks.map (Source.ofString text).excerpt
      String.join (excerpts.mapIdx (renderExcerpt s))
    else render s t.blocks
  match t.fault with
  | none => .done output
  | some f => .failed (.fault f) (if split then output else "")

def parseQuery (query : String) : Except CommandError Filter :=
  (Filter.parse query).mapError fun
    | .fault f => .fault f
    | .rejected _ => .rejectedFilter query

def readBlocks (s : Settings) (text : String) : Except CommandError (List Block) :=
  (Document.blocks s.options text).mapError .fault

def filter (s : Settings) (files : Files) (query : String) (file : Option String) :
    Except CommandError String := do
  let f ← parseQuery query
  match file with
  | none => return f.canonical ++ "\n"
  | some path =>
    let text ← readText files path
    let bs ← readBlocks s text
    let source := Source.ofString text
    let found := bs.filter (f.matchesBlock score)
    return String.join (found.map fun b => line (source.excerpt b).text)

def locationLine (depth : Nat) (n : Node) : String :=
  String.join (List.replicate depth "  ") ++
    s!"{n.kindName} {n.span.start}..{n.span.stop}\n"

def locate (s : Settings) (text : String) (offset : Int) : Except CommandError String := do
  let bs ← readBlocks s text
  match Node.locate offset (bs.map Node.block) with
  | [] => .error (.noNode offset)
  | nodes => return String.join (nodes.mapIdx locationLine)

def perform (files : Files) (s : Settings) : Request → Outcome
  | .parse path _ split =>
    match readText files path with
    | .error e => .failed e ""
    | .ok text => parse s text split
  | .filter query file => .ofExcept (filter s files query file)
  | .locate path offset => .ofExcept do locate s (← readText files path) offset

/-- Runs an invocation. The settings are loaded before anything else is looked at. -/
def invoke (files : Files) (inv : Invocation) : Outcome :=
  match Settings.load (layers files inv) with
  | .error (.fault f) => .failed (.fault f) ""
  | .error e => .failed (.settings e) ""
  | .ok s => perform files s inv.request

def run (files : Files) (args : List String) : Outcome :=
  match parseArguments args with
  | .error refusal => .refused refusal
  | .ok inv => invoke files inv

end Command

end TaskMarkup
