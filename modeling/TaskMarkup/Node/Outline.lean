import TaskMarkup.Filter.Canonical
import TaskMarkup.Node

namespace TaskMarkup

structure OutlineOptions where
  /-- Labels with more characters than this are cut. -/
  truncate : Nat := 40
  showOffsets : Bool := true
  deriving DecidableEq, Repr

def CellSpan.label : CellSpan → String
  | .count n => toString n
  | .fill => "*"

def CellConfig.label (c : CellConfig) : String :=
  c.width.label ++ ":" ++ c.height.label ++ if c.invisible then " hidden" else ""

def Container.icon : Container → String
  | .list | .orderedList _ => "☰"
  | .listItem => "•"
  | .table _ => "▦"
  | .tableRow _ => "═"
  | .tableCell _ => "▭"
  | .task _ => "☐"

def Container.label (size : Nat) : Container → String
  | .list => s!"{size} items"
  | .orderedList first => s!"{size} items from {first}"
  | .listItem => "-"
  | .table header => s!"{size} rows" ++ if header then " with header" else ""
  | .tableRow divider => s!"{size} cells" ++ if divider then " |-" else ""
  | .tableCell config => config.label
  | .task t => t.markup

namespace Block

def icon : Block → String
  | .dummy _ => "∅"
  | .separator _ => "―"
  | .raw .. => "𝒱"
  | .paragraph .. => "¶"
  | .header .. => "⊤"
  | .container _ kind _ => kind.icon

def label : Block → String
  | .dummy _ => "empty"
  | .separator _ => "==="
  | .raw _ cs | .paragraph _ cs => Inline.plainTexts cs
  | .header _ size b => s!"h{size} " ++ b.plainText
  | .container _ kind bs => kind.label bs.length

end Block

def Style.icon : Style → String
  | .italic => "𝐼"
  | .bold => "𝐁"
  | .highlight => "✎"
  | .sub => "ₓ"
  | .strike => "∼"
  | .sup => "ˣ"

namespace Inline

def icon : Inline → String
  | .text .. => "◦"
  | .styled _ style _ => style.icon
  | .raw .. => "ƒ"
  | .link .. => "⊕"
  | .tagRef .. => "@"

def label : Inline → String
  | .link _ target (some caption) => target ++ "; " ++ caption
  | .link _ target none => target
  | i => i.plainText

end Inline

namespace Node

def icon : Node → String
  | .block b => b.icon
  | .inline i => i.icon
  | .filter _ => "⋄"

def label : Node → String
  | .block b => b.label
  | .inline i => i.label
  | .filter f => f.kindName ++ " " ++ f.canonical

def shorten (size : Nat) (label : String) : String :=
  let cs := label.toList.map fun c => if c = '\n' then '↵' else c
  if size < cs.length then String.ofList (cs.take size) ++ "..." else String.ofList cs

def summary (o : OutlineOptions) (n : Node) : String :=
  n.icon ++ " " ++ shorten o.truncate n.label ++
    if o.showOffsets then s!" {n.span.start}..{n.span.stop}" else ""

end Node

namespace Outline

def connector (last : Bool) : String := if last then "└─ " else "├─ "

def stemStep (last : Bool) : String := if last then "  " else "│ "

mutual

def lines (stem : String) (last : Bool) : Tree String → List String
  | .node label ts => (stem ++ connector last ++ label) :: forestLines (stem ++ stemStep last) ts

def forestLines (stem : String) : List (Tree String) → List String
  | [] => []
  | t :: ts => lines stem ts.isEmpty t ++ forestLines stem ts

end

def draw (o : OutlineOptions) (nodes : List Node) : String :=
  let noun := if nodes.length = 1 then "block" else "blocks"
  let heading := s!"⧉ {nodes.length} {noun}"
  let forest := nodes.map fun n => n.tree.map (Node.summary o)
  String.join ((heading :: forestLines "" forest).map (· ++ "\n"))

end Outline

end TaskMarkup
