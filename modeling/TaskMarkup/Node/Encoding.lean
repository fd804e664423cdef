import TaskMarkup.Block
import TaskMarkup.Filter
import TaskMarkup.Value

namespace TaskMarkup

namespace Value

def nodeFields (s : Span) (kind : String) : List (String × Value) :=
  [("start", .number s.start), ("end", .number s.stop), ("indent", .number s.indent),
    ("type", .text kind)]

def node (s : Span) (kind : String) (payload : List (String × Value)) : Value :=
  .object (nodeFields s kind ++ payload)

end Value

open Value

namespace Inline

mutual

def value : Inline → Value
  | .text s t => node s "Text" [("text", .text t)]
  | .styled s style cs => node s style.name [("children", .list (values cs))]
  | .raw s monospace cs =>
    node s "RawInline" [("monospace", .bool monospace), ("children", .list (values cs))]
  | .link s target caption =>
    node s "Link" [("link", .text target), ("alias", optional .text caption)]
  | .tagRef s c => node s "TagRef" [("child", c.value)]

def values : List Inline → List Value
  | [] => []
  | c :: cs => c.value :: values cs

end

end Inline

def CellSpan.value : CellSpan → Value
  | .count n => .variant "Count" (.number n)
  | .fill => .text "Fill"

def CellConfig.value (c : CellConfig) : Value :=
  .object [("width", c.width.value), ("height", c.height.value), ("invisible", .bool c.invisible)]

def Image.value (i : Image) : Value :=
  .object [("path", .text i.path), ("width", optional .number i.width)]

def Task.value (t : Task) : Value :=
  .object [
    ("priority", optional .number t.priority),
    ("track", optional .number t.track),
    ("created", optional (.text ·.text) t.created),
    ("due", optional (.text ·.text) t.due),
    ("pin", .bool t.pin),
    ("done", .bool t.done),
    ("hide", .bool t.hide),
    ("tags", .list (t.tags.toList.map .text)),
    ("image", optional Image.value t.image),
    ("admonition", optional (.text ·.keyword) t.admonition)]

def Container.fields : Container → List (String × Value)
  | .list | .listItem => []
  | .orderedList first => [("first", .number first)]
  | .table header => [("header", .bool header)]
  | .tableRow divider => [("divider", .bool divider)]
  | .tableCell config => [("config", config.value)]
  | .task t => [("config", t.value)]

namespace Block

mutual

def value : Block → Value
  | .dummy s => node s "Dummy" []
  | .separator s => node s "Separator" []
  | .raw s cs => node s "RawBlock" [("children", .list (Inline.values cs))]
  | .paragraph s cs => node s "Paragraph" [("children", .list (Inline.values cs))]
  | .header s size b => node s "Header" [("size", .number size), ("child", b.value)]
  | .container s kind bs => node s kind.name (kind.fields ++ [("children", .list (values bs))])

def values : List Block → List Value
  | [] => []
  | b :: bs => b.value :: values bs

end

end Block

def Predicate.fields : Predicate → List (String × Value)
  | .any | .due | .done | .pin | .hide => []
  | .tag name => [("tag", optional .text name)]
  | .track id => [("id", optional .number id)]
  | .fuzzy needle | .literal needle => [("needle", .text needle)]
  | .priority n => [("priority", optional .number n)]

def Filter.value : Filter → Value
  | .predicate s p => node s p.name p.fields
  | .not s f => node s "Not" [("op", f.value)]
  | .binary s op f g => node s op.name [("op1", f.value), ("op2", g.value)]

end TaskMarkup
