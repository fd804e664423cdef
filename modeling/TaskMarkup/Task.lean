import TaskMarkup.Date
import TaskMarkup.Task.Tags

namespace TaskMarkup

inductive Admonition
  | tip | note | warning | important
  deriving DecidableEq, Repr

namespace Admonition

def keyword : Admonition → String
  | .tip => "tip"
  | .note => "note"
  | .warning => "warning"
  | .important => "important"

def all : List Admonition := [.tip, .note, .warning, .important]

def ofKeyword? (word : String) : Option Admonition := all.find? (·.keyword == word)

theorem ofKeyword?_keyword (a : Admonition) : ofKeyword? a.keyword = some a := by
  cases a <;> decide

end Admonition

structure Image where
  path : String
  width : Option Nat
  deriving DecidableEq, Repr

namespace Image

def escapePath : List Char → List Char
  | [] => []
  | c :: cs =>
    if c = ' ' || c = '\t' || c = ']' || c = '\\' then '\\' :: c :: escapePath cs
    else c :: escapePath cs

def directive (image : Image) : String :=
  let path := String.ofList (escapePath image.path.toList)
  match image.width with
  | some width => s!"image {width} {path}"
  | none => s!"image {path}"

end Image

structure Task where
  priority : Option Nat := none
  track : Option Nat := none
  created : Option Date := none
  due : Option Date := none
  pin : Bool := false
  done : Bool := false
  hide : Bool := false
  tags : Tags := .empty
  image : Option Image := none
  admonition : Option Admonition := none
  deriving DecidableEq

namespace Task

def directives (t : Task) : List String :=
  (if t.done then ["x"] else []) ++
  (if t.pin then ["pin"] else []) ++
  (if t.hide then ["hide"] else []) ++
  (t.priority.map fun n => s!"#{n}").toList ++
  (t.track.map fun n => s!"track:{n}").toList ++
  (t.created.map fun d => "created:" ++ d.text).toList ++
  (t.due.map fun d => "due:" ++ d.text).toList ++
  (t.admonition.map Admonition.keyword).toList ++
  (t.image.map Image.directive).toList ++
  t.tags.toList.map ("@" ++ ·)

def markup (t : Task) : String := "[" ++ " ".intercalate t.directives ++ "]"

def isEmpty (t : Task) : Bool := t = {}

end Task

end TaskMarkup
