import TaskMarkup.Task.Directive

namespace TaskMarkup

inductive Marker
  | header (size : Nat)
  | task
  | list
  | ordered (first : Nat)
  | table
  | separator
  | raw
  | paragraph
  deriving DecidableEq, Repr

def Marker.opensBody : Marker → Bool
  | .task | .list | .ordered _ | .table => true
  | .header _ | .separator | .raw | .paragraph => false

inductive Event
  | block (marker : Marker) (indent : Nat)
  | skipped (error : DirectiveError)
  deriving DecidableEq, Repr

end TaskMarkup
