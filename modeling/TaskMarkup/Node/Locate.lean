import TaskMarkup.Node

namespace TaskMarkup

namespace Node

def resolve (offset : Int) (last : Node) : Nat :=
  if offset < 0 then last.span.stop - 1 else offset.toNat

/-- The nodes around an offset, outermost first. Between two siblings the answer is the second of
them alone, behind all of them the last alone. -/
def locate (offset : Int) (siblings : List Node) : List Node :=
  match siblings.getLast? with
  | none => []
  | some last =>
    let offset := resolve offset last
    let n := (siblings.find? (offset < ·.span.stop)).getD last
    if offset < n.span.start then [n] else n.tree.descend (contains offset)

end Node

end TaskMarkup
