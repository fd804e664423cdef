import TaskMarkup.Block
import TaskMarkup.Filter
import TaskMarkup.Tree

namespace TaskMarkup

inductive Node
  | block (b : Block)
  | inline (i : Inline)
  | filter (f : Filter)

namespace Node

def span : Node → Span
  | .block b => b.span
  | .inline i => i.span
  | .filter f => f.span

def kindName : Node → String
  | .block b => b.kindName
  | .inline i => i.kindName
  | .filter f => f.kindName

def contains (offset : Nat) (n : Node) : Bool := n.span.contains offset

end Node

mutual

def Inline.tree : Inline → Tree Node
  | .text s t => .node (.inline (.text s t)) []
  | .styled s style cs => .node (.inline (.styled s style cs)) (Inline.trees cs)
  | .raw s monospace cs => .node (.inline (.raw s monospace cs)) (Inline.trees cs)
  | .link s target caption => .node (.inline (.link s target caption)) []
  | .tagRef s c => .node (.inline (.tagRef s c)) [c.tree]

def Inline.trees : List Inline → List (Tree Node)
  | [] => []
  | c :: cs => c.tree :: Inline.trees cs

end

mutual

def Block.tree : Block → Tree Node
  | .dummy s => .node (.block (.dummy s)) []
  | .separator s => .node (.block (.separator s)) []
  | .raw s cs => .node (.block (.raw s cs)) (Inline.trees cs)
  | .paragraph s cs => .node (.block (.paragraph s cs)) (Inline.trees cs)
  | .header s size b => .node (.block (.header s size b)) [b.tree]
  | .container s kind bs => .node (.block (.container s kind bs)) (Block.trees bs)

def Block.trees : List Block → List (Tree Node)
  | [] => []
  | b :: bs => b.tree :: Block.trees bs

end

def Filter.tree : Filter → Tree Node
  | .predicate s p => .node (.filter (.predicate s p)) []
  | .not s f => .node (.filter (.not s f)) [f.tree]
  | .binary s op f g => .node (.filter (.binary s op f g)) [f.tree, g.tree]

namespace Node

def tree : Node → Tree Node
  | .block b => b.tree
  | .inline i => i.tree
  | .filter f => f.tree

@[simp] theorem value_tree (n : Node) : n.tree.value = n := by
  match n with
  | .block b => cases b <;> simp [tree, Block.tree, Tree.value]
  | .inline i => cases i <;> simp [tree, Inline.tree, Tree.value]
  | .filter f => cases f <;> simp [tree, Filter.tree, Tree.value]

end Node

end TaskMarkup
