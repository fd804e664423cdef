
namespace TaskMarkup

inductive Tree (α : Type)
  | node (value : α) (children : List (Tree α))

namespace Tree

variable {α β : Type}

def value : Tree α → α
  | .node a _ => a

def children : Tree α → List (Tree α)
  | .node _ ts => ts

mutual

def map (f : α → β) : Tree α → Tree β
  | .node a ts => .node (f a) (mapForest f ts)

def mapForest (f : α → β) : List (Tree α) → List (Tree β)
  | [] => []
  | t :: ts => t.map f :: mapForest f ts

end

mutual

def preorder : Tree α → List α
  | .node a ts => a :: preorderForest ts

def preorderForest : List (Tree α) → List α
  | [] => []
  | t :: ts => t.preorder ++ preorderForest ts

end

mutual

/-- The values on the way down from the root, at each vertex into the first child that `p` picks. -/
def descend (p : α → Bool) : Tree α → List α
  | .node a ts => a :: descendForest p ts

def descendForest (p : α → Bool) : List (Tree α) → List α
  | [] => []
  | t :: ts => if p t.value then t.descend p else descendForest p ts

end

theorem mapForest_eq_map (f : α → β) (ts : List (Tree α)) : mapForest f ts = ts.map (map f) := by
  induction ts with
  | nil => rfl
  | cons t ts ih => simp [mapForest, ih]

theorem preorderForest_eq_flatMap (ts : List (Tree α)) :
    preorderForest ts = ts.flatMap preorder := by
  induction ts with
  | nil => rfl
  | cons t ts ih => simp [preorderForest, ih]

end Tree

end TaskMarkup
