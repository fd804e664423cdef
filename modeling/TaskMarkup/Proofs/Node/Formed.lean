import TaskMarkup.Node
import TaskMarkup.Proofs.Grammar.Line

/-!
What a document is made of: which nodes hold which, and how deep each of them stands. Items, tasks
and cells hold a body one level deeper; the deepest level opens no further body, and what would be
the marker of one is text there.
-/

namespace TaskMarkup

namespace Inline

def isText : Inline → Bool
  | .text .. => true
  | .styled .. | .raw .. | .link .. | .tagRef .. => false

def Apart (cs : List Inline) : Prop := cs.IsChain fun c d => ¬(c.isText = true ∧ d.isText = true)

mutual

def Formed : Inline → Prop
  | .text _ t => t ≠ ""
  | .styled _ _ cs => Apart cs ∧ AllFormed cs
  | .raw _ _ cs => cs = [] ∨ ∃ span t, cs = [.text span t] ∧ t ≠ ""
  | .link .. => True
  | .tagRef _ c => ∃ span t, c = .text span t ∧ isTagName t.toList = true

def AllFormed : List Inline → Prop
  | [] => True
  | c :: cs => c.Formed ∧ AllFormed cs

end

theorem allFormed_append {cs ds : List Inline} :
    AllFormed (cs ++ ds) ↔ AllFormed cs ∧ AllFormed ds := by
  induction cs with
  | nil => simp [AllFormed]
  | cons c cs ih => simp [AllFormed, ih, and_assoc]

theorem apart_concat {cs : List Inline} {d : Inline} (h : Apart cs)
    (hd : ∀ c ∈ cs.getLast?, ¬(c.isText = true ∧ d.isText = true)) : Apart (cs ++ [d]) :=
  List.isChain_append.2 ⟨h, .singleton d, fun c hc _ hx => by
    obtain rfl := Option.some.inj hx
    exact hd c hc⟩

end Inline

inductive Block.Role
  | body | item | row | cell
  deriving DecidableEq

namespace Block

def role : Block → Role
  | .container _ .listItem _ => .item
  | .container _ (.tableRow _) _ => .row
  | .container _ (.tableCell _) _ => .cell
  | _ => .body

def divided : Block → Bool
  | .container _ (.tableRow divider) _ => divider
  | _ => false

end Block

/-- The blocks that may stand in a container. Only the last row of a table may go without a divider,
and a header has one. -/
def Container.Holds : Container → List Block → Prop
  | .list, bs | .orderedList _, bs => bs ≠ [] ∧ ∀ b ∈ bs, b.role = .item
  | .table header, bs =>
    (∀ b ∈ bs, b.role = .row) ∧ (∀ b ∈ bs.dropLast, b.divided = true) ∧
      (header = true → ∃ b ∈ bs.head?, b.divided = true)
  | .tableRow _, bs => bs ≠ [] ∧ ∀ b ∈ bs, b.role = .cell
  | .listItem, bs | .tableCell _, bs | .task _, bs => ∀ b ∈ bs, b.role = .body

mutual

def Block.Formed : Block → Prop
  | .dummy _ => False
  | .separator _ => True
  | .raw _ cs => ∃ span t, cs = [.text span t]
  | .paragraph _ cs => cs ≠ [] ∧ Inline.Apart cs ∧ Inline.AllFormed cs
  | .header _ size b => (1 ≤ size ∧ size ≤ 5) ∧
    ∃ span cs, b = .paragraph span cs ∧ Inline.Apart cs ∧ Inline.AllFormed cs
  | .container _ kind bs => kind.Holds bs ∧ Block.AllFormed bs

def Block.AllFormed : List Block → Prop
  | [] => True
  | b :: bs => b.Formed ∧ Block.AllFormed bs

end

theorem Block.allFormed_iff {bs : List Block} : Block.AllFormed bs ↔ ∀ b ∈ bs, b.Formed := by
  induction bs with
  | nil => simp [Block.AllFormed]
  | cons b bs ih => simp [Block.AllFormed, ih]

namespace Tree

variable {α : Type}

mutual

def depths (p : α → Bool) (n : Nat) : Tree α → List (α × Nat)
  | .node a ts => (a, n) :: depthsForest p (if p a then n + 1 else n) ts

def depthsForest (p : α → Bool) (n : Nat) : List (Tree α) → List (α × Nat)
  | [] => []
  | t :: ts => t.depths p n ++ depthsForest p n ts

end

theorem mem_depthsForest {p : α → Bool} {n : Nat} {ts : List (Tree α)} {v : α × Nat} :
    v ∈ depthsForest p n ts ↔ ∃ t ∈ ts, v ∈ t.depths p n := by
  induction ts with
  | nil => simp [depthsForest]
  | cons t ts ih => simp [depthsForest, ih]

end Tree

def Container.holdsBody : Container → Bool
  | .listItem | .tableCell _ | .task _ => true
  | .list | .orderedList _ | .table _ | .tableRow _ => false

def Container.opensBody : Container → Bool
  | .list | .orderedList _ | .table _ | .task _ => true
  | .listItem | .tableRow _ | .tableCell _ => false

namespace Node

def holdsBody : Node → Bool
  | .block (.container _ kind _) => kind.holdsBody
  | _ => false

def opensBody : Node → Bool
  | .block (.container _ kind _) => kind.opensBody
  | _ => false

end Node

/-- If the tokens where the block starts are the marker of a body, then they are text: the block is
a paragraph whose first text begins with them. -/
def Block.Speaks (src : Source) (b : Block) : Prop :=
  ∀ s : Lexer Cursor, s.Sound → s.source = src → s.nextOffset = b.start →
    (Parse.classified s).opensBody = true →
    ∃ span first text rest, b = .paragraph span (.text first text :: rest) ∧
      Token.texts (s.pending.take (Parse.classified s).heads.length) <+: text.toList

structure Node.Lies (src : Source) (limit : Nat) (n : Node) (depth : Nat) : Prop where
  indent : n.span.indent = depth
  le : depth ≤ limit
  closed : depth = limit → n.opensBody = false
  speaks : depth = limit → ∀ b, n = .block b → b.Speaks src

def Levelled (src : Source) (limit depth : Nat) (ts : List (Tree Node)) : Prop :=
  ∀ v ∈ Tree.depthsForest Node.holdsBody depth ts, v.1.Lies src limit v.2

section

variable {src : Source} {limit depth : Nat} {ts us : List (Tree Node)} {n : Node}

@[simp] theorem levelled_nil : Levelled src limit depth [] := by
  simp [Levelled, Tree.depthsForest]

theorem levelled_append : Levelled src limit depth (ts ++ us) ↔
    Levelled src limit depth ts ∧ Levelled src limit depth us := by
  simp only [Levelled, Tree.mem_depthsForest, List.mem_append]
  constructor
  · intro h
    exact ⟨fun v ⟨t, ht, hv⟩ => h v ⟨t, .inl ht, hv⟩, fun v ⟨t, ht, hv⟩ => h v ⟨t, .inr ht, hv⟩⟩
  · rintro ⟨h, h'⟩ v ⟨t, ht | ht, hv⟩
    · exact h v ⟨t, ht, hv⟩
    · exact h' v ⟨t, ht, hv⟩

theorem levelled_node : Levelled src limit depth [.node n ts] ↔
    n.Lies src limit depth ∧ Levelled src limit (if n.holdsBody then depth + 1 else depth) ts := by
  simp [Levelled, Tree.depthsForest, Tree.depths]

theorem levelled_trees {bs : List Block} : Levelled src limit depth (Block.trees bs) ↔
    ∀ b ∈ bs, Levelled src limit depth [b.tree] := by
  induction bs with
  | nil => simp [Block.trees]
  | cons b bs ih =>
    rw [Block.trees, ← List.singleton_append, levelled_append, ih]
    simp

theorem Inline.trees_append (cs ds : List Inline) :
    Inline.trees (cs ++ ds) = Inline.trees cs ++ Inline.trees ds := by
  induction cs with
  | nil => rfl
  | cons c cs ih => rw [List.cons_append, Inline.trees, Inline.trees, ih, List.cons_append]

theorem Node.lies_inline {c : Inline} (hindent : c.span.indent = depth) (hle : depth ≤ limit) :
    (Node.inline c).Lies src limit depth :=
  ⟨hindent, hle, fun _ => rfl, fun _ _ h => by simp at h⟩

end

theorem Lexer.Sound.pending_unique {s t : Lexer Cursor} (hs : s.Sound) (ht : t.Sound)
    (hsrc : t.source = s.source) (h : t.nextOffset = s.nextOffset) : t.pending = s.pending := by
  have hcons : t.consumed = s.consumed := by rw [Lexer.consumed, Lexer.consumed, hsrc, h]
  have hpos := ht.position.2.2
  rw [hsrc, hs.position.2.2, hcons] at hpos
  exact (List.append_cancel_left hpos).symm

end TaskMarkup
