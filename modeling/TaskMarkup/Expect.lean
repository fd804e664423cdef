import TaskMarkup.Block

namespace TaskMarkup

inductive Mismatch
  | count (expected : Nat) (found : List String)
  | kinds
  | index (index : Nat) (found : List String)
  | kind (expected found : String)
  | span
  | indent (expected found : Nat)
  | text
  | childCount (expected : Nat) (found : List String)
  | childIndex (index count : Nat)
  | childKinds
  | inlineKinds
  | inlineIndex (index count : Nat)
  | noTask (found : String)
  | target
  | caption
  | monospace
  | markup
  deriving DecidableEq, Repr

inductive Branch
  | blocks | children | inlines
  deriving DecidableEq, Repr

def Branch.name : Branch → String
  | .blocks => "blocks"
  | .children => "children"
  | .inlines => "inlines"

abbrev NodePath := List (Branch × Nat)

def NodePath.text (path : NodePath) : String :=
  ".".intercalate (path.map fun (branch, n) => branch.name ++ s!"[{n}]")

structure Unmet where
  path : NodePath
  mismatch : Mismatch
  deriving Repr

namespace Mismatch

def summary (kinds : List String) : String := "[" ++ ", ".intercalate kinds ++ "]"

def message : Mismatch → String
  | .count expected found =>
    s!"Expected {expected} blocks, found {found.length}: " ++ summary found
  | .kinds => "Top-level block types differ"
  | .index n found =>
    s!"Block index {n} out of bounds ({found.length} blocks: " ++ summary found ++ ")"
  | .kind expected found => s!"expected {expected}, found {found}"
  | .span => "span mismatch"
  | .indent expected found => s!"expected indent {expected}, found {found}"
  | .text => "text mismatch"
  | .childCount expected found =>
    s!"expected {expected} children, found {found.length}: " ++ summary found
  | .childIndex n size => s!"child index {n} out of bounds ({size} children)"
  | .childKinds => "child types differ"
  | .inlineKinds => "inline types differ"
  | .inlineIndex n size => s!"inline index {n} out of bounds ({size} inlines)"
  | .noTask found => s!"expected a Meta block, found {found}"
  | .target => "link mismatch"
  | .caption => "alias mismatch"
  | .monospace => "monospace mismatch"
  | .markup => "meta differs"

def namesNode : Mismatch → Bool
  | .count .. | .kinds | .index .. | .markup => false
  | _ => true

end Mismatch

def Unmet.message (u : Unmet) : String :=
  if u.mismatch.namesNode then u.path.text ++ ": " ++ u.mismatch.message else u.mismatch.message

inductive InlineCheck
  | kind (name : String)
  | span (start stop : Nat)
  | text (text : String)
  | link (target : String) (caption : Option String)
  | monospace (expected : Bool)
  | childKinds (names : List String)
  | child (n : Nat) (checks : List InlineCheck)
  deriving Inhabited

inductive BlockCheck
  | kind (name : String)
  | span (start stop : Nat)
  | indent (n : Nat)
  | text (text : String)
  | childCount (n : Nat)
  | child (n : Nat) (checks : List BlockCheck)
  | inlineKinds (names : List String)
  | inline (n : Nat) (checks : List InlineCheck)
  | task (markup : String)
  deriving Inhabited

inductive Check
  | count (n : Nat)
  | kinds (names : List String)
  | block (n : Nat) (checks : List BlockCheck)

abbrev Verdict := Except Unmet Unit

def NodePath.expect (path : NodePath) (condition : Bool) (mismatch : Mismatch) : Verdict :=
  if condition then .ok () else .error { path, mismatch }

mutual

def InlineCheck.run (path : NodePath) (i : Inline) : InlineCheck → Verdict
  | .kind name => path.expect (i.kindName = name) (.kind name i.kindName)
  | .span start stop => path.expect (i.span.start = start && i.span.stop = stop) .span
  | .text visible => path.expect (i.plainText = visible) .text
  | .link target caption =>
    match i with
    | .link _ target' caption' => do
      path.expect (target' = target) .target
      path.expect (caption' = caption) .caption
    | _ => path.expect false (.kind "Link" i.kindName)
  | .monospace expected =>
    match i with
    | .raw _ mono _ => path.expect (mono = expected) .monospace
    | _ => path.expect false (.kind "RawInline" i.kindName)
  | .childKinds names => path.expect (i.children.map Inline.kindName = names) .childKinds
  | .child n checks =>
    match i.children[n]? with
    | none => path.expect false (.childIndex n i.children.length)
    | some c => InlineCheck.runAll (path ++ [(.children, n)]) c checks

def InlineCheck.runAll (path : NodePath) (i : Inline) : List InlineCheck → Verdict
  | [] => .ok ()
  | check :: checks => do
    check.run path i
    InlineCheck.runAll path i checks

end

mutual

def BlockCheck.run (path : NodePath) (b : Block) : BlockCheck → Verdict
  | .kind name => path.expect (b.kindName = name) (.kind name b.kindName)
  | .span start stop => path.expect (b.start = start && b.stop = stop) .span
  | .indent n => path.expect (b.span.indent = n) (.indent n b.span.indent)
  | .text visible => path.expect (b.plainText = visible) .text
  | .childCount n =>
    path.expect (b.blocks.length = n) (.childCount n (b.blocks.map Block.kindName))
  | .child n checks =>
    match b.blocks[n]? with
    | none => path.expect false (.childIndex n b.blocks.length)
    | some c => BlockCheck.runAll (path ++ [(.children, n)]) c checks
  | .inlineKinds names => path.expect (b.inlines.map Inline.kindName = names) .inlineKinds
  | .inline n checks =>
    match b.inlines[n]? with
    | none => path.expect false (.inlineIndex n b.inlines.length)
    | some i => InlineCheck.runAll (path ++ [(.inlines, n)]) i checks
  | .task markup =>
    match b.task? with
    | none => path.expect false (.noTask b.kindName)
    | some t => path.expect (t.markup = markup) .markup

def BlockCheck.runAll (path : NodePath) (b : Block) : List BlockCheck → Verdict
  | [] => .ok ()
  | check :: checks => do
    check.run path b
    BlockCheck.runAll path b checks

end

namespace Check

def run (bs : List Block) : Check → Verdict
  | .count n => NodePath.expect [] (bs.length = n) (.count n (bs.map Block.kindName))
  | .kinds names => NodePath.expect [] (bs.map Block.kindName = names) .kinds
  | .block n checks =>
    match bs[n]? with
    | none => NodePath.expect [] false (.index n (bs.map Block.kindName))
    | some b => BlockCheck.runAll [(.blocks, n)] b checks

def runAll (bs : List Block) (checks : List Check) : Verdict := checks.forM (run bs)

end Check

end TaskMarkup
