import TaskMarkup.Grammar.Block
import TaskMarkup.Proofs.Rule.Advances

namespace TaskMarkup.Parse

open Rule

section

theorem advances_expect (directive : String) (tags : List Tag) :
    Advances (expect directive tags) := by
  apply Advances.bind (.peek 0)
  intro t
  split
  · exact .eat
  · exact .bind (.reject _) fun _ => .eat

theorem advances_datePart (offset : Nat) (tag : Tag) : Advances (datePart offset tag) := by
  apply Advances.bind (.eatIf tag)
  intro r
  cases r with
  | none => exact .reject _
  | some t => exact .pure t

theorem advances_date : Advances date := by
  apply Advances.bind (.peek 0)
  intro first
  apply Advances.bind (advances_datePart _ _)
  intro year
  apply Advances.bind (advances_datePart _ _)
  intro _
  apply Advances.bind (advances_datePart _ _)
  intro month
  apply Advances.bind (advances_datePart _ _)
  intro _
  apply Advances.bind (advances_datePart _ _)
  intro day
  dsimp only
  split
  · exact .reject _
  · exact .pure _

theorem advances_imagePath : Advances imagePath := by
  apply Advances.loop
  intro path
  apply Advances.bind (.peek 0)
  intro next
  split
  · exact .pure _
  · apply Advances.bind .eat
    intro _
    split
    · apply Advances.bind (.peekTag 0)
      intro tag
      split
      · exact .pure _
      · exact .bind .eat fun _ => .pure _
    · exact .pure _

theorem advances_image : Advances image := by
  have hpath (first : Token) (width : Option Nat) : Advances (do
      let path ← imagePath
      if path.isEmpty then reject (.missingValue "image" first.start)
      return { path := String.ofList path, width } : InDirective Image) := by
    apply Advances.bind advances_imagePath
    intro path
    split
    · exact .bind (.reject _) fun _ => .pure _
    · exact .pure _
  have hrest : Advances (do
      eatInlineSpace
      let first ← peek 0
      let mut width := none
      if first.tag = .number then
        if (← peekTag 1).isInlineSpace then
          let _ ← eat
          width := first.value?
          eatInlineSpace
      let path ← imagePath
      if path.isEmpty then reject (.missingValue "image" first.start)
      return { path := String.ofList path, width } : InDirective Image) := by
    apply Advances.bind .eatInlineSpace
    intro _
    apply Advances.bind (.peek 0)
    intro first
    dsimp only
    split
    · apply Advances.bind (.peekTag 1)
      intro tag
      split
      · apply Advances.bind .eat
        intro _
        apply Advances.bind .eatInlineSpace
        exact fun _ => hpath _ _
      · exact hpath _ _
    · exact hpath _ _
  apply Advances.bind (.peek 0)
  intro t
  split
  · exact hrest
  · exact .bind (.reject _) fun _ => hrest

theorem advances_directiveBody : Advances directiveBody := by
  apply Advances.bind (.peek 0)
  intro t
  split
  · apply Advances.bind .eat
    intro _
    apply Advances.bind (advances_expect _ _)
    intro name
    split
    · exact .pure _
    · exact .bind (.reject _) fun _ => .pure _
  · exact .bind .eat fun _ => .bind (advances_expect _ _) fun _ => .pure _
  · split
    case h_1 | h_2 | h_3 => exact .bind .eat fun _ => .pure _
    case h_4 | h_5 =>
      exact .bind .eat fun _ => .bind (advances_expect _ _) fun _ => .bind advances_date fun _ =>
        .pure _
    case h_6 =>
      exact .bind .eat fun _ => .bind (advances_expect _ _) fun _ => .bind (advances_expect _ _)
        fun _ => .pure _
    case h_7 => exact .bind .eat fun _ => .bind advances_image fun _ => .pure _
    case h_8 =>
      split
      · exact .reject _
      · exact .bind .eat fun _ => .pure _
  · exact .reject _

theorem advances_directive : Advances directive := by
  apply Advances.bind advances_directiveBody
  intro d
  apply Advances.bind (.peek 0)
  intro next
  split
  · exact .pure _
  · exact .bind (.reject _) fun _ => .pure _

theorem advances_directives : Advances directives := by
  apply Advances.loop
  intro task
  apply Advances.bind .eatInlineSpace
  intro _
  apply Advances.bind (.peekTag 0)
  intro tag
  split
  · exact .bind .eat fun _ => .pure _
  · exact .pure _
  · exact .pure _
  · apply Advances.bind (.attempt advances_directive)
    intro r
    cases r with
    | ok d => exact .pure _
    | error e => exact .bind (.record _) fun _ => .bind (.eatUntil _) fun _ => .pure _

end

section

variable {ruler : Ruler} {level : Level} {i : Nat}

theorem advances_counted (operation : Arithmetic) (columns : Nat) :
    Advances (counted ruler operation columns) := by
  unfold counted
  split
  · exact .throw _
  · exact .pure _

theorem advances_indentColumns : Advances (indentColumns ruler) := by
  apply Advances.paused
  apply Advances.loop
  intro columns
  apply Advances.bind (.peek 0)
  intro t
  split
  · exact .bind (advances_counted _ _) fun _ => .bind .eat fun _ => .pure _
  · exact .bind (advances_counted _ _) fun _ => .bind (advances_counted _ _) fun _ =>
      .bind .eat fun _ => .pure _
  · exact .pure _

theorem advances_measureIndent : Advances (measureIndent ruler) :=
  .bind advances_indentColumns fun _ => .pure _

theorem advances_lineStart : Advances (lineStart ruler) := by
  apply Advances.loop
  intro _
  apply Advances.bind .get
  intro s
  split
  · exact .pure _
  · apply Advances.bind .cursor
    intro c
    split
    · exact .pure _
    · apply Advances.bind advances_measureIndent
      intro measured
      apply Advances.bind (.peekTag 0)
      intro tag
      split
      · exact .pure _
      · exact .bind (.paused .eat) fun _ => .pure _
      · exact .bind (.setLineIndent _) fun _ => .pure _

theorem advances_classify : Advances classify := by
  apply Advances.bind (.peek 0)
  intro t
  split
  · apply Advances.bind (.repeats t)
    intro size
    split
    · apply Advances.bind (.peekTag size)
      intro tag
      split
      · exact .pure _
      · exact .pure _
    · exact .pure _
  · exact .bind (.repeats t) fun _ => .pure _
  · apply Advances.bind (.repeats t)
    intro n
    split
    · apply Advances.bind (.peekTag 1)
      intro tag
      split
      · exact .pure _
      · exact .pure _
    · exact .pure _
  · exact .pure _
  · exact .bind (.repeats t) fun _ => .pure _
  · exact .pure _
  · apply Advances.bind (.peekTag 1)
    intro next
    split
    · apply Advances.bind (.peekTag 2)
      intro tag
      split
      · exact .pure _
      · exact .pure _
    · exact .pure _
  · exact .pure _

theorem advances_dispatch (room : Nat) : Advances (dispatch room) :=
  .bind advances_classify fun _ => .pure _

theorem advances_nextTurn {α : Type} {continues : Marker → Bool} {level : Level} (a : α) :
    Advances (nextTurn level i continues a) := by
  apply Advances.bind advances_lineStart
  intro r
  cases r with
  | none => exact .pure _
  | some measured =>
    dsimp only
    split
    · exact .pure _
    · exact .bind (advances_dispatch _) fun _ => .pure _

end

section

variable {p : ParagraphContext} {i : Nat}

theorem advances_continueParagraph : Advances (continueParagraph p) := by
  apply Advances.bind .eat
  intro newline
  apply Advances.bind advances_measureIndent
  intro measured
  apply Advances.bind (.peekTag 0)
  intro tag
  split
  · exact .pure _
  · apply Advances.bind (.setLineIndent _)
    intro _
    split
    · exact .pure _
    · apply Advances.bind (advances_dispatch _)
      intro marker
      split
      · exact .pure _
      · exact .pure _

theorem advances_escape (c : InlineContent) : Advances (escape c) := by
  apply Advances.bind .eat
  intro backslash
  apply Advances.bind (.peekTag 0)
  intro tag
  split
  · exact .pure _
  · exact .bind .eat fun _ => .pure _

theorem advances_rawInline (t : Token) : Advances (rawInline i t) := by
  apply Advances.bind (.repeats t)
  intro n
  generalize (if 2 ≤ n then 2 else 1) = count
  apply Advances.bind (.eatMany _)
  intro _
  apply Advances.bind
  · apply Advances.loop
    rintro ⟨stop, run⟩
    apply Advances.bind (.peek 0)
    intro next
    split
    · exact .pure _
    · dsimp only
      split
      · apply Advances.bind (.repeats _)
        intro m
        split
        · exact .bind (.eatMany _) fun _ => .pure _
        · exact .bind .eat fun _ => .pure _
      · exact .bind .eat fun _ => .pure _
  · rintro ⟨stop, run⟩
    exact .pure _

theorem advances_linkAhead : Advances linkAhead := .bind (.peekTag 1) fun _ => .pure _

theorem advances_link : Advances (link i) := by
  have hrest (opening : Token) (target : List Char) (caption : Option String) : Advances (do
      let _ ← eatIf .rightAngle
      let stop ← endFrom opening.start
      return .link ⟨opening.start, stop, i⟩ (String.ofList (Text.trimEnd target)) caption :
        Parse Inline) :=
    .bind (.eatIf _) fun _ => .bind (.endFrom _) fun _ => .pure _
  apply Advances.bind .eat
  intro opening
  apply Advances.bind (.readUntil _)
  intro target
  apply Advances.bind (.eatIf _)
  intro semicolon
  dsimp only
  split
  · apply Advances.bind .eatInlineSpace
    intro _
    apply Advances.bind (.readUntil _)
    intro text
    split
    · exact hrest _ _ _
    · exact hrest _ _ _
  · exact hrest _ _ _

theorem advances_tagAhead : Advances tagAhead := by
  apply Advances.bind .cursor
  intro c
  split
  · exact .bind (.peek 1) fun _ => .pure _
  · exact .pure _

theorem advances_tagRef : Advances (tagRef i) := .bind .eat fun _ => .bind .eat fun _ => .pure _

theorem advances_closing {style : Style} (start opened : Nat) (r : List Inline × InlineStop) :
    Advances (do
      let (children, ending) := r
      let mut stop := (children.getLast?.map (·.span.stop)).getD opened
      if ending = .close then
        eatMany style.length
        stop := (← cursor).lastEnd
      return (.styled ⟨start, stop, i⟩ style children, ending) : Parse (Inline × InlineStop)) := by
  obtain ⟨children, ending⟩ := r
  dsimp only
  split
  · exact .bind (.eatMany _) fun _ => .bind .cursor fun _ => .pure _
  · exact .pure _

theorem advances_styled {style : Style} {inner : Parse (List Inline × InlineStop)}
    (h : Advances inner) : Advances (styled i style inner) := by
  apply Advances.bind (.peek 0)
  intro t
  apply Advances.bind (.eatMany _)
  intro _
  apply Advances.bind (.endFrom _)
  intro opened
  exact .bind h (advances_closing _ _)

theorem advances_literal (c : InlineContent) : Advances (literal c) := .bind .eat fun _ => .pure _

theorem advances_inlineTurn {stops : List Style}
    {inner : List Style → Parse (List Inline × InlineStop)} (h : ∀ stops, Advances (inner stops))
    (c : InlineContent) : Advances (inlineTurn p stops inner c) := by
  have hliteral : Advances (do return .again (← literal c) :
      Parse (Turn (List Inline × InlineStop) InlineContent)) :=
    .bind (advances_literal c) fun _ => .pure _
  apply Advances.bind (.peek 0)
  intro t
  dsimp only
  split
  case h_1 => exact .pure _
  case h_2 =>
    split
    · exact .pure _
    · split
      · exact .pure _
      · apply Advances.bind advances_continueParagraph
        intro r
        cases r with
        | none => exact .pure _
        | some newline => exact .pure _
  case h_3 =>
    split
    · exact .pure _
    · exact hliteral
  case h_4 => exact .bind (advances_escape c) fun _ => .pure _
  case h_5 | h_6 | h_7 =>
    apply Advances.bind (.repeats t)
    intro run
    split
    · exact hliteral
    · split
      · exact .pure _
      · split
        · exact .pure _
        · apply Advances.bind (advances_styled (h _))
          rintro ⟨node, ending⟩
          exact .pure _
  case h_8 => exact .bind (advances_rawInline t) fun _ => .pure _
  case h_9 =>
    apply Advances.bind advances_linkAhead
    intro found
    split
    · exact .bind advances_link fun _ => .pure _
    · exact hliteral
  case h_10 =>
    apply Advances.bind advances_tagAhead
    intro found
    split
    · exact .bind advances_tagRef fun _ => .pure _
    · exact hliteral
  case h_11 => exact hliteral

theorem advances_inlines (n : Nat) (stops : List Style) : Advances (inlines p n stops) := by
  induction n generalizing stops with
  | zero => exact .throw _
  | succ n ih => exact .loop (advances_inlineTurn ih) _

theorem advances_paragraph : Advances (paragraph p) := by
  apply Advances.bind (.peek 0)
  intro t
  apply Advances.bind (advances_inlines _ _)
  rintro ⟨children, ending⟩
  exact .bind (.endFrom _) fun _ => .pure _

end

section

variable {ruler : Ruler} {level : Level} {body : Nat → Parse (List Block)} {i : Nat}

theorem advances_enterBody : Advances (enterBody i) :=
  .bind .eatInlineSpace fun _ => .bind (.peekTag 0) fun _ => .setLineIndent _

theorem advances_endCovering (start : Nat) (children : List Block) :
    Advances (endCovering start children) :=
  .bind (.endFrom _) fun _ => .pure _

theorem advances_cellSpan (n : Nat) : Advances (cellSpan n) := .bind (.peek n) fun _ => .pure _

theorem advances_cellSize (gap : Nat) : Advances (cellSize gap) := by
  apply Advances.bind (advances_cellSpan _)
  intro width
  apply Advances.bind (advances_cellSpan _)
  intro height
  split
  · apply Advances.bind (.peekTag _)
    intro next
    split
    · apply Advances.bind (.peekTag _)
      intro bracket
      split
      · exact .bind (.eatMany _) fun _ => .pure _
      · exact .pure _
    · exact .pure _
  · exact .pure _

theorem advances_cellConfig : Advances cellConfig := by
  apply Advances.bind (.peekTag 0)
  intro tag
  generalize (if tag.isInlineSpace = true then 1 else 0) = gap
  apply Advances.bind (.peekTag gap)
  intro bracket
  dsimp only
  split
  · exact .pure _
  · apply Advances.bind (.peekTag _)
    intro next
    split
    · apply Advances.bind (.peekTag _)
      intro right
      split
      · exact .bind (.eatMany _) fun _ => .pure _
      · exact advances_cellSize gap
    · exact advances_cellSize gap

theorem advances_cell (bar : Token) (config : CellConfig) (children : List Block) :
    Advances (cell bar i config children) :=
  .bind (advances_endCovering _ _) fun _ => .pure _

theorem advances_cellEnd (hbody : ∀ i, Advances (body i)) (cells : List Block) (bar : Token)
    (config : CellConfig) (children : List Block) :
    Advances (cellEnd body i cells bar config children) := by
  apply Advances.bind (.peekTag 0)
  intro tag
  split
  · exact .bind (advances_cell _ _ _) fun _ => .pure _
  · exact .bind .eat fun _ => .bind (hbody _) fun _ => .bind (advances_cell _ _ _) fun _ =>
      .pure _
  · exact .bind (advances_cell _ _ _) fun _ => .pure _

theorem advances_cellBehind (hbody : ∀ i, Advances (body i)) (cells : List Block) (bar : Token) :
    Advances (cellBehind level body i cells bar) := by
  apply Advances.bind (.peekTag 0)
  intro next
  split
  · exact .bind .eatLine fun _ => .pure _
  · apply Advances.bind advances_cellConfig
    intro config
    apply Advances.bind .eatInlineSpace
    intro _
    apply Advances.bind (.peekTag 0)
    intro next
    split
    · exact .bind advances_paragraph fun _ => advances_cellEnd hbody _ _ _ _
    · exact advances_cellEnd hbody _ _ _ _

theorem advances_cellTurn (hbody : ∀ i, Advances (body i)) (cells : List Block) :
    Advances (cellTurn level body i cells) :=
  .bind .eat fun _ => advances_cellBehind hbody _ _

theorem advances_tableLine (hbody : ∀ i, Advances (body i)) (cells : List Block) :
    Advances (tableLine level body i cells) := .loop (advances_cellTurn hbody) _

theorem advances_tableRow (st : TableState) (divider : Bool) :
    Advances (tableRow i st divider) :=
  .bind (advances_endCovering _ _) fun _ => .pure _

theorem advances_tableLineEnd (st : TableState) (line : TableLine) :
    Advances (tableLineEnd i st line) := by
  cases line with
  | divider =>
    simp only [tableLineEnd]
    split
    · exact .pure _
    · exact .bind (advances_tableRow _ _) fun _ => .pure _
  | cells nested => exact .pure _

theorem advances_tableStepFrom (hbody : ∀ i, Advances (body i)) (st : TableState)
    (rowStart : Nat) : Advances (tableStepFrom level body i st rowStart) :=
  .bind (advances_tableLine hbody _) fun _ => advances_tableLineEnd _ _

theorem advances_tableStep (hbody : ∀ i, Advances (body i)) (st : TableState) :
    Advances (tableStep level body i st) := by
  unfold tableStep
  split
  · exact .bind (.peek 0) fun _ => advances_tableStepFrom hbody _ _
  · exact advances_tableStepFrom hbody _ _

theorem advances_tableTurn (hbody : ∀ i, Advances (body i)) (st : TableState) :
    Advances (tableTurn level body i st) :=
  .bind (advances_tableStep hbody st) fun _ => advances_nextTurn _

theorem advances_tableRows (st : TableState) : Advances (tableRows i st) := by
  unfold tableRows
  split
  · exact .pure _
  · exact .bind (advances_tableRow _ _) fun _ => .pure _

theorem advances_table (hbody : ∀ i, Advances (body i)) : Advances (table level body i) :=
  .bind (.peek 0) fun _ => .bind (.loop (advances_tableTurn hbody) _) fun _ =>
    .bind (advances_tableRows _) fun _ => .bind (advances_endCovering _ _) fun _ => .pure _

theorem advances_header (size : Nat) : Advances (header level size i) := by
  apply Advances.bind (.peek 0)
  intro t
  apply Advances.bind (.eatMany _)
  intro _
  apply Advances.bind .eatInlineSpace
  intro _
  apply Advances.bind advances_paragraph
  intro child
  exact .bind (.eatIf _) fun _ => .bind (.endFrom _) fun _ => .pure _

theorem advances_separator : Advances (separator i) := by
  apply Advances.bind (.peek 0)
  intro t
  apply Advances.bind (.repeats t)
  intro n
  apply Advances.bind (.eatMany n)
  intro _
  exact .bind (.endFrom _) fun _ => .bind .eatLine fun _ => .pure _

theorem advances_blankTurn (count : Nat) : Advances (blankTurn ruler count) := by
  apply Advances.bind advances_indentColumns
  intro columns
  apply Advances.bind (.peekTag 0)
  intro tag
  split
  · exact .pure _
  · exact .bind (.paused .eat) fun _ => .pure _

theorem advances_skipBlankLines : Advances (skipBlankLines ruler) := .loop advances_blankTurn _

theorem advances_sourceText (start stop : Nat) : Advances (sourceText start stop) :=
  .bind .get fun _ => .pure _

theorem advances_columnSpaces (columns : Nat) : Advances (columnSpaces ruler columns) := by
  unfold columnSpaces
  split
  · exact .throw _
  · exact .pure _

theorem advances_rawNext (base : Nat) (text : List Char) (columns blank : Nat) :
    Advances (rawNext ruler base i text columns blank) := by
  apply Advances.bind (.peekTag 0)
  intro tag
  split
  · exact .pure _
  · apply Advances.bind (.setLineIndent _)
    intro _
    split
    · exact .pure _
    · apply Advances.bind (.setLineIndent _)
      intro _
      exact .bind (advances_columnSpaces _) fun _ => .bind (.peek 0) fun _ => .pure _

theorem advances_rawRest (base : Nat) (text : List Char) (newline : Option Token) :
    Advances (do
      if newline.isNone then return .done text
      let (columns, blank) ← skipBlankLines ruler
      rawNext ruler base i text columns blank) := by
  split
  · exact .pure _
  · exact .bind advances_skipBlankLines fun _ => advances_rawNext _ _ _ _

theorem advances_rawTurn (base : Nat) (lines : List Char × Nat) :
    Advances (rawTurn ruler base i lines) := by
  obtain ⟨text, start⟩ := lines
  apply Advances.bind (.eatUntil _)
  intro _
  apply Advances.bind (.endFrom _)
  intro stop
  apply Advances.bind (advances_sourceText _ _)
  intro line
  exact .bind (.eatIf _) fun _ => advances_rawRest _ _ _

theorem advances_rawLines (base start : Nat) : Advances (rawLines ruler base i start) :=
  .loop (advances_rawTurn _) _

theorem advances_rawBlock : Advances (rawBlock ruler i) := by
  apply Advances.bind .eat
  intro marker
  apply Advances.bind .get
  intro s
  apply Advances.bind (advances_counted _ _)
  intro base
  apply Advances.bind (advances_rawLines _ _)
  intro text
  exact .bind (.endFrom _) fun _ => .bind (.endFrom _) fun _ => .pure _

theorem advances_bodied (hbody : ∀ i, Advances (body i)) (start : Nat) (kind : Container) :
    Advances (bodied body i start kind) :=
  .bind advances_enterBody fun _ => .bind (hbody _) fun _ => .bind (advances_endCovering _ _)
    fun _ => .pure _

theorem advances_listItem (hbody : ∀ i, Advances (body i)) (size : Nat) :
    Advances (listItem body size i) :=
  .bind (.peek 0) fun _ => .bind (.eatMany _) fun _ => advances_bodied hbody _ _

theorem advances_itemTurn {continues : Nat → Marker → Bool} (hbody : ∀ i, Advances (body i))
    (size : Nat) (items : List Block) :
    Advances (itemTurn level body size i continues items) :=
  .bind (advances_listItem hbody size) fun _ => advances_nextTurn _

theorem advances_listItems {continues : Nat → Marker → Bool} {kind : Container}
    (hbody : ∀ i, Advances (body i)) (size : Nat) :
    Advances (listItems level body size i continues kind) :=
  .bind (.peek 0) fun _ => .bind (.loop (advances_itemTurn hbody _) _) fun _ =>
    .bind (advances_endCovering _ _) fun _ => .pure _

theorem advances_task (hbody : ∀ i, Advances (body i)) : Advances (task body i) :=
  .bind .eat fun _ => .bind advances_directives fun _ => advances_bodied hbody _ _

theorem advances_block (hbody : ∀ i, Advances (body i)) (marker : Marker) :
    Advances (block level body i marker) := by
  cases marker with
  | header size => exact advances_header size
  | task => exact advances_task hbody
  | list => exact advances_listItems hbody _
  | ordered first => exact advances_listItems hbody _
  | table => exact advances_table hbody
  | separator => exact advances_separator
  | raw => exact advances_rawBlock
  | paragraph => exact advances_paragraph

theorem advances_nextBlock (hbody : ∀ i, Advances (body i)) :
    Advances (nextBlock level body i) := by
  apply Advances.bind advances_lineStart
  intro r
  cases r with
  | none => exact .pure _
  | some measured =>
    dsimp only
    split
    · exact .pure _
    · exact .bind (advances_dispatch _) fun _ => .bind (.record _) fun _ =>
        .bind (advances_block hbody _) fun _ => .pure _

theorem advances_blockTurn (hbody : ∀ i, Advances (body i)) (bs : List Block) :
    Advances (blockTurn level body i bs) := by
  apply Advances.bind (advances_nextBlock hbody)
  intro r
  cases r with
  | none => exact .pure _
  | some b => exact .pure _

theorem advances_blocks (hbody : ∀ i, Advances (body i)) : Advances (blocks level body i) :=
  .loop (advances_blockTurn hbody) _

theorem advances_body (room : Nat) : Advances (Parse.body ruler room i) := by
  induction room generalizing i with
  | zero => exact .pure _
  | succ room ih => exact advances_blocks fun _ => ih

end

end TaskMarkup.Parse
