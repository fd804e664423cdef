import TaskMarkup.Proofs.Grammar.Outline
import TaskMarkup.Proofs.Token.Grid

namespace TaskMarkup

namespace Grid

def config : Option Brackets → CellConfig
  | none => {}
  | some .hidden => { invisible := true }
  | some (.size width height) => { width, height }

def Cell.node (c : Cell) : Block :=
  .container ⟨0, 0, 0⟩ (.tableCell (config c.brackets))
    [.paragraph ⟨0, 0, 0⟩ [.text ⟨0, 0, 0⟩ (String.ofList c.word)]]

def Row.node (divider : Bool) (row : Row) : Block :=
  .container ⟨0, 0, 0⟩ (.tableRow divider) (row.flatten.map Cell.node)

/-- The table of some rows, without spans. The first row is a header if it is closed and has a
single line. -/
def table (closed : List Row) (opened : Option Row) : Block :=
  .container ⟨0, 0, 0⟩ (.table (closed.head?.any fun row => row.length = 1))
    (closed.map (Row.node true) ++ opened.toList.map (Row.node false))

def add : List Row × Row → Line → List Row × Row
  | (closed, row), .cells cs => (closed, row ++ [cs])
  | (closed, row), .divider => if row = [] then (closed, []) else (closed ++ [row], [])

structure Holds (closed : List Row) (row : Row) (s : TableState) : Prop where
  rows : s.rows.map Block.bare = closed.map (Row.node true)
  header : s.header = closed.head?.any fun row => row.length = 1
  cells : s.cells.map Block.bare = row.flatten.map Cell.node
  lines : s.lines = row.length
  nested : s.nested = false
  full : ∀ cs ∈ row, cs ≠ []

inductive Adds (cells : List Block) : Line → List Block × TableLine → Prop
  | cells {cs : List Cell} {read : List Block} : cs ≠ [] →
      read.map Block.bare = cells.map Block.bare ++ cs.map Cell.node →
      Adds cells (.cells cs) (read, .cells false)
  | divider : Adds cells .divider (cells, .divider)

inductive Reached : List Line → Lexer Cursor → Prop
  | ended {t : Lexer Cursor} : t.Sound → t.pending = [] →
      t.atEof = true ∨ t.observer.lineIndent = none → Reached [] t
  | line {l : Line} {ls : List Line} {rest : List Token} {t : Lexer Cursor} : t.Sound →
      Written l t.pending rest → Behind ls rest →
      t.observer.lineIndent = none ∨ t.observer.lineIndent = some 0 → Reached (l :: ls) t

variable {room : Nat} {l : Line} {ls : List Line} {closed : List Row} {row : Row}
  {opened : Option Row} {toks rest : List Token} {s t : Lexer Cursor} {st : TableState}

theorem foldl_add_cells (closed : List Row) (row lines : Row) :
    (lines.map Line.cells).foldl add (closed, row) = (closed, row ++ lines) := by
  induction lines generalizing row with
  | nil => simp
  | cons cs lines ih => simp [add, ih]

theorem foldl_add_closed (done : List Row) (h : ∀ row ∈ closed, row ≠ []) :
    (closed.flatMap fun row => row.map Line.cells ++ [.divider]).foldl add (done, []) =
      (done ++ closed, []) := by
  induction closed generalizing done with
  | nil => simp
  | cons row closed ih =>
    obtain ⟨hrow, hclosed⟩ := List.forall_mem_cons.1 h
    simp [foldl_add_cells, add, hrow, ih _ hclosed]

theorem foldl_add_lines (h : ∀ row ∈ closed ++ opened.toList, row ≠ []) :
    (lines closed opened).foldl add ([], []) = (closed, opened.getD []) := by
  rw [lines, List.foldl_append, foldl_add_closed [] fun row hrow => h row (by simp [hrow])]
  cases opened with
  | none => simp
  | some row => simp [foldl_add_cells]

namespace Holds

theorem empty (start : Nat) : Holds [] [] { rowStart := start } :=
  ⟨rfl, rfl, rfl, rfl, rfl, by simp⟩

theorem cells_eq_nil_iff (h : Holds closed row st) : st.cells = [] ↔ row = [] := by
  have hcells := h.cells
  refine ⟨fun hnil => ?_, fun hnil => by simpa [hnil] using hcells⟩
  by_contra hne
  obtain ⟨cs, row, rfl⟩ := List.exists_cons_of_ne_nil hne
  rw [hnil, List.map_nil, eq_comm, List.map_eq_nil_iff, List.flatten_cons,
    List.append_eq_nil_iff] at hcells
  exact h.full cs (by simp) hcells.1

theorem line {cs : List Cell} {read : List Block} {rowStart : Nat} (h : Holds closed row st)
    (hne : cs ≠ []) (hread : read.map Block.bare = st.cells.map Block.bare ++ cs.map Cell.node) :
    Holds closed (row ++ [cs])
      { st with cells := read, rowStart, lines := st.lines + 1, nested := st.nested || false } where
  rows := h.rows
  header := h.header
  cells := by simp [hread, h.cells]
  lines := by simp [h.lines]
  nested := by simp [h.nested]
  full := by
    intro line hline
    rcases List.mem_append.1 hline with hline | hline
    · exact h.full line hline
    · rwa [List.mem_singleton.1 hline]

theorem idle {rowStart : Nat} (h : Holds closed [] st) :
    Holds closed [] { st with rowStart, lines := 0, nested := false } where
  rows := h.rows
  header := h.header
  cells := h.cells
  lines := rfl
  nested := rfl
  full := by simp

theorem close {b : Block} {rowStart : Nat} (h : Holds closed row st) (hne : row ≠ [])
    (hb : b.bare = Row.node true row) :
    Holds (closed ++ [row]) [] {
      rows := st.rows ++ [b]
      header := st.header || (st.rows.isEmpty && st.lines ≤ 1 && !st.nested)
      rowStart } where
  rows := by simp [h.rows, hb]
  header := by
    have hrows := h.rows
    have hlength : st.lines ≤ 1 ↔ row.length = 1 := by
      have := List.length_pos_of_ne_nil hne
      rw [h.lines]
      omega
    cases closed with
    | nil =>
      obtain hnil : st.rows = [] := by simpa using hrows
      simp [h.header, hnil, h.nested, hlength]
    | cons first closed =>
      obtain ⟨b, bs, hbs⟩ : ∃ b bs, st.rows = b :: bs :=
        List.exists_cons_of_ne_nil fun hnil => by simp [hnil] at hrows
      simp [h.header, hbs]
  cells := rfl
  lines := rfl
  nested := rfl
  full := by simp

end Holds

theorem Written.exists_head (h : Written l toks rest) :
    ∃ bar us, toks = bar :: us ∧ bar.tag = .pipe := by
  cases h with
  | cells hne hcells =>
    cases hcells with
    | nil => exact absurd rfl hne
    | cons hbar => exact ⟨_, _, rfl, hbar⟩
  | divider hbar => exact ⟨_, _, rfl, hbar⟩

theorem Written.announced (h : Written l s.pending rest) (hroom : room ≠ 0) :
    Parse.announced room s = .table := by
  obtain ⟨bar, us, hp, hbar⟩ := h.exists_head
  have hahead : s.ahead 0 = bar := Lexer.ahead_zero_of_cons hp
  simp [Parse.announced, Parse.classified, hahead, hbar, hroom]

theorem Behind.eq_nil_or_newline (h : Behind ls toks) :
    (ls = [] ∧ toks = []) ∨ ∃ nl us, toks = nl :: us ∧ nl.tag = .newline := by
  cases h with
  | nil => exact .inl ⟨rfl, rfl⟩
  | newline hnl | line hnl => exact .inr ⟨_, _, rfl, hnl⟩

theorem Behind.reached {nl : Token} (h : Behind ls (nl :: t.pending)) (heats : s.Eats nl t)
    (hnl : nl.tag = .newline) : Reached ls t := by
  have ht := heats.sound
  have hline := heats.took.lineIndent_of_newline hnl
  generalize hp : t.pending = us at h
  cases h with
  | newline => exact .ended ht hp (.inr hline)
  | line _ hwritten hbehind => exact .line ht (hp ▸ hwritten) hbehind (.inl hline)

namespace Reached

theorem sound (h : Reached ls t) : t.Sound := by
  cases h <;> assumption

theorem pending_nil (h : Reached [] t) : t.pending = [] := by
  cases h
  assumption

theorem looks (h : Reached ls s) (ht : s.Looks t) : Reached ls t := by
  cases h with
  | ended hs hp hend =>
    exact .ended ht.sound (ht.pending.trans hp)
      (hend.imp (ht.atEof hs) fun hline => by rw [ht.observer, hline])
  | line hs hwritten hbehind hline =>
    exact .line ht.sound (ht.pending ▸ hwritten) hbehind (by rwa [ht.observer])

end Reached

end Grid

namespace Parse

open Rule Grid

variable {E : Empty → Lexer Cursor → Prop} {ruler : Ruler} {level : Level} {room : Nat} {l : Line}
  {ls : List Line} {closed : List Grid.Row} {row : Grid.Row} {rest toks : List Token}
  {s t : Lexer Cursor} {cells : List Block}

theorem ends_lineStart_written (h : Reached ls s) (ruler : Ruler) :
    Ends Fault.IsInternal (lineStart ruler) s
      (fun r t => r = ls.head?.map (fun _ => 0) ∧ Reached ls t) E := by
  cases h with
  | ended hs hp hend =>
    refine (ends_lineStart_ended hs hp hend (s.spare_internal 0) (by decide) ruler).imp ?_
    rintro _ t ⟨rfl, ht, hpt, he⟩
    exact ⟨rfl, .ended ht hpt (.inl he)⟩
  | line hs hwritten hbehind hline =>
    obtain ⟨bar, us, hp, hbar⟩ := hwritten.exists_head
    rcases hline with hline | hline
    · have hcontent : (s.ahead 0).tag.isContent = true := by
        rw [Lexer.ahead_zero_of_cons hp, hbar]
        rfl
      refine (ends_lineStart_content hs hcontent hline (s.spare_internal 0) (by decide)
        ruler).imp ?_
      rintro _ t ⟨rfl, hskip, hpt, hlinet, -⟩
      exact ⟨rfl, .line hskip.sound (hpt ▸ hwritten) hbehind (.inr hlinet)⟩
    · have he : s.atEof = false :=
        Bool.eq_false_iff.2 fun he => by simp [hs.pending_of_atEof he] at hp
      refine (ends_lineStart_of_measured hs he hline).imp ?_
      rintro _ _ ⟨rfl, rfl⟩
      exact ⟨rfl, .line hs hwritten hbehind (.inr hline)⟩

theorem ends_body_written (hroom : room ≠ 0) (h : Reached ls s) :
    Ends Fault.IsInternal (body ruler room 1) s (fun bs t => bs = [] ∧ Reached ls t) E := by
  obtain ⟨room, rfl⟩ := Nat.exists_eq_succ_of_ne_zero hroom
  have hturn : Ends Fault.IsInternal (blockTurn ⟨ruler, room⟩ (body ruler room) 1 []) s
      (fun turn t => turn = .done [] ∧ Reached ls t) E := by
    refine ends_blockTurn_passes ((ends_lineStart_written h ruler).imp ?_)
    rintro _ t ⟨rfl, ht⟩
    refine ⟨fun m hm => ?_, ht⟩
    simp only [Option.mem_def, Option.map_eq_some_iff] at hm
    omega
  refine Ends.loop_internal (Ends.turns_internal (hturn.imp ?_))
  rintro _ t ⟨rfl, ht⟩
  exact ⟨rfl, ht⟩

theorem ends_nextTurn_written {α : Type} {a : α} (hroom : level.room ≠ 0) (h : Reached ls s) :
    Ends Fault.IsInternal (nextTurn level 0 (· = .table) a) s
      (fun turn t => turn = (if ls = [] then .done a else .again a) ∧ Reached ls t) E := by
  have hline := ends_lineStart_written (E := E) h level.ruler
  cases ls with
  | nil =>
    refine ends_nextTurn_passes (hline.imp ?_)
    rintro _ t ⟨rfl, ht⟩
    exact ⟨by simp, ht⟩
  | cons l ls =>
    refine ends_nextTurn_takes (fun _ _ => Reached.looks) (hline.imp ?_)
    rintro _ t ⟨rfl, ht⟩
    refine ⟨rfl, ht.sound, ?_, ht⟩
    cases ht with
    | line _ hwritten _ _ => simpa using hwritten.announced hroom

theorem ends_cellConfig_written {brackets : Option Brackets} {ts : List Token} {word : Token}
    (h : Bracketed brackets ts) (hs : s.Sound) (hp : s.pending = ts ++ word :: toks)
    (hword : word.tag = .word) :
    Ends Fault.IsInternal cellConfig s (fun c t => c = config brackets ∧ t.Sound ∧
      t.pending = word :: toks) E := by
  have hahead (n : Nat) : s.ahead n = (ts ++ word :: toks).getD n (.eof s.source.size) := by
    rw [Lexer.ahead, hp]
  have heat {c : CellConfig} {v : Lexer Cursor} (hv : s.Looks v) (hc : c = config brackets) :
      Ends Fault.IsInternal (eatMany ts.length >>= fun _ => Pure.pure c) v
        (fun c t => c = config brackets ∧ t.Sound ∧ t.pending = word :: toks) E := by
    refine Ends.seq (Ends.eatMany_append hv.sound (hv.pending.trans hp) rfl (v.spare_internal 0)
      (by decide)) ?_
    rintro - t ⟨ht, hpt, -⟩
    exact Ends.pure ⟨hc, ht.sound, hpt⟩
  have hspace : (s.ahead 0).tag.isInlineSpace = false := by
    rw [hahead]
    cases h <;> simp [*, Tag.isInlineSpace]
  refine Ends.look (.refl hs) (by decide) fun t ht => ?_
  simp only [hspace, Bool.false_eq_true, if_false, Nat.zero_add]
  refine Ends.look ht (by decide) fun u hu => ?_
  rw [hahead]
  cases h with
  | none =>
    rw [if_pos (by simp [hword])]
    exact Ends.pure ⟨rfl, hu.sound, hu.pending.trans hp⟩
  | @hidden opening hash closing hopening hhash hclosing =>
    rw [if_neg (by simp [hopening])]
    refine Ends.look hu (by decide) fun v hv => ?_
    rw [hahead, if_pos (by simp [hhash])]
    refine Ends.look hv (by decide) fun w hw => ?_
    rw [hahead, if_pos (by simp [hclosing])]
    exact heat hw rfl
  | @size opening w colon h closing width height hopening hwidth hcolon hheight hclosing =>
    have hne : w.tag ≠ .hash := fun htag => by simp [CellSpan.ofToken?, htag] at hwidth
    rw [if_neg (by simp [hopening])]
    refine Ends.look hu (by decide) fun v hv => ?_
    rw [hahead, if_neg (by simpa using hne)]
    refine Ends.bind (Ends.bind (Ends.peek hv (by decide) (v.spare_internal 0) (by decide)
      fun w hw _ _ => Ends.pure ?_))
    refine Ends.bind (Ends.bind (Ends.peek hw (by decide) (w.spare_internal 0) (by decide)
      fun x hx _ _ => Ends.pure ?_))
    simp only [hahead, Nat.zero_add, List.cons_append, List.getD_cons_succ, List.getD_cons_zero,
      hwidth, hheight]
    refine Ends.look hx (by decide) fun y hy => ?_
    rw [hahead, if_pos (by simp [hcolon])]
    refine Ends.look hy (by decide) fun z hz => ?_
    rw [hahead, if_pos (by simp [hclosing])]
    exact heat hz rfl

theorem ends_inlineTurn_cellLine {inner : List Style → Parse (List Inline × InlineStop)}
    {c : InlineContent} {i : Nat}
    (hs : s.Sound) (hp : ∀ t ∈ s.pending.head?, t.tag = .pipe ∨ t.tag = .newline) :
    Ends Fault.IsInternal (inlineTurn ⟨level, i, .cellLine⟩ [] inner c) s (fun turn t =>
      turn = .done (c.flush i, .over) ∧ s.Looks t) E := by
  refine Ends.bind (Ends.peek (.refl hs) (by decide) (s.spare_internal 0) (by decide)
    fun t ht _ _ => ?_)
  obtain ⟨toks, htoks⟩ : ∃ toks, s.pending = toks := ⟨_, rfl⟩
  rw [htoks] at hp
  cases toks with
  | nil =>
    rw [Lexer.ahead_zero_of_nil htoks]
    exact Ends.pure ⟨rfl, ht⟩
  | cons tok toks =>
    rw [Lexer.ahead_zero_of_cons htoks]
    rcases hp tok rfl with htag | htag <;> simp only [htag, List.any_nil, if_true]
    · exact Ends.pure ⟨rfl, ht⟩
    · exact Ends.pure ⟨rfl, ht⟩

theorem ends_cell_bare {bar : Token} {i : Nat} {c : CellConfig} {children : List Block} :
    Ends Fault.IsInternal (cell bar i c children) s (fun b t =>
      b.bare = .container ⟨0, 0, 0⟩ (.tableCell c) (children.map Block.bare) ∧ t = s) E :=
  Ends.bind (Ends.bind (Ends.endFrom (Ends.pure (Ends.pure ⟨Block.bare_container .., rfl⟩))))

theorem ends_cellEnd_last {bar : Token} {c : CellConfig} {children : List Block}
    (hroom : room ≠ 0) (hs : s.Sound) (h : Behind ls s.pending) :
    Ends Fault.IsInternal (cellEnd (body ruler room) 0 cells bar c children) s (fun turn t =>
      ∃ cell, turn = .done (cells ++ [cell], .cells false) ∧ cell.bare =
        .container ⟨0, 0, 0⟩ (.tableCell c) (children.map Block.bare) ∧ Reached ls t) E := by
  refine Ends.bind (Ends.peekTag (.refl hs) (by decide) (s.spare_internal 0) (by decide)
    fun t ht _ hz => ?_)
  rcases h.eq_nil_or_newline with ⟨rfl, hp⟩ | ⟨nl, us, hp, hnl⟩
  · have hpt := ht.pending.trans hp
    rw [Lexer.ahead_zero_of_nil hp]
    refine Ends.seq ends_cell_bare ?_
    rintro cell _ ⟨hcell, rfl⟩
    exact Ends.pure ⟨cell, rfl, hcell, .ended ht.sound hpt (.inl ((ht.sound.atEof_iff hz).2 hpt))⟩
  · rw [Lexer.ahead_zero_of_cons hp, hnl]
    refine Ends.bind (Ends.eat ht (t.spare_internal 0) (by decide) hp fun u hu hpu _ => ?_)
    rw [hp, ← hpu] at h
    refine Ends.seq (ends_body_written hroom (h.reached hu hnl)) ?_
    rintro _ v ⟨rfl, hv⟩
    refine Ends.seq ends_cell_bare ?_
    rintro cell _ ⟨hcell, rfl⟩
    exact Ends.pure ⟨cell, rfl, by simpa using hcell, hv⟩

theorem ends_cellEnd_pipe {body : Nat → Parse (List Block)} {bar next : Token} {c : CellConfig}
    {children : List Block} (hs : s.Sound) (hp : s.pending = next :: toks)
    (hnext : next.tag = .pipe) :
    Ends Fault.IsInternal (cellEnd body 0 cells bar c children) s (fun turn t =>
      ∃ cell, turn = .again (cells ++ [cell]) ∧ cell.bare =
        .container ⟨0, 0, 0⟩ (.tableCell c) (children.map Block.bare) ∧ s.Looks t) E := by
  refine Ends.look (.refl hs) (by decide) fun t ht => ?_
  rw [Lexer.ahead_zero_of_cons hp, hnext]
  refine Ends.seq ends_cell_bare ?_
  rintro cell _ ⟨hcell, rfl⟩
  exact Ends.pure ⟨cell, rfl, hcell, ht⟩

theorem ends_cellTurn_word {c : Cell} {bar word : Token} {ts : List Token}
    {body : Nat → Parse (List Block)}
    {Q : Turn (List Block × TableLine) (List Block) → Lexer Cursor → Prop} (hs : s.Sound)
    (hp : s.pending = bar :: (ts ++ word :: toks)) (hts : Bracketed c.brackets ts)
    (hword : word.tag = .word) (htext : word.text = c.word)
    (hnext : ∀ t ∈ toks.head?, t.tag = .pipe ∨ t.tag = .newline)
    (h : ∀ b t, Block.container ⟨0, 0, 0⟩ (.tableCell (config c.brackets)) [b.bare] = c.node →
      t.Sound → t.pending = toks →
      Ends Fault.IsInternal (cellEnd body 0 cells bar (config c.brackets) [b]) t Q E) :
    Ends Fault.IsInternal (cellTurn level body 0 cells) s Q E := by
  refine Ends.bind (Ends.eat (.refl hs) (s.spare_internal 0) (by decide) hp fun t ht hpt _ => ?_)
  refine Ends.look (.refl ht.sound) (by decide) fun u hu => ?_
  have hdash : (t.ahead 0).tag ≠ .dash := by
    rw [Lexer.ahead, hpt]
    generalize c.brackets = brackets at hts
    cases hts <;> simp [*]
  rw [if_neg hdash]
  refine Ends.seq (ends_cellConfig_written hts hu.sound (hu.pending.trans hpt) hword) ?_
  rintro _ v ⟨rfl, hv, hpv⟩
  refine Ends.seq (Ends.eatInlineSpace hv (v.spare_internal 0) (by decide)) ?_
  rintro - w ⟨hw, -, -⟩
  have hpw : w.pending = word :: toks := by
    rw [hw.pending_of_takeWhile, hpv]
    simp [hword, Tag.isInlineSpace]
  refine Ends.look (.refl hw.sound) (by decide) fun x hx => ?_
  rw [Lexer.ahead_zero_of_cons hpw, hword]
  refine Ends.seq (ends_paragraph_single (p := ⟨level, 0 + 1, .cellLine⟩)
    (Q := fun y => y.Sound ∧ y.pending = toks) hx.sound (hx.pending.trans hpw)
    (by rw [hword]; rfl) fun inner c y hy _ hpy => ?_) ?_
  · refine (ends_inlineTurn_cellLine hy (hpy ▸ hnext)).imp ?_
    rintro _ z ⟨hturn, hz⟩
    exact ⟨hturn, hz.sound, hz.pending.trans hpy⟩
  rintro b y ⟨hb, hy, hpy⟩
  exact h b y (by rw [hb, htext]; rfl) hy hpy

theorem ends_cellTurn_cells {c : Cell} {cs : List Cell} (hroom : room ≠ 0) (hs : s.Sound)
    (h : Cells (c :: cs) s.pending rest) (hbehind : Behind ls rest) :
    Ends Fault.IsInternal (cellTurn level (body ruler room) 0 cells) s (fun turn t =>
      ∃ cell, cell.bare = c.node ∧ (cs = [] ∧ turn = .done (cells ++ [cell], .cells false) ∧
        Reached ls t ∨ cs ≠ [] ∧ turn = .again (cells ++ [cell]) ∧ t.Sound ∧
          Cells cs t.pending rest)) E := by
  generalize hp : s.pending = toks at h
  cases h with
  | @cons _ _ bar word ts toks _ hbar hts hword htext hcells =>
  cases cs with
  | nil =>
    cases hcells
    refine ends_cellTurn_word hs hp hts hword htext ?_ fun b t hb ht hpt => ?_
    · rcases hbehind.eq_nil_or_newline with ⟨-, rfl⟩ | ⟨nl, us, rfl, hnl⟩
      · simp
      · simp [hnl]
    · refine (ends_cellEnd_last hroom ht (hpt ▸ hbehind)).imp ?_
      rintro _ u ⟨cell, rfl, hcell, hu⟩
      exact ⟨cell, hcell.trans hb, .inl ⟨rfl, rfl, hu⟩⟩
  | cons next cs =>
    have hnext : ∃ tok us, toks = tok :: us ∧ tok.tag = .pipe := by
      cases hcells with
      | cons hpipe => exact ⟨_, _, rfl, hpipe⟩
    obtain ⟨tok, us, rfl, hpipe⟩ := hnext
    refine ends_cellTurn_word hs hp hts hword htext (by simp [hpipe]) fun b t hb ht hpt => ?_
    refine (ends_cellEnd_pipe ht hpt hpipe).imp ?_
    rintro _ u ⟨cell, rfl, hcell, hu⟩
    exact ⟨cell, hcell.trans hb, .inr ⟨by simp, rfl, hu.sound, by rwa [hu.pending, hpt]⟩⟩

theorem ends_tableLine_cells {cs : List Cell} (hroom : room ≠ 0) (hne : cs ≠ []) (hs : s.Sound)
    (h : Cells cs s.pending rest) (hbehind : Behind ls rest) :
    Ends Fault.IsInternal (tableLine level (body ruler room) 0 cells) s (fun r t =>
      r.2 = .cells false ∧ r.1.map Block.bare = cells.map Block.bare ++ cs.map Cell.node ∧
        Reached ls t) E := by
  refine Ends.loop_of_exhausted id (fun read t => ∃ done todo, cs = done ++ todo ∧ todo ≠ [] ∧
    read.map Block.bare = cells.map Block.bare ++ done.map Cell.node ∧ t.Sound ∧
      Cells todo t.pending rest) ⟨[], cs, rfl, hne, by simp, hs, h⟩ ?_
  rintro read t ⟨done, todo, rfl, htodo, hread, ht, hcells⟩
  obtain ⟨c, todo, rfl⟩ := List.exists_cons_of_ne_nil htodo
  refine (ends_cellTurn_cells hroom ht hcells hbehind).imp ?_
  rintro _ u ⟨cell, hcell, ⟨rfl, rfl, hu⟩ | ⟨hne, rfl, hu, hrest⟩⟩
  · exact ⟨rfl, by simp [hread, hcell], hu⟩
  · exact ⟨done ++ [c], todo, by simp, hne, by simp [hread, hcell], hu, hrest⟩

theorem ends_tableLine_divider {body : Nat → Parse (List Block)} {bar dash : Token} (hs : s.Sound)
    (hp : s.pending = bar :: dash :: rest) (hdash : dash.tag = .dash) (hbehind : Behind ls rest) :
    Ends Fault.IsInternal (tableLine level body 0 cells) s (fun r t =>
      r = (cells, .divider) ∧ Reached ls t) E := by
  refine Ends.loop_internal (Ends.turns_internal ?_)
  refine Ends.bind (Ends.eat (.refl hs) (s.spare_internal 0) (by decide) hp fun t ht hpt _ => ?_)
  refine Ends.look (.refl ht.sound) (by decide) fun u hu => ?_
  rw [Lexer.ahead_zero_of_cons hpt, if_pos hdash]
  refine Ends.seq (Ends.eatLine hu.sound (u.spare_internal 0) (by decide)) ?_
  rintro - v ⟨w, hw, -, hv⟩
  have hpw : w.pending = rest := by
    rw [hw.pending_of_takeWhile, hu.pending, hpt]
    rcases hbehind.eq_nil_or_newline with ⟨-, rfl⟩ | ⟨nl, us, rfl, hnl⟩
    · simp [hdash]
    · simp [hdash, hnl]
  refine Ends.pure ⟨rfl, ?_⟩
  rcases hv with ⟨hlooks, hpv, he⟩ | ⟨nl, hnl, heats⟩
  · obtain rfl : rest = [] := hpw.symm.trans (hlooks.pending.symm.trans hpv)
    cases hbehind
    exact .ended hlooks.sound hpv (.inl he)
  · rw [← hpw, heats.pending] at hbehind
    exact hbehind.reached heats hnl

theorem ends_tableLine_written (hroom : room ≠ 0) (hs : s.Sound) (h : Written l s.pending rest)
    (hbehind : Behind ls rest) :
    Ends Fault.IsInternal (tableLine level (body ruler room) 0 cells) s
      (fun r t => Adds cells l r ∧ Reached ls t) E := by
  generalize hp : s.pending = toks at h
  cases h with
  | cells hne hcells =>
    refine (ends_tableLine_cells hroom hne hs (hp ▸ hcells) hbehind).imp ?_
    rintro ⟨_, _⟩ t ⟨rfl, hread, ht⟩
    exact ⟨.cells hne hread, ht⟩
  | divider _ hdash =>
    refine (ends_tableLine_divider hs hp hdash hbehind).imp ?_
    rintro _ t ⟨rfl, ht⟩
    exact ⟨.divider, ht⟩

theorem ends_endCovering_bare {start : Nat} :
    Ends Fault.IsInternal (endCovering start cells) s (fun _ t => t = s) E :=
  Ends.bind (Ends.endFrom (Ends.pure rfl))

theorem ends_tableStepFrom_written {rowStart : Nat} {st : TableState} (hroom : room ≠ 0)
    (h : Holds closed row st) (hs : s.Sound) (hwritten : Written l s.pending rest)
    (hbehind : Behind ls rest) :
    Ends Fault.IsInternal (tableStepFrom level (body ruler room) 0 st rowStart) s (fun st t =>
      Holds (add (closed, row) l).1 (add (closed, row) l).2 st ∧ Reached ls t) E := by
  refine Ends.seq (ends_tableLine_written hroom hs hwritten hbehind) ?_
  rintro r t ⟨hadds, ht⟩
  cases hadds with
  | cells hne hread => exact Ends.pure ⟨h.line hne hread, ht⟩
  | divider =>
    unfold tableLineEnd
    dsimp only
    by_cases hrow : row = []
    · subst hrow
      rw [if_pos (by simpa using h.cells_eq_nil_iff.2 rfl)]
      exact Ends.pure ⟨h.idle, ht⟩
    · rw [if_neg (by simpa using h.cells_eq_nil_iff.not.2 hrow)]
      refine Ends.bind (Ends.seq ends_endCovering_bare ?_)
      rintro stop _ rfl
      refine Ends.pure (Ends.pure ⟨?_, ht⟩)
      simp only [add, if_neg hrow]
      exact h.close hrow (by rw [Block.bare_container, h.cells]; rfl)

theorem ends_tableStep_written {st : TableState} (hroom : room ≠ 0) (h : Holds closed row st)
    (hs : s.Sound) (hwritten : Written l s.pending rest) (hbehind : Behind ls rest) :
    Ends Fault.IsInternal (tableStep level (body ruler room) 0 st) s (fun st t =>
      Holds (add (closed, row) l).1 (add (closed, row) l).2 st ∧ Reached ls t) E := by
  unfold tableStep
  split
  · exact Ends.bind (Ends.peek (.refl hs) (by decide) (s.spare_internal 0) (by decide)
      fun t ht _ _ => ends_tableStepFrom_written hroom h ht.sound (ht.pending ▸ hwritten) hbehind)
  · exact ends_tableStepFrom_written hroom h hs hwritten hbehind

theorem ends_tableLoop_written {start : Nat} (hroom : level.room ≠ 0) (hs : s.Sound)
    (hwritten : Written l s.pending rest) (hbehind : Behind ls rest)
    (hrows : (l :: ls).foldl add ([], []) = (closed, row)) :
    Ends Fault.IsInternal (loop (tableTurn level (body level.ruler level.room) 0)
      ({ rowStart := start } : TableState)) s (fun st t => Holds closed row st ∧ t.pending = [])
      E := by
  refine Ends.loop_of_exhausted id (fun st t => ∃ closed' row' l ls rest, Holds closed' row' st ∧
    t.Sound ∧ Written l t.pending rest ∧ Behind ls rest ∧
      (l :: ls).foldl add (closed', row') = (closed, row))
    ⟨[], [], l, ls, rest, .empty start, hs, hwritten, hbehind, hrows⟩ ?_
  rintro st t ⟨closed', row', l, ls, rest, hst, ht, hwritten, hbehind, hrows⟩
  refine Ends.seq (ends_tableStep_written hroom hst ht hwritten hbehind) ?_
  rintro st u ⟨hst, hu⟩
  refine (ends_nextTurn_written hroom hu).imp ?_
  rintro _ v ⟨rfl, hv⟩
  cases hv with
  | ended _ hp _ =>
    rw [List.foldl_cons, List.foldl_nil] at hrows
    rw [hrows] at hst
    exact ⟨hst, hp⟩
  | line hv hnext hrest _ => exact ⟨_, _, _, _, _, hst, hv, hnext, hrest, hrows⟩

theorem ends_tableRows_written {st : TableState} (h : Holds closed row st) :
    Ends Fault.IsInternal (tableRows 0 st) s (fun rows t => rows.map Block.bare =
      closed.map (Row.node true) ++ (if row = [] then [] else [Row.node false row]) ∧ t = s) E := by
  unfold tableRows
  by_cases hrow : row = []
  · rw [if_pos (by simpa using h.cells_eq_nil_iff.2 hrow), if_pos hrow]
    exact Ends.pure ⟨by simp [h.rows], rfl⟩
  · rw [if_neg (by simpa using h.cells_eq_nil_iff.not.2 hrow), if_neg hrow]
    refine Ends.bind (Ends.seq ends_endCovering_bare ?_)
    rintro stop _ rfl
    refine Ends.pure (Ends.pure ⟨?_, rfl⟩)
    rw [List.map_append, h.rows, List.map_singleton, Block.bare_container, h.cells]
    rfl

theorem ends_table_written {opened : Option Grid.Row} (hroom : level.room ≠ 0)
    (hrows : ∀ row ∈ closed ++ opened.toList, row ≠ []) (hs : s.Sound)
    (hlines : lines closed opened = l :: ls) (hwritten : Written l s.pending rest)
    (hbehind : Behind ls rest) :
    Ends Fault.IsInternal (table level (body level.ruler level.room) 0) s (fun b t =>
      b.bare = Grid.table closed opened ∧ t.pending = []) E := by
  refine Ends.bind (Ends.peek (.refl hs) (by decide) (s.spare_internal 0) (by decide)
    fun t ht _ _ => ?_)
  refine Ends.seq (ends_tableLoop_written hroom ht.sound (ht.pending ▸ hwritten) hbehind
    (hlines ▸ foldl_add_lines hrows)) ?_
  rintro st u ⟨hst, hpu⟩
  refine Ends.seq (ends_tableRows_written hst) ?_
  rintro rows _ ⟨hread, rfl⟩
  refine Ends.seq ends_endCovering_bare ?_
  rintro stop _ rfl
  refine Ends.pure ⟨?_, hpu⟩
  rw [Block.bare_container, hread, hst.header, Grid.table]
  cases opened with
  | none => simp
  | some row =>
    have hrow : row ≠ [] := hrows row (by simp)
    simp [hrow]

end Parse

end TaskMarkup
