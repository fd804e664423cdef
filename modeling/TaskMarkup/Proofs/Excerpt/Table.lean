import TaskMarkup.Proofs.Excerpt.Body

namespace TaskMarkup

variable {x : Stretch} {loose : Prop} {s t e f : Lexer Cursor} {i n gap : Nat}

theorem CellSpan.ofToken?_of_endsLine {t : Token} (h : t.tag.endsLine = true) :
    ofToken? t = none := by
  cases htag : t.tag <;> simp_all [ofToken?, Tag.endsLine]

theorem CellSpan.ofToken?_moved (origin : Nat) (t : Token) :
    ofToken? (t.moved origin) = ofToken? t := by
  rw [ofToken?, Token.moved_tag, Token.moved_value?]
  rfl

theorem Token.Sees.cellSpan {origin : Nat} {t t' : Token} (h : Sees origin t t') :
    CellSpan.ofToken? t = CellSpan.ofToken? t' := by
  rcases h.elim with rfl | ⟨hnl, heof⟩
  · exact CellSpan.ofToken?_moved ..
  · rw [CellSpan.ofToken?_of_endsLine (by rw [hnl]; rfl),
      CellSpan.ofToken?_of_endsLine (by rw [heof]; rfl)]

namespace Parse

open Rule

variable {E : Lexer Cursor → Lexer Cursor → Prop} {L : Rule.Loss} {level : Level}
  {body : Nat → Parse (List Block)}

theorem ends_cellSize_of_endsLine {F : Fault → Prop} {E : Empty → Lexer Cursor → Prop}
    (hF : ∀ peeks offset, F (.stalled peeks offset)) (hgap : gap ≤ 1) (ht : s.Looks t)
    (h : (s.ahead (gap + 1)).tag.endsLine = true ∨ (s.ahead (gap + 2)).tag.endsLine = true) :
    Ends F (cellSize gap) t (fun config u => config = {} ∧ s.Looks u) E := by
  apply Ends.bind
  apply Ends.bind
  apply Ends.peek ht (by simp [lookaheadSize]; omega) (Lexer.spare_of_stalled hF _) (by decide)
  intro u hu _ _
  apply Ends.pure
  apply Ends.bind
  apply Ends.bind
  apply Ends.peek hu (by simp [lookaheadSize]; omega) (Lexer.spare_of_stalled hF _) (by decide)
  intro v hv _ _
  apply Ends.pure
  split
  · next hwidth _ =>
    have hline : (s.ahead (gap + 2)).tag.endsLine = true := by
      refine h.resolve_left fun h => ?_
      rw [CellSpan.ofToken?_of_endsLine h] at hwidth
      simp at hwidth
    apply Ends.bind
    apply Ends.peekTag hv (by simp [lookaheadSize]; omega) (Lexer.spare_of_stalled hF _)
      (by decide)
    intro w hw _ _
    rw [if_neg fun hcolon => by simp [hcolon, Tag.endsLine] at hline]
    exact Ends.pure ⟨rfl, hw⟩
  · exact Ends.pure ⟨rfl, hv⟩

theorem follows_eatAhead (hx : x.InLine loose s e)
    (h : ∀ j < n, (e.ahead j).tag.endsLine = false) :
    Follows L (eatMany n : Parse Unit) (eatMany n : Parse Unit) s e
      (fun _ _ t f => x.InLine loose t f) E := by
  obtain ⟨hlen, hnl⟩ := Lexer.take_of_ahead h
  apply Follows.eatMany hx.toAbreast hlen
  exact fun t f ht hf => hx.took ht hf hnl

theorem follows_cellSize_ended (hx : x.InLine loose s e) (hgap : gap ≤ 1) (ht : s.Looks t)
    (hf : e.Looks f)
    (hs : (s.ahead (gap + 1)).tag.endsLine = true ∨ (s.ahead (gap + 2)).tag.endsLine = true)
    (he : (e.ahead (gap + 1)).tag.endsLine = true ∨ (e.ahead (gap + 2)).tag.endsLine = true) :
    Follows L (cellSize gap) (cellSize gap) t f
      (fun c c' t f => c = c' ∧ x.InLine loose t f) E := by
  apply Follows.weaken
  apply Follows.of_ends (ends_cellSize_of_endsLine (fun _ _ => trivial) hgap ht hs)
    (ends_cellSize_of_endsLine (fun _ _ => id) hgap hf he)
  rintro _ _ u g ⟨rfl, hu⟩ ⟨rfl, hg⟩
  exact ⟨rfl, hx.looks hu hg⟩

theorem follows_cellSize_of_line (hx : x.InLine loose s e) (ht : s.Looks t) (hf : e.Looks f)
    (hline : ∀ j < gap + 3, (e.ahead j).tag.endsLine = false) :
    Follows L (cellSize gap) (cellSize gap) t f
      (fun c c' t f => c = c' ∧ x.InLine loose t f) E := by
  have hsees {j : Nat} (hj : j ≤ gap + 3) : Token.Sees x.origin (s.ahead j) (e.ahead j) :=
    hx.sees fun i hi => hline i (by omega)
  apply Follows.bind
  apply Follows.bind
  apply Follows.peek ht hf
  intro u g hu hg _ _
  apply Follows.pure
  rw [(hsees (j := gap + 1) (by omega)).cellSpan]
  apply Follows.bind
  apply Follows.bind
  apply Follows.peek hu hg
  intro v k hv hk _ _
  apply Follows.pure
  rw [(hsees (j := gap + 3) (by omega)).cellSpan]
  split
  · next hheight =>
    have hthree : (e.ahead (gap + 3)).tag.endsLine = false := by
      by_contra hend
      rw [CellSpan.ofToken?_of_endsLine (by simpa using hend)] at hheight
      simp at hheight
    have hline := Nat.forall_lt_succ_right.2 ⟨hline, hthree⟩
    apply Follows.bind
    apply Follows.peekTag hv hk
    intro w l hw hl _ _
    have hcolon := (hsees (j := gap + 2) (by omega)).tag_iff
      (show Tag.endsLine .colon = false from rfl)
    simp only [hcolon]
    split
    · apply Follows.bind
      apply Follows.peekTag hw hl
      intro y m hy hm _ _
      have hright := (hx.sees (n := gap + 4) hline).tag_iff
        (show Tag.endsLine .rightBracket = false from rfl)
      simp only [hright]
      split
      · next htag =>
        apply Follows.seq (follows_eatAhead (n := gap + 5) (hx.looks hy hm) ?_)
        · exact fun _ _ _ _ hx => Follows.pure ⟨rfl, hx⟩
        · simp only [hm.ahead]
          exact Nat.forall_lt_succ_right.2 ⟨hline, by rw [htag]; rfl⟩
      · exact Follows.pure ⟨rfl, hx.looks hy hm⟩
    · exact Follows.pure ⟨rfl, hx.looks hw hl⟩
  · exact Follows.pure ⟨rfl, hx.looks hv hk⟩

theorem follows_cellSize (hx : x.InLine loose s e) (hgap : gap ≤ 1) (ht : s.Looks t)
    (hf : e.Looks f) (h : ∀ j < gap + 1, (e.ahead j).tag.endsLine = false) :
    Follows L (cellSize gap) (cellSize gap) t f
      (fun c c' t f => c = c' ∧ x.InLine loose t f) E := by
  have hone : Token.Sees x.origin (s.ahead (gap + 1)) (e.ahead (gap + 1)) :=
    hx.sees h
  by_cases hnext : (e.ahead (gap + 1)).tag.endsLine = true
  · exact follows_cellSize_ended hx hgap ht hf (.inl (by rw [hone.endsLine, hnext])) (.inl hnext)
  have hline := Nat.forall_lt_succ_right.2 ⟨h, by simpa using hnext⟩
  by_cases hnext' : (e.ahead (gap + 2)).tag.endsLine = true
  · have htwo : Token.Sees x.origin (s.ahead (gap + 2)) (e.ahead (gap + 2)) := hx.sees hline
    exact follows_cellSize_ended hx hgap ht hf (.inr (by rw [htwo.endsLine, hnext'])) (.inr hnext')
  · exact follows_cellSize_of_line hx ht hf
      (Nat.forall_lt_succ_right.2 ⟨hline, by simpa using hnext'⟩)

theorem follows_cellConfig (hx : x.InLine loose s e) :
    Follows L cellConfig cellConfig s e (fun c c' t f => c = c' ∧ x.InLine loose t f) E := by
  apply Follows.bind
  apply Follows.peekTag (.refl hx.sound) (.refl hx.sound')
  intro t f ht hf _ _
  rw [hx.sees_zero.isInlineSpace]
  generalize hgap : (if (e.ahead 0).tag.isInlineSpace = true then 1 else 0) = gap
  obtain ⟨hle, hspace⟩ := endsLine_of_gap hgap
  dsimp only
  apply Follows.bind
  apply Follows.peekTag ht hf
  intro u g hu hg _ _
  simp only [ne_eq, (hx.sees hspace).tag_iff (show Tag.endsLine .leftBracket = false from rfl)]
  split
  · exact Follows.pure ⟨rfl, hx.looks hu hg⟩
  · next hopening =>
    have hopening : (e.ahead gap).tag = .leftBracket := by simpa using hopening
    have hline := Nat.forall_lt_succ_right.2 ⟨hspace, by rw [hopening]; rfl⟩
    apply Follows.bind
    apply Follows.peekTag hu hg
    intro v k hv hk _ _
    simp only [(hx.sees hline).tag_iff (show Tag.endsLine .hash = false from rfl)]
    split
    · next hhash =>
      have hline' := Nat.forall_lt_succ_right.2 ⟨hline, by rw [hhash]; rfl⟩
      apply Follows.bind
      apply Follows.peekTag hv hk
      intro w l hw hl _ _
      simp only [(hx.sees hline').tag_iff (show Tag.endsLine .rightBracket = false from rfl)]
      split
      · next hclosing =>
        apply Follows.seq (follows_eatAhead (n := gap + 3) (hx.looks hw hl) ?_)
        · exact fun _ _ _ _ hx => Follows.pure ⟨rfl, hx⟩
        · simp only [hl.ahead]
          exact Nat.forall_lt_succ_right.2 ⟨hline', by rw [hclosing]; rfl⟩
      · exact follows_cellSize hx hle hw hl hline
    · exact follows_cellSize hx hle hv hk hline

theorem follows_cell {bar : Token} {config : CellConfig} {bs : List Block}
    (hl : max s.observer.lastEnd x.origin = e.observer.lastEnd + x.origin) :
    Follows L (cell (bar.moved x.origin) i config (bs.map (.moved x.origin))) (cell bar i config bs)
      s e (fun b b' t f => b = b'.moved x.origin ∧ t = s ∧ f = e) E := by
  apply Follows.bind
  apply follows_endCovering hl
  exact fun stop => Follows.pure ⟨(Block.container_moved ..).symm, rfl, rfl⟩

structure Barring (x : Stretch) (loose : Prop) (cells cells' : List Block) (s e : Lexer Cursor) :
    Prop where
  cells : cells = cells'.map (.moved x.origin)
  inLine : x.InLine loose s e
  bar : (e.ahead 0).tag = .pipe

structure CellsDone (x : Stretch) (r r' : List Block × TableLine) (s e : Lexer Cursor) : Prop where
  cells : r.1 = r'.1.map (.moved x.origin)
  line : r.2 = r'.2
  near : x.Near s e

theorem follows_cellEnd {bar : Token} {config : CellConfig} {cells : List Block}
    (bs : List Block) (hbody : Nested body) (hx : x.InLine loose s e)
    (hnext : (e.ahead 0).tag.endsLine = true ∨ (e.ahead 0).tag = .pipe) :
    Follows x.loss
      (cellEnd body i (cells.map (.moved x.origin)) (bar.moved x.origin) config
        (bs.map (.moved x.origin)))
      (cellEnd body i cells bar config bs) s e
      (fun turn turn' t f => turn.Both (CellsDone x · · t f) (Barring x loose · · t f)
        (fun _ _ => False) turn') E := by
  apply Follows.bind
  apply Follows.peekTag (.refl hx.sound) (.refl hx.sound')
  intro t f ht hf _ _
  have hx' := hx.looks ht hf
  rcases hx.sees_zero.elim with htok | ⟨hnl, heof⟩
  · rw [htok, Token.moved_tag]
    split
    · next hpipe =>
      apply Follows.seq (follows_cell hx'.cursor.lastEnd)
      rintro _ b _ _ ⟨rfl, rfl, rfl⟩
      exact Follows.pure (.again ⟨by simp, hx', by rw [hf.ahead, hpipe]⟩)
    · next hnl =>
      have hp := (hx.sound'.tag_ahead_zero.resolve_left fun h => by simp [h.1] at hnl).2
      apply Follows.bind
      apply Follows.eat hx.toAbreast ht hf hp
      intro u g hu hg _
      obtain ⟨-, hsteady, -, hrests⟩ := rests_newline (F := fun _ => True) hx.firm hu hnl
        (u.spare_true 0)
      obtain ⟨-, hsteady', -, hrests'⟩ := rests_newline (F := fun _ => True) hx.firm' hg hnl
        (g.spare_true 0)
      apply Follows.seqLost (hbody.follows E (i + 1) x u g
        ⟨hx.newline hu.took hg.took hnl, hsteady, hsteady', hrests _, hrests' _⟩
        (.inr (by omega)))
      · exact fun _ => (Advances.bind (advances_cell _ _ _) fun _ => .pure _).stays
      · exact fun _ => (Advances.bind (advances_cell _ _ _) fun _ => .pure _).stays_over
      · rintro _ blocks v k ⟨rfl, hn⟩
        rw [← List.map_append]
        apply Follows.seq (follows_cell hn.lastEnd)
        rintro _ b _ _ ⟨rfl, rfl, rfl⟩
        exact Follows.pure (.done ⟨by simp, by simp, hn⟩)
    · next hpipe hnl =>
      have hline : (e.ahead 0).tag = .newline ∨ (e.ahead 0).tag = .eof := by
        simpa [Tag.endsLine] using hnext.resolve_right hpipe
      have heof := hline.resolve_left hnl
      have hp := (hx.sound'.tag_ahead_zero.resolve_right fun h => h.1 heof).2
      apply Follows.seq (follows_cell hx'.cursor.lastEnd)
      rintro _ b _ _ ⟨rfl, rfl, rfl⟩
      exact Follows.pure (.done ⟨by simp, rfl, .past (hx'.past (hf.pending.trans hp))⟩)
  · -- A newline that only the text has gets lost.
    have hp := (hx.sound'.tag_ahead_zero.resolve_right fun h => h.1 heof).2
    have hps := (hx.sound.tag_ahead_zero.resolve_left fun h => by simp [h.1] at hnl).2
    rw [hnl, heof]
    have hover : x.Over f :=
      .of_free (hx.free hp) hx'.firm'.toSteady (hf.pending.trans hp)
    refine Follows.of_loses ?_
      ((Advances.bind (advances_cell _ _ _) fun _ => .pure _).stays_over _ hover)
    apply (Stretch.loses_eat hx'.firm.toSteady (hx'.cut_le (hf.pending.trans hp)) ?_).bind
    · exact fun _ => (Advances.bind (hbody.advances _) fun _ => .bind (advances_cell _ _ _) fun _ =>
        .pure _).stays
    · rw [ht.pending, hps]
      simp

theorem follows_cellTurn {cells cells' : List Block} (hbody : Nested body)
    (h : Barring x loose cells cells' s e) :
    Follows x.loss (cellTurn level body i cells) (cellTurn level body i cells') s e
      (fun turn turn' t f => turn.Both (CellsDone x · · t f) (Barring x loose · · t f)
        (fun _ _ => False) turn') E := by
  obtain ⟨rfl, hx, hbar⟩ := h
  apply Follows.bind
  apply Follows.eatNext hx (.refl hx.sound) (.refl hx.sound') (by rw [hbar]; rfl)
  intro t f hx _
  apply Follows.bind
  apply Follows.peekTag (.refl hx.sound) (.refl hx.sound')
  intro u g hu hg _ _
  have hx' := hx.looks hu hg
  simp only [hx.sees_zero.tag_iff (show Tag.endsLine .dash = false from rfl)]
  split
  · apply Follows.seqLost hx'.follows_eatLine
    · exact fun _ => (Advances.pure _).stays
    · exact fun _ => (Advances.pure _).stays_over
    · exact fun _ _ _ _ hn => Follows.pure (.done ⟨rfl, rfl, hn⟩)
  · apply Follows.seq (follows_cellConfig hx')
    rintro config _ v k ⟨rfl, hx⟩
    apply Follows.seq (Follows.eatInlineSpace hx)
    rintro _ _ v k ⟨hx, -⟩
    apply Follows.bind
    apply Follows.peekTag (.refl hx.sound) (.refl hx.sound')
    intro w l hw hl _ _
    have hx' := hx.looks hw hl
    have hiff : (!(v.ahead 0).tag.endsLine && (v.ahead 0).tag ≠ .pipe) =
        (!(k.ahead 0).tag.endsLine && (k.ahead 0).tag ≠ .pipe) :=
      hx.sees_zero.congr (fun tag => !tag.endsLine && tag ≠ .pipe) rfl
    rw [hiff]
    split
    · apply Follows.seqLost ((follows_paragraph (p := ⟨level, i + 1, .cellLine⟩) hx').and
        (ends_paragraph (E := fun e _ => e.elim) (excused_true _) hx'.firm (w.spare_true _))
        (ends_paragraph (E := fun e _ => e.elim) (excused_true _) hx'.firm' (l.spare_true _)))
      · exact fun _ => (advances_cellEnd hbody.advances _ _ _ _).stays
      · exact fun _ => (advances_cellEnd hbody.advances _ _ _ _).stays_over
      · rintro _ child t f ⟨⟨rfl, -, hx⟩, -, hf⟩
        have hx := hx (by simp)
        have hnext : (f.ahead 0).tag.endsLine = true ∨ (f.ahead 0).tag = .pipe := by
          cases hf.ended with
          | eof hp _ =>
            left
            rw [Lexer.ahead_zero_of_nil hp]
            rfl
          | line _ hnl =>
            left
            rw [hnl]
            rfl
          | bar _ hpipe => exact .inr hpipe
          | rests hmode _ => simp at hmode
        exact follows_cellEnd [child] hbody hx hnext
    · next hnext =>
      have hnext : (l.ahead 0).tag.endsLine = true ∨ (l.ahead 0).tag = .pipe := by
        rw [hl.ahead]
        by_cases hpipe : (k.ahead 0).tag = .pipe
        · exact .inr hpipe
        · left
          simpa [hpipe] using hnext
      exact follows_cellEnd [] hbody hx' hnext

theorem follows_tableLine {cells cells' : List Block} (hbody : Nested body)
    (h : Barring x loose cells cells' s e) :
    Follows x.loss (tableLine level body i cells) (tableLine level body i cells') s e
      (fun r r' t f => CellsDone x r r' t f) E := by
  apply Follows.loop (fun cells cells' s e => Barring x loose cells cells' s e)
    (fun _ _ _ _ => False) h
  · exact fun _ _ _ _ h => follows_cellTurn hbody h
  · exact fun _ _ _ _ h => h.elim
  · exact fun cells => (advances_cellTurn hbody.advances cells).stays
  · exact fun _ _ cells => (advances_cellTurn hbody.advances cells).stays_over
  · exact fun _ _ _ _ h => h.elim

theorem follows_tableRow {st : TableState} {divider : Bool}
    (hl : max s.observer.lastEnd x.origin = e.observer.lastEnd + x.origin) :
    Follows L (tableRow i (st.moved x.origin) divider) (tableRow i st divider) s e
      (fun row row' t f => row = row'.moved x.origin ∧ t = s ∧ f = e) E := by
  apply Follows.bind
  apply follows_endCovering hl
  exact fun stop => Follows.pure ⟨(Block.container_moved ..).symm, rfl, rfl⟩

theorem follows_tableLineEnd (st : TableState) {line : TableLine} (hn : x.Near s e) :
    Follows L (tableLineEnd i (st.moved x.origin) line) (tableLineEnd i st line) s e
      (fun st st' t f => st = st'.moved x.origin ∧ x.Near t f) E := by
  cases line with
  | cells nested => exact Follows.pure ⟨rfl, hn⟩
  | divider =>
    have hempty : (st.moved x.origin).cells.isEmpty = st.cells.isEmpty := List.isEmpty_map
    simp only [tableLineEnd, hempty]
    split
    · exact Follows.pure ⟨rfl, hn⟩
    · apply Follows.seq (follows_tableRow hn.lastEnd)
      rintro _ row _ _ ⟨rfl, rfl, rfl⟩
      refine Follows.pure ⟨?_, hn⟩
      simp only [TableState.moved, List.isEmpty_map, List.map_append, List.map_cons, List.map_nil]
      rfl

theorem follows_tableStepFrom {st : TableState} {rowStart : Nat} (hbody : Nested body)
    (hx : x.InLine loose s e) (hbar : (e.ahead 0).tag = .pipe) :
    Follows x.loss
      (tableStepFrom level body i (st.moved x.origin) (rowStart + x.origin))
      (tableStepFrom level body i st rowStart) s e
      (fun st st' t f => st = st'.moved x.origin ∧ x.Near t f) E := by
  have hcells : Barring x loose (st.moved x.origin).cells st.cells s e := ⟨rfl, hx, hbar⟩
  apply Follows.seqLost (follows_tableLine hbody hcells)
  · exact fun _ => (advances_tableLineEnd _ _).stays
  · exact fun _ => (advances_tableLineEnd _ _).stays_over
  · rintro ⟨_, _⟩ ⟨cells, line⟩ t f ⟨hcells, hline, hn⟩
    dsimp only at hcells hline
    subst hcells hline
    exact follows_tableLineEnd { st with cells, rowStart } hn

theorem follows_tableStep {st : TableState} (hbody : Nested body) (hx : x.InLine loose s e)
    (hbar : (e.ahead 0).tag = .pipe) :
    Follows x.loss (tableStep level body i (st.moved x.origin))
      (tableStep level body i st) s e
      (fun st st' t f => st = st'.moved x.origin ∧ x.Near t f) E := by
  have hempty : (st.moved x.origin).cells.isEmpty = st.cells.isEmpty := List.isEmpty_map
  unfold tableStep
  rw [hempty]
  split
  · apply Follows.bind
    apply Follows.peek (.refl hx.sound) (.refl hx.sound')
    intro t f ht hf _ _
    rw [hx.start]
    exact follows_tableStepFrom hbody (hx.looks ht hf) (by rw [hf.ahead, hbar])
  · exact follows_tableStepFrom hbody hx hbar

theorem loses_tableTurn {st : TableState} (hbody : Nested body) (h : x.Beyond s) :
    Loses (Lexer.Lost x.cut) (tableTurn level body i st) s := by
  have hline {t : Lexer Cursor} (cells : List Block) (h : x.Beyond t) :
      Loses (Lexer.Lost x.cut) (tableLine level body i cells) t :=
    Follows.loses_loop (h.loses_eat.bind fun bar =>
      (advances_cellBehind hbody.advances _ bar).stays)
      fun cells => (advances_cellTurn hbody.advances cells).stays
  have hstep {t : Lexer Cursor} (rowStart : Nat) (h : x.Beyond t) :
      Loses (Lexer.Lost x.cut) (tableStepFrom level body i st rowStart) t :=
    (hline _ h).bind fun _ => (advances_tableLineEnd _ _).stays
  refine Loses.bind ?_ fun _ => (advances_nextTurn _).stays
  unfold tableStep
  split
  · apply Ends.bind
    apply Ends.peek (.refl h.steady.sound) (by decide) (s.spare_true 0) (by decide)
    exact fun t ht _ _ => hstep _ (h.looks ht)
  · exact hstep _ h

theorem exists_of_table {b : Block} (h : table level body i s = .ok b t) :
    ∃ span header rows, b = .container span (.table header) rows := by
  obtain ⟨tok, u, -, h⟩ := exists_of_bind h
  obtain ⟨st, v, -, h⟩ := exists_of_bind h
  obtain ⟨rows, w, -, h⟩ := exists_of_bind h
  obtain ⟨stop, w, -, h⟩ := exists_of_bind h
  obtain ⟨rfl, rfl⟩ := EStateM.Result.ok.inj h
  exact ⟨_, _, _, rfl⟩

structure Tabling (x : Stretch) (loose : Prop) (s₀ e₀ : Lexer Cursor) (st st' : TableState)
    (s e : Lexer Cursor) : Prop where
  state : st = st'.moved x.origin
  inLine : x.InLine loose s e
  bar : (e.ahead 0).tag = .pipe
  tabled : Tabled s₀ st s
  tabled' : Tabled e₀ st' e

variable {s₀ e₀ : Lexer Cursor} {st st' : TableState}

theorem follows_tableTurn (hbody : Nested body) (hs : s₀.Sound) (he : e₀.Sound)
    (h : Tabling x loose s₀ e₀ st st' s e)
    (hstop : x.free ∨ i ≠ 0 ∨ ∀ t, x.Meets t → announced level.room t ≠ .table) :
    Follows x.loss (tableTurn level body i st) (tableTurn level body i st') s e
      (fun turn turn' t f => turn.Both (fun st st' => st = st'.moved x.origin ∧ x.Near t f)
        (fun st st' => st = st'.moved x.origin ∧ x.InLine False t f)
        (fun _ _ => x.Beyond t ∧ x.Over f) turn') E := by
  obtain ⟨rfl, hx, hbar, ⟨hst, ht, hstacked⟩, hst', ht', hstacked'⟩ := h
  have hbar' : (s.ahead 0).tag = .pipe := (hx.sees_zero.tag_iff rfl).2 hbar
  have hle := hst.nextOffset_le hs ht.sound
  have hle' := hst'.nextOffset_le he ht'.sound
  rw [← hst.source] at hstacked
  rw [← hst'.source] at hstacked'
  apply Follows.seqLost ((follows_tableStep hbody hx hbar).and
    (ends_tableStep (E := fun e _ => e.elim) (excused_true _) (hbody.ends _) hx.firm hbar' (s.spare_true _) hle
      hstacked)
    (ends_tableStep (E := fun e _ => e.elim) (excused_true _) (hbody.ends _) hx.firm' hbar (e.spare_true _) hle'
      hstacked'))
  · exact fun _ => (advances_nextTurn _).stays
  · exact fun _ => (advances_nextTurn _).stays_over
  · rintro _ st t f ⟨⟨rfl, hn⟩, hu, hu'⟩
    apply (follows_nextTurn ⟨hn, hu.steady, hu'.steady, hu.rests, hu'.rests⟩ (hstop.imp id
      (.imp id fun hstop _ _ t ht => decide_eq_false (hstop t ht)))).imp
    rintro turn turn' v k hboth
    cases hboth with
    | done h =>
      obtain ⟨⟨rfl, rfl⟩, hn⟩ := h
      exact .done ⟨rfl, hn⟩
    | again h =>
      obtain ⟨⟨rfl, rfl⟩, hx⟩ := h
      exact .again ⟨rfl, hx⟩
    | alone h => exact .alone h.2

theorem follows_table (hbody : Nested body) (hx : x.InLine loose s e)
    (hbar : (e.ahead 0).tag = .pipe)
    (hstop : x.free ∨ i ≠ 0 ∨ ∀ t, x.Meets t → announced level.room t ≠ .table) :
    Follows x.loss (table level body i) (table level body i) s e
      (fun b b' t f => b = b'.moved x.origin ∧ x.Near t f) E := by
  apply Follows.bind
  apply Follows.peek (.refl hx.sound) (.refl hx.sound')
  intro t f ht hf _ _
  have hx' := hx.looks ht hf
  have htabled {u v : Lexer Cursor} (hu : u.Steady) (huv : u.Looks v) (start : Nat) :
      Tabled u { rowStart := start } v :=
    ⟨huv.onward, hu.looks huv, u.nextOffset, by omega, .nil (Nat.le_refl _),
      fun h => absurd rfl h⟩
  rw [hx.start]
  have hstart : Tabling x loose s e { rowStart := (e.ahead 0).start + x.origin }
      { rowStart := (e.ahead 0).start } t f :=
    ⟨rfl, hx', by rw [hf.ahead, hbar], htabled hx.firm.toSteady ht _,
      htabled hx.firm'.toSteady hf _⟩
  apply Follows.seqLost (Follows.loop (fun st st' u g => Tabling x loose s e st st' u g)
    (fun _ _ u g => x.Beyond u ∧ x.Over g)
    (Q := fun st st' u g => st = st'.moved x.origin ∧ x.Near u g) hstart ?_ ?_ ?_ ?_ ?_)
  · exact fun _ => (Advances.bind (advances_tableRows _) fun _ =>
      .bind (advances_endCovering _ _) fun _ => .pure _).stays
  · exact fun _ => (Advances.bind (advances_tableRows _) fun _ =>
      .bind (advances_endCovering _ _) fun _ => .pure _).stays_over
  · rintro _ st u g ⟨rfl, hn⟩
    have hempty : (st.moved x.origin).cells.isEmpty = st.cells.isEmpty := List.isEmpty_map
    apply Follows.seq (Q := fun rows rows' u g => rows = rows'.map (.moved x.origin) ∧ x.Near u g)
    · unfold tableRows
      rw [hempty]
      split
      · exact Follows.pure ⟨rfl, hn⟩
      · apply Follows.seq (follows_tableRow hn.lastEnd)
        rintro _ row _ _ ⟨rfl, rfl, rfl⟩
        exact Follows.pure ⟨by simp [TableState.moved], hn⟩
    · rintro _ rows u g ⟨rfl, hn⟩
      apply Follows.bind
      apply follows_endCovering hn.lastEnd
      exact fun stop => Follows.pure ⟨(Block.container_moved ..).symm, hn⟩
  · intro st st' u g h
    have hbar' : (u.ahead 0).tag = .pipe := (h.inLine.sees_zero.tag_iff rfl).2 h.bar
    apply ((follows_tableTurn hbody hx.sound hx.sound' h hstop).and
      (ends_tableTurn (E := fun e _ => e.elim) (excused_true _) (hbody.ends _) hx.sound h.tabled hbar'
        (u.spare_true _))
      (ends_tableTurn (E := fun e _ => e.elim) (excused_true _) (hbody.ends _) hx.sound' h.tabled' h.bar
        (g.spare_true _))).imp
    rintro turn turn' v k ⟨hboth, hv, hk⟩
    cases hboth with
    | done h => exact .done h
    | again h => exact .again ⟨h.1, h.2.mono False.elim, hk.1.2.1, hv.1.1, hk.1.1⟩
    | alone h => exact .alone h
  · exact fun st _ u g h => (loses_tableTurn hbody h.1).mono (fun _ _ h => .inl h) fun _ _ h => h
  · exact fun st => (advances_tableTurn hbody.advances st).stays
  · exact fun _ _ st => (advances_tableTurn hbody.advances st).stays_over
  · exact fun _ _ _ _ h _ _ => h.2

end Parse

end TaskMarkup
