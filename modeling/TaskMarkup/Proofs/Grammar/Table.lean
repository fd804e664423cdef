import TaskMarkup.Proofs.Grammar.Body

namespace TaskMarkup.Parse

open Rule

variable {F : Fault → Prop} {E : Empty → Lexer Cursor → Prop} {s t u : Lexer Cursor} {i k n : Nat}
  {level : Level} {body : Nat → Parse (List Block)} {bs cells : List Block}

theorem ends_cellSpan (ht : s.Looks t) (hk : t.Spare F k) (hk' : k < 97)
    (hn : n < lookaheadSize) :
    Ends F (cellSpan n) t (fun r u => s.Looks u ∧ u.Spare F (k + 1) ∧
      (r ≠ none → (s.ahead n).tag.endsLine = false)) E := by
  refine Ends.bind (Ends.peek ht hn hk (by omega) fun u hu hku _ => Ends.pure ⟨hu, hku, ?_⟩)
  intro h
  unfold CellSpan.ofToken? at h
  split at h
  · next htag => simp [htag, Tag.endsLine]
  · next htag => simp [htag, Tag.endsLine]
  · exact absurd rfl h

theorem ends_eatSeen (ht : s.Looks t) (hk : t.Spare F k) (hk' : k < 97) (hn : 0 < n)
    (h : ∀ j < n, (s.ahead j).tag.endsLine = false) :
    Ends F (eatMany n) t (fun _ u => s.Scans u ∧ u.Spare F 0) E := by
  obtain ⟨hlen, hnl⟩ := Lexer.take_of_ahead h
  refine (Ends.eatMany ht.sound (by rwa [ht.pending]) hk (by omega)).imp ?_
  rintro - u ⟨hu, hku⟩
  rw [if_neg (by omega)] at hku
  rw [ht.pending] at hu
  exact ⟨(Lexer.Scans.of_looks ht).trans ⟨_, hnl, hu⟩, hku⟩

theorem endsLine_of_gap (h : (if (s.ahead 0).tag.isInlineSpace = true then 1 else 0) = n) :
    n ≤ 1 ∧ ∀ j < n, (s.ahead j).tag.endsLine = false := by
  subst h
  split
  · next hspace =>
    refine ⟨Nat.le_refl 1, fun j hj => ?_⟩
    obtain rfl : j = 0 := by omega
    cases htag : (s.ahead 0).tag <;> simp_all [Tag.isInlineSpace, Tag.endsLine]
  · exact ⟨Nat.zero_le 1, fun j hj => absurd hj (Nat.not_lt_zero j)⟩

structure ConfigAhead (n : Nat) (s : Lexer Cursor) : Prop where
  le : n ≤ 1
  gap : ∀ j < n, (s.ahead j).tag.endsLine = false
  opening : (s.ahead n).tag = .leftBracket

theorem ConfigAhead.endsLine (h : ConfigAhead n s) :
    ∀ j < n + 1, (s.ahead j).tag.endsLine = false :=
  Nat.forall_lt_succ_right.2 ⟨h.gap, by rw [h.opening]; rfl⟩

theorem ends_cellSize (h : ConfigAhead n s) (ht : s.Looks t) (hk : t.Spare F k) (hk' : k < 84) :
    Ends F (cellSize n) t (fun _ u => s.Scans u ∧ u.Spare F (k + 4)) E := by
  have hsize : n + 4 < lookaheadSize := by
    have := h.le
    simp only [lookaheadSize]
    omega
  refine Ends.seq (ends_cellSpan ht hk (by omega) (by omega)) ?_
  rintro width u ⟨hu, hku, hwidth⟩
  refine Ends.seq (ends_cellSpan hu hku (by omega) (by omega)) ?_
  rintro height v ⟨hv, hkv, hheight⟩
  split
  · refine Ends.bind (Ends.peekTag hv (by omega) hkv (by omega) fun w hw hkw _ => ?_)
    dsimp only
    split
    · next hcolon =>
      refine Ends.bind (Ends.peekTag hw (by omega) hkw (by omega) fun x hx hkx _ => ?_)
      split
      · next hclosing =>
        have hline := Nat.forall_lt_succ_right.2 ⟨h.endsLine, hwidth (by simp)⟩
        have hline := Nat.forall_lt_succ_right.2 ⟨hline, by rw [hcolon]; rfl⟩
        have hline := Nat.forall_lt_succ_right.2 ⟨hline, hheight (by simp)⟩
        have hline := Nat.forall_lt_succ_right.2 ⟨hline, by rw [hclosing]; rfl⟩
        exact Ends.seq (ends_eatSeen hx hkx (by omega) (by omega) hline)
          fun _ _ hy => Ends.pure ⟨hy.1, hy.2.mono (by omega)⟩
      · exact Ends.pure ⟨.of_looks hx, hkx⟩
    · exact Ends.pure ⟨.of_looks hw, hkw.mono (by omega)⟩
  · exact Ends.pure ⟨.of_looks hv, hkv.mono (by omega)⟩

theorem ends_cellConfig (hs : s.Sound) (hk : s.Spare F k) (hk' : k < 80) :
    Ends F cellConfig s (fun _ t => s.Scans t ∧ t.Spare F (k + 8)) E := by
  refine Ends.bind (Ends.peekTag (.refl hs) (by decide) hk (by omega) fun t ht hkt _ => ?_)
  generalize hgap : (if (s.ahead 0).tag.isInlineSpace = true then 1 else 0) = gap
  obtain ⟨hle, hspace⟩ := endsLine_of_gap hgap
  have hsize : gap + 2 < lookaheadSize := by
    simp only [lookaheadSize]
    omega
  refine Ends.bind (Ends.peekTag ht (by omega) hkt (by omega) fun u hu hku _ => ?_)
  dsimp only
  split
  · exact Ends.pure ⟨.of_looks hu, hku.mono (by omega)⟩
  · next hopening =>
    have hconfig : ConfigAhead gap s := ⟨hle, hspace, by simpa using hopening⟩
    have hlater {v : Lexer Cursor} {m : Nat} (hv : s.Looks v) (hkv : v.Spare F m)
        (hm : m ≤ k + 4) : Ends F (cellSize gap) v (fun _ t => s.Scans t ∧ t.Spare F (k + 8)) E :=
      (ends_cellSize hconfig hv hkv (by omega)).imp fun _ _ h => ⟨h.1, h.2.mono (by omega)⟩
    refine Ends.bind (Ends.peekTag hu (by omega) hku (by omega) fun v hv hkv _ => ?_)
    split
    · next hhash =>
      refine Ends.bind (Ends.peekTag hv (by omega) hkv (by omega) fun w hw hkw _ => ?_)
      split
      · next hclosing =>
        have hline := Nat.forall_lt_succ_right.2 ⟨hconfig.endsLine, by rw [hhash]; rfl⟩
        have hline := Nat.forall_lt_succ_right.2 ⟨hline, by rw [hclosing]; rfl⟩
        exact Ends.seq (ends_eatSeen hw hkw (by omega) (by omega) hline)
          fun _ _ hx => Ends.pure ⟨hx.1, hx.2.mono (by omega)⟩
      · exact hlater hw hkw (by omega)
    · exact hlater hv hkv (by omega)

theorem ends_cell {bar : Token} {config : CellConfig} {src : Source} (hs : s.Steady)
    (hsrc : s.source = src) (hb : src.IsBoundary bar.start)
    (hrow : Siblings src bar.start (max s.observer.lastEnd bar.start) bs) :
    Ends F (cell bar i config bs) s (fun b t => t = s ∧ b.Faithful src ∧ b.start = bar.start ∧
      b.stop = max s.observer.lastEnd bar.start) E :=
  Ends.bind (ends_endCovering hrow (Ends.pure ⟨rfl, container_faithful hs hsrc hb hrow, rfl, rfl⟩))

structure Lined (F : Fault → Prop) (i lo : Nat) (s : Lexer Cursor) (cells : List Block)
    (t : Lexer Cursor) : Prop extends s.Onward t where
  steady : t.Steady
  rests : Rests F (i + 1) t
  settled : t.Settled
  row : Siblings s.source lo t.observer.lastEnd cells
  lt : s.nextOffset < t.observer.lastEnd

structure Barred (F : Fault → Prop) (lo : Nat) (s : Lexer Cursor) (cells : List Block)
    (t : Lexer Cursor) : Prop extends s.Onward t where
  firm : t.Firm
  bar : (t.ahead 0).tag = .pipe
  row : Siblings s.source lo (max lo t.observer.lastEnd) cells
  spare : t.Spare F 30

theorem cells_concat {src : Source} {bar : Token} {b : Block} {lo last : Nat}
    (hrow : Siblings src lo bar.start cells) (hlt : bar.start < last) (hfit : b.Faithful src)
    (hstart : b.start = bar.start) (hstop : b.stop = max last bar.start) :
    Siblings src lo last (cells ++ [b]) := by
  refine hrow.concat hfit (Nat.le_of_eq hstart.symm) hfit.tidy.le ?_
  show b.stop ≤ _
  omega

theorem ends_cellEnd {ruler : Ruler} {bar : Token} {config : CellConfig} {lo : Nat}
    (hr : ruler.Excused F (i + 1) t) (hbody : Bodied F ruler body)
    (hst : s.Onward t) (ht : t.Firm) (hk : t.Spare F 28) (hle : s.nextOffset ≤ bar.start)
    (hlt : bar.start < t.observer.lastEnd)
    (hb : s.source.IsBoundary bar.start) (hrow : Siblings s.source lo bar.start cells)
    (hbs : Siblings s.source bar.start (max t.observer.lastEnd bar.start) bs)
    (hnext : t.pending = [] ∨ (t.ahead 0).tag = .newline ∨ (t.ahead 0).tag = .pipe) :
    Ends F (cellEnd body i cells bar config bs) t (fun turn u => turn.Gives
      (fun r => Lined F i lo s r.1 u)
      fun cells => Barred F lo s cells u ∧ u.pending.length ≤ t.pending.length) E := by
  refine Ends.bind (Ends.peekTag (.refl ht.sound) (by decide) hk (by decide) fun u hu hku hz => ?_)
  have hfu := ht.looks hu
  have hsu := hst.trans hu.onward
  have hlu : bar.start < u.observer.lastEnd := by rwa [hu.observer]
  have hbsu : Siblings s.source bar.start (max u.observer.lastEnd bar.start) bs := by
    rwa [hu.observer]
  split
  · next hpipe =>
    refine Ends.seq (ends_cell hfu.toSteady hsu.source hb hbsu) ?_
    rintro b _ ⟨rfl, hfit, hstart, hstop⟩
    refine Ends.pure ⟨⟨hsu, hfu, by rw [hu.ahead, hpipe], ?_, hku.mono (by decide)⟩, ?_⟩
    · exact (cells_concat hrow hlu hfit hstart hstop).mono (Nat.le_max_right ..)
    · rw [hu.pending]
  · next hnl =>
    obtain ⟨-, hp⟩ := ht.sound.tag_ahead_zero.resolve_left fun h => by simp [h.1] at hnl
    refine Ends.bind (Ends.eat hu hku (by decide) hp fun v hv _ hkv => ?_)
    obtain ⟨htv, hsteady, -, hrests⟩ := rests_newline ht hv hnl hkv
    have hsv := hst.trans htv
    have hlv := hv.took.lastEnd_eq ht.sound ht.unpaused (by simp)
    have htv' := htv.nextOffset_le ht.sound hsteady.sound
    refine Ends.seq (hbody E (i + 1) v (hr.onward htv ht.sound hsteady.sound) hsteady (hrests _)) ?_
    intro blocks w hw
    have hlw := hw.lastEnd_le
    have htl := htv.lastEnd_le
    have hblocks : Siblings s.source bar.start (max w.observer.lastEnd bar.start)
        (bs ++ blocks) := by
      have hrow := hw.row
      rw [hsv.source] at hrow
      exact (hbs.mono (by omega)).append (hrow.mono (by omega))
    refine Ends.seq (ends_cell hw.steady (hw.source.trans hsv.source) hb hblocks) ?_
    rintro b w ⟨rfl, hfit, hstart, hstop⟩
    have hsettled := hw.closed.settled hw.steady
    obtain ⟨r, hfound, -⟩ := hw.closed
    exact Ends.pure ⟨hsv.trans hw.toOnward, hw.steady, .found hfound, hsettled,
      cells_concat hrow (by omega) hfit hstart hstop, by omega⟩
  · next hpipe hnl =>
    have hp : t.pending = [] := by
      rcases hnext with h | h | h
      · exact h
      · exact absurd h hnl
      · exact absurd h hpipe
    have hpu := hu.pending.trans hp
    refine Ends.seq (ends_cell hfu.toSteady hsu.source hb hbsu) ?_
    rintro b _ ⟨rfl, hfit, hstart, hstop⟩
    exact Ends.pure ⟨hsu, hfu.toSteady, rests_eof hpu ((hu.sound.atEof_iff hz).2 hpu)
      (hku.mono (by decide)) _, hfu.toSteady.settled hpu,
      cells_concat hrow hlu hfit hstart hstop, by omega⟩

/-- Each kind of cell behind a bar gives what `Q` says: the divider in the place of one, a cell with
content on its first line, and one without. -/
structure CellCases (F : Fault → Prop) (E : Empty → Lexer Cursor → Prop) (level : Level)
    (body : Nat → Parse (List Block)) (i : Nat) (cells : List Block) (bar : Token)
    (s : Lexer Cursor) (Q : Turn (List Block × TableLine) (List Block) → Lexer Cursor → Prop) :
    Prop where
  divider {t u : Lexer Cursor} : s.Eats bar t → t.Looks u → u.Spare F 1 →
    (u.ahead 0).tag = .dash → Ends F eatLine u (fun _ v => Q (.done (cells, .divider)) v) E
  filled {config : CellConfig} {t : Lexer Cursor} : s.Reads t → t.Spare F 26 →
    (t.ahead 0).tag.endsLine = false → (t.ahead 0).tag ≠ .pipe →
    Ends F (paragraph ⟨level, i + 1, .cellLine⟩) t
      (fun child u => Ends F (cellEnd body i cells bar config [child]) u Q E) E
  empty {config : CellConfig} {t : Lexer Cursor} : s.Reads t → t.Spare F 26 →
    t.pending = [] ∨ (t.ahead 0).tag = .newline ∨ (t.ahead 0).tag = .pipe →
    Ends F (cellEnd body i cells bar config []) t Q E

theorem ends_cellTurn_of_cases {bar : Token} {rest : List Token}
    {Q : Turn (List Block × TableLine) (List Block) → Lexer Cursor → Prop} (hs : s.Sound)
    (hp : s.pending = bar :: rest) (hbar : bar.tag = .pipe) (hk : s.Spare F k) (hk' : k < 97)
    (h : CellCases F E level body i cells bar s Q) :
    Ends F (cellTurn level body i cells) s Q E := by
  refine Ends.bind (Ends.eat (.refl hs) hk (by omega) hp fun t ht _ hkt => ?_)
  refine Ends.bind (Ends.peekTag (.refl ht.sound) (by decide) hkt (by decide)
    fun u hu hku _ => ?_)
  have hsu : s.Reads u := (ht.reads (by simp [hbar])).looks hu
  split
  · next hdash =>
    exact Ends.seq (h.divider ht hu hku (by rw [hu.ahead, hdash])) fun _ _ h => Ends.pure h
  · refine Ends.seq (ends_cellConfig hu.sound hku (by decide)) ?_
    rintro config v ⟨hv, hkv⟩
    refine Ends.seq (Ends.eatInlineSpace hv.sound hkv (by decide)) ?_
    rintro - w ⟨hw, hkw, -⟩
    have hvw : v.Scans w := .of_takeWhile hw fun _ => Tag.ne_newline_of_isInlineSpace
    refine Ends.bind (Ends.peekTag (.refl hw.sound) (by decide) hkw (by decide)
      fun x hx hkx _ => ?_)
    have hsx : s.Reads x := (hsu.scan (hv.trans hvw)).looks hx
    have hkx : x.Spare F 26 := hkx.mono (by decide)
    rw [← hx.ahead]
    split
    · next hnext =>
      simp only [Bool.and_eq_true, Bool.not_eq_true', decide_eq_true_eq] at hnext
      exact Ends.bind (h.filled hsx hkx hnext.1 hnext.2)
    · next hnext =>
      refine h.empty hsx hkx ?_
      rcases hx.sound.tag_ahead_zero with ⟨-, hp⟩ | ⟨hne, -⟩
      · exact .inl hp
      · simp [Tag.endsLine, hne] at hnext
        tauto

theorem cases_barred {bar : Token} {rest : List Token} {lo : Nat}
    (hr : level.ruler.Excused F i t) (hbody : Bodied F level.ruler body) (hs : s.Sound)
    (hlo : lo ≤ s.nextOffset) (h : Barred F lo s cells t) (hp : t.pending = bar :: rest) :
    CellCases F E level body i cells bar t fun turn u => turn.Gives
      (fun r => Lined F i lo s r.1 u)
      fun cells => Barred F lo s cells u ∧ u.pending.length < t.pending.length := by
  obtain ⟨hst, hft, hbar, hrow, hk⟩ := h
  rw [Lexer.ahead_zero_of_cons hp] at hbar
  have hstart := hft.sound.start_of_cons hp
  have hb : s.source.IsBoundary bar.start := by
    rw [hstart, ← hst.source]
    exact hft.sound.isBoundary_nextOffset
  have hle := hst.nextOffset_le hs hft.sound
  have hlast := hft.lastEnd_le
  have hrow : Siblings s.source lo bar.start cells := hrow.mono (by omega)
  constructor
  case divider =>
    intro u v hu hv hkv _
    have htv := (hu.reads (by simp [hbar])).looks hv
    have hsv := hst.trans (htv.onward hft.toSteady)
    have hlt := htv.nextOffset_lt hft.toSteady
    refine (ends_eatLine (htv.firm hft) (hkv.mono (by decide))).imp ?_
    rintro - w ⟨⟨hvw, hw, hsettled, hrests⟩, -⟩
    have hlw := hvw.lastEnd_le
    exact ⟨hsv.trans hvw, hw, hrests _, hsettled, hrow.mono (by omega), by omega⟩
  case filled =>
    intro config u hu hku _ _
    have hfu := hu.firm hft
    have htu := hu.onward hft.toSteady
    have hsu := hst.trans htu
    have hlt := hu.nextOffset_lt hft.toSteady
    have hlu := hu.lastEnd_eq hft.toSteady
    have hlen := hu.length_pending_lt
    refine (ends_paragraph (p := ⟨level, i + 1, .cellLine⟩) (hr.line hu.source) hfu hku).imp ?_
    intro child v hv
    have hlv := hv.lastEnd_le
    have huv := hv.toOnward.nextOffset_le hfu.sound hv.firm.sound
    have hfit := hv.faithful
    have hstop := hv.stop
    have hbegin := hv.start
    rw [hsu.source] at hfit
    have hchild : Siblings s.source bar.start (max v.observer.lastEnd bar.start) [child] := by
      refine .singleton hfit ?_ hfit.tidy.le ?_
      · show _ ≤ child.start
        omega
      · show child.stop ≤ _
        omega
    refine (ends_cellEnd (hr.deeper (hv.source.trans hu.source) (by omega)) hbody
      (hsu.trans hv.toOnward) hv.firm hv.spare (by omega) (by omega) hb hrow hchild ?_).imp ?_
    · cases hv.ended with
      | eof hp _ => exact .inl hp
      | line _ hnl => exact .inr (.inl hnl)
      | bar _ hpipe => exact .inr (.inr hpipe)
      | rests hmode _ => simp at hmode
    · intro turn w hw
      have hlen' := hv.suffix.length_le
      cases turn with
      | done r => exact hw
      | again cells => exact ⟨hw.1, by have := hw.2; omega⟩
  case empty =>
    intro config u hu hku hnext
    have hfu := hu.firm hft
    have hlt := hu.nextOffset_lt hft.toSteady
    have hlu := hu.lastEnd_eq hft.toSteady
    have hlen := hu.length_pending_lt
    refine (ends_cellEnd (hr.deeper hu.source (by omega)) hbody
      (hst.trans (hu.onward hft.toSteady)) hfu (hku.mono (by decide)) (by omega) (by omega) hb hrow
      (.nil (by omega)) hnext).imp ?_
    intro turn v hv
    cases turn with
    | done r => exact hv
    | again cells => exact ⟨hv.1, by have := hv.2; omega⟩

theorem ends_cellTurn {lo : Nat} (hr : level.ruler.Excused F i t)
    (hbody : Bodied F level.ruler body) (hs : s.Sound) (hlo : lo ≤ s.nextOffset)
    (h : Barred F lo s cells t) :
    Ends F (cellTurn level body i cells) t (fun turn u => turn.Gives
      (fun r => Lined F i lo s r.1 u)
      fun cells => Barred F lo s cells u ∧ u.pending.length < t.pending.length) E := by
  have hbar := h.bar
  obtain ⟨-, hp⟩ := h.firm.sound.tag_ahead_zero.resolve_left fun h => by simp [h.1] at hbar
  exact ends_cellTurn_of_cases h.firm.sound hp hbar h.spare (by decide)
    (cases_barred hr hbody hs hlo h hp)

theorem ends_tableLine (lo : Nat) (hr : level.ruler.Excused F i s)
    (hbody : Bodied F level.ruler body) (hs : s.Firm) (hbar : (s.ahead 0).tag = .pipe) (hk : s.Spare F 30) (hlo : lo ≤ s.nextOffset)
    (hrow : Siblings s.source lo (max lo s.observer.lastEnd) cells) :
    Ends F (tableLine level body i cells) s (fun r t => Lined F i lo s r.1 t) E := by
  refine Ends.loop (fun cells t => Barred F lo s cells t) hs.sound
    ⟨.refl s, hs, hbar, hrow, hk⟩ fun cells t h => ?_
  exact ends_cellTurn (hr.onward h.toOnward hs.sound h.firm.sound) hbody hs.sound hlo h

def Stacked (src : Source) (lo last : Nat) (st : TableState) : Prop :=
  ∃ mid, mid ≤ max lo last ∧ Siblings src lo mid st.rows ∧ (st.cells ≠ [] → mid ≤ st.rowStart ∧
    src.IsBoundary st.rowStart ∧ st.rowStart ≤ last ∧ Siblings src st.rowStart last st.cells)

theorem ends_tableRow {src : Source} {lo : Nat} {st : TableState} {divider : Bool} (hs : s.Steady)
    (hsrc : s.source = src) (hst : Stacked src lo s.observer.lastEnd st) (hne : st.cells ≠ []) :
    Ends F (tableRow i st divider) s (fun row t => t = s ∧
      Siblings src lo s.observer.lastEnd (st.rows ++ [row])) E := by
  obtain ⟨mid, hmid, hrows, hcells⟩ := hst
  obtain ⟨h1, h2, h3, h4⟩ := hcells hne
  have hrow : Siblings src st.rowStart (max s.observer.lastEnd st.rowStart) st.cells := by
    rwa [Nat.max_eq_left h3]
  refine Ends.bind (ends_endCovering hrow (Ends.pure ⟨rfl, hrows.concat
    (container_faithful hs hsrc h2 hrow) h1 (Nat.le_max_right ..) ?_⟩))
  simp only [Block.span]
  omega

structure Stepped (F : Fault → Prop) (i lo : Nat) (s : Lexer Cursor) (st : TableState)
    (t : Lexer Cursor) : Prop extends s.Onward t where
  steady : t.Steady
  rests : Rests F (i + 1) t
  settled : t.Settled
  stacked : Stacked s.source lo t.observer.lastEnd st
  lt : s.nextOffset < t.observer.lastEnd

theorem ends_tableStepFrom {st : TableState} {lo mid rowStart : Nat}
    (hr : level.ruler.Excused F i s) (hbody : Bodied F level.ruler body) (hs : s.Firm) (hbar : (s.ahead 0).tag = .pipe) (hk : s.Spare F 27)
    (hle : rowStart ≤ s.nextOffset) (hb : s.source.IsBoundary rowStart) (hmid : mid ≤ rowStart)
    (hrows : Siblings s.source lo mid st.rows)
    (hrow : Siblings s.source rowStart (max rowStart s.observer.lastEnd) st.cells) :
    Ends F (tableStepFrom level body i st rowStart) s (fun st t => Stepped F i lo s st t) E := by
  refine Ends.seq (ends_tableLine rowStart hr hbody hs hbar (hk.mono (by decide)) hle hrow) ?_
  rintro ⟨cells, line⟩ t ht
  have hlt := ht.lt
  have hlast := ht.lastEnd_le
  have hstacked : Stacked s.source lo t.observer.lastEnd { st with cells, rowStart } :=
    ⟨mid, by omega, hrows, fun _ => ⟨hmid, hb, by simp only; omega, ht.row⟩⟩
  dsimp only
  unfold tableLineEnd
  split
  · split
    · exact Ends.pure ⟨ht.toOnward, ht.steady, ht.rests, ht.settled, hstacked, hlt⟩
    · next hne =>
      have hne : cells ≠ [] := by simpa using hne
      refine Ends.seq (ends_tableRow ht.steady ht.source hstacked hne) ?_
      rintro row _ ⟨rfl, hrows'⟩
      exact Ends.pure ⟨ht.toOnward, ht.steady, ht.rests, ht.settled,
        ⟨_, Nat.le_max_right .., hrows', fun h => absurd rfl h⟩, hlt⟩
  · exact Ends.pure ⟨ht.toOnward, ht.steady, ht.rests, ht.settled, hstacked, hlt⟩

theorem ends_tableStep {st : TableState} {lo : Nat} (hr : level.ruler.Excused F i s)
    (hbody : Bodied F level.ruler body) (hs : s.Firm) (hbar : (s.ahead 0).tag = .pipe) (hk : s.Spare F 26)
    (hlo : lo ≤ s.nextOffset) (hst : Stacked s.source lo s.observer.lastEnd st) :
    Ends F (tableStep level body i st) s (fun st t => Stepped F i lo s st t) E := by
  obtain ⟨mid, hmid, hrows, hcells⟩ := hst
  have hlast := hs.lastEnd_le
  unfold tableStep
  split
  · next hnil =>
    have hnil : st.cells = [] := by simpa using hnil
    refine Ends.bind (Ends.peek (.refl hs.sound) (by decide) hk (by decide) fun t ht hkt _ => ?_)
    have hnext := ht.nextOffset_eq hs.sound
    rw [hs.sound.start_ahead]
    have hbar' : (t.ahead 0).tag = .pipe := by rw [ht.ahead, hbar]
    have hrows' : Siblings t.source lo mid st.rows := by rwa [ht.source]
    refine (ends_tableStepFrom (hr.onward ht.onward hs.sound ht.sound) hbody (hs.looks ht) hbar' hkt (by omega) ?_ (by omega) hrows'
      ?_).imp ?_
    · rw [ht.source]
      exact hs.sound.isBoundary_nextOffset
    · rw [hnil]
      exact .nil (Nat.le_max_left ..)
    · intro st u hu
      have hstacked := hu.stacked
      have hlt := hu.lt
      rw [ht.source] at hstacked
      rw [hnext] at hlt
      exact ⟨ht.onward.trans hu.toOnward, hu.steady, hu.rests, hu.settled, hstacked, hlt⟩
  · next hne =>
    have hne : st.cells ≠ [] := by simpa using hne
    obtain ⟨h1, h2, h3, h4⟩ := hcells hne
    exact ends_tableStepFrom hr hbody hs hbar (hk.mono (by decide)) (by omega) h2 h1 hrows
      (h4.mono (Nat.le_max_right ..))

structure Tabled (s : Lexer Cursor) (st : TableState) (t : Lexer Cursor) : Prop
    extends s.Onward t where
  steady : t.Steady
  stacked : Stacked s.source s.nextOffset t.observer.lastEnd st

structure TableDone (F : Fault → Prop) (i : Nat) (s : Lexer Cursor) (st : TableState)
    (t : Lexer Cursor) : Prop extends Tabled s st t where
  rests : Rests F i t
  settled : t.Settled
  lt : s.nextOffset < t.observer.lastEnd

theorem ends_tableTurn {st : TableState} (hr : level.ruler.Excused F i t)
    (hbody : Bodied F level.ruler body) (hs : s.Sound) (ht : Tabled s st t) (hbar : (t.ahead 0).tag = .pipe) (hk : t.Spare F 25) :
    Ends F (tableTurn level body i st) t (fun turn u => turn.Gives (fun st => TableDone F i s st u)
      fun st => (Tabled s st u ∧ (u.ahead 0).tag = .pipe ∧ u.Spare F 25) ∧
        u.pending.length < t.pending.length) E := by
  obtain ⟨hst, ht, hstacked⟩ := ht
  have hle := hst.nextOffset_le hs ht.sound
  rw [← hst.source] at hstacked
  have hfirm := ht.firm (by rw [hbar]; rfl)
  refine Ends.seq (ends_tableStep hr hbody hfirm hbar (hk.mono (by decide)) hle hstacked) ?_
  intro st u hu
  have hstacked := hu.stacked
  have hlt := hu.lt
  rw [hst.source] at hstacked
  refine (ends_nextTurn (hr.line hu.source) hu.steady hu.rests).imp ?_
  rintro turn v ⟨⟨huv, hv⟩, hturn⟩
  have htabled : Tabled s st v :=
    ⟨(hst.trans hu.toOnward).trans huv.toOnward, hv, by rwa [huv.lastEnd]⟩
  have hltv : t.nextOffset < v.observer.lastEnd := by rwa [huv.lastEnd]
  cases turn with
  | done st' =>
    obtain ⟨rfl, hrests⟩ := hturn
    exact ⟨htabled, hrests, hu.settled.skips huv, by omega⟩
  | again st' =>
    obtain ⟨rfl, -, ⟨marker, ha, hc⟩, hkv⟩ := hturn
    obtain rfl : marker = .table := by simpa using hc
    have hlast := hv.lastEnd_le
    exact ⟨⟨htabled, (ha.cons rfl).2, hkv⟩,
      (hu.toOnward.trans huv.toOnward).length_pending_lt ht.sound hv.sound (by omega)⟩

theorem ends_tableRows {src : Source} {lo : Nat} {st : TableState} (hs : s.Steady)
    (hsrc : s.source = src) (hst : Stacked src lo s.observer.lastEnd st) :
    Ends F (tableRows i st) s (fun rows t => t = s ∧
      Siblings src lo (max lo s.observer.lastEnd) rows) E := by
  unfold tableRows
  split
  · obtain ⟨mid, hmid, hrows, -⟩ := hst
    exact Ends.pure ⟨rfl, hrows.mono hmid⟩
  · next hne =>
    refine Ends.seq (ends_tableRow hs hsrc hst (by simpa using hne)) ?_
    rintro row _ ⟨rfl, hrows⟩
    exact Ends.pure ⟨rfl, hrows.mono (Nat.le_max_right ..)⟩

theorem ends_table (hr : level.ruler.Excused F i s) (hbody : Bodied F level.ruler body) (hs : s.Steady)
    (hbar : (s.ahead 0).tag = .pipe) (hk : s.Spare F 24) :
    Ends F (table level body i) s (fun b t => Spans F i s b t) E := by
  refine Ends.bind (Ends.peek (.refl hs.sound) (by decide) hk (by decide) fun t ht hkt _ => ?_)
  rw [hs.sound.start_ahead]
  have htabled : Tabled s { rowStart := s.nextOffset } t :=
    ⟨ht.onward, hs.looks ht, s.nextOffset, by omega, .nil (Nat.le_refl _), fun h => absurd rfl h⟩
  refine Ends.seq (Q := fun st u => TableDone F i s st u) (Ends.loop
    (fun st u => Tabled s st u ∧ (u.ahead 0).tag = .pipe ∧ u.Spare F 25) ht.sound
    ⟨htabled, by rw [ht.ahead, hbar], hkt⟩ fun st u h =>
      ends_tableTurn (hr.onward h.1.toOnward hs.sound h.1.steady.sound) hbody hs.sound h.1 h.2.1
        h.2.2) ?_
  intro st u hu
  have hlt := hu.lt
  refine Ends.seq (ends_tableRows hu.steady hu.source hu.stacked) ?_
  rintro rows u ⟨rfl, hrows⟩
  rw [Nat.max_comm] at hrows
  have hmax : max u.observer.lastEnd s.nextOffset = u.observer.lastEnd := by omega
  exact Ends.bind (ends_endCovering hrows (Ends.pure ⟨hu.toOnward, hu.steady, hu.rests, hu.settled,
    container_faithful hu.steady hu.source hs.sound.isBoundary_nextOffset hrows, rfl,
    Nat.le_of_eq hmax, fun _ => hmax, hlt⟩))

end TaskMarkup.Parse
