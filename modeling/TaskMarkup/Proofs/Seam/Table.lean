import TaskMarkup.Proofs.Grammar.Block
import TaskMarkup.Proofs.Seam.Paragraph

namespace TaskMarkup.Parse

open Rule

variable {F : Fault → Prop} {E : Empty → Lexer Cursor → Prop} {x : Seam} {s t : Lexer Cursor}
  {i : Nat} {level : Level} {body : Nat → Parse (List Block)} {bs cells : List Block}

structure Awaits (x : Seam) (i : Nat) (t : Lexer Cursor) : Prop where
  steady : t.Steady
  rests : Rests (fun _ => True) i t
  upto : x.Upto t

def Confined (x : Seam) (body : Nat → Parse (List Block)) : Prop :=
  ∀ (E : Empty → Lexer Cursor → Prop) i s, 0 < i → Awaits x i s →
    Ends (fun _ => True) (body i) s (fun _ t => Awaits x i t) E

theorem ends_endCovering_same {start : Nat} :
    Ends F (endCovering start bs) s (fun _ t => t = s) E :=
  Ends.bind (Ends.endFrom (Ends.pure rfl))

theorem ends_cell_same {bar : Token} {config : CellConfig} :
    Ends F (cell bar i config bs) s (fun _ t => t = s) E :=
  Ends.seq ends_endCovering_same fun _ _ h => Ends.pure h

theorem ends_tableRow_same {st : TableState} {divider : Bool} :
    Ends F (tableRow i st divider) s (fun _ t => t = s) E :=
  Ends.seq ends_endCovering_same fun _ _ h => Ends.pure h

theorem keeps_newline {nl : Token} (hs : s.Firm) (h : x.Before s) (ht : s.Eats nl t)
    (hnl : nl.tag = .newline) : Awaits x i t := by
  obtain ⟨-, hsteady, -, hrests⟩ := rests_newline (F := fun _ => True) hs ht hnl (t.spare_true 0)
  refine ⟨hsteady, hrests i, .of_fresh ((h.newline hs.toSteady ht).imp id And.left) ?_⟩
  simp [ht.observer, Observer.onEat, Cursor.onEat, Cursor.note, hnl]

theorem keeps_eatLine (hs : s.Firm) (h : x.Before s) :
    Ends (fun _ => True) eatLine s (fun _ t => Awaits x i t) E := by
  apply (Ends.eatLine hs.sound (s.spare_true 0) (by decide)).imp
  rintro - t ⟨u, hu, -, ht⟩
  have hsu : s.Scans u := .of_takeWhile hu fun v hv => by simpa using hv
  have hbefore := h.scans hsu
  rcases ht with ⟨ht, hp, -⟩ | ⟨nl, hnl, ht⟩
  · exact absurd hp (hbefore.looks ht).ne_nil
  · exact keeps_newline (hsu.firm hs) hbefore ht hnl

structure Bars (x : Seam) (t : Lexer Cursor) : Prop where
  firm : t.Firm
  bar : (t.ahead 0).tag = .pipe
  before : x.Before t

theorem keeps_cellEnd {bar : Token} {config : CellConfig} (hbody : Confined x body) (hs : s.Firm)
    (h : x.Before s) (hnext : (s.ahead 0).tag = .newline ∨ (s.ahead 0).tag = .pipe) :
    Ends (fun _ => True) (cellEnd body i cells bar config bs) s (fun turn t =>
      turn.Gives (fun _ => Awaits x (i + 1) t) fun _ => Bars x t) E := by
  apply Ends.bind
  apply Ends.peekTag (.refl hs.sound) (by decide) (s.spare_true 0) (by decide)
  intro t ht _ _
  split
  · next hbar =>
    apply Ends.seq ends_cell_same
    rintro _ _ rfl
    exact Ends.pure ⟨hs.looks ht, by rw [ht.ahead, hbar], h.looks ht⟩
  · next hnl =>
    have hp := (hs.sound.tag_ahead_zero.resolve_left fun h => by simp [h.1] at hnl).2
    apply Ends.bind
    apply Ends.eat ht (t.spare_true 0) (by decide) hp
    intro u hu _ _
    apply Ends.seq (hbody E (i + 1) u (Nat.succ_pos i) (keeps_newline hs h hu hnl))
    intro blocks v hv
    apply Ends.seq ends_cell_same
    rintro _ _ rfl
    exact Ends.pure hv
  · next hbar hnl => exact absurd hnext (not_or.2 ⟨hnl, hbar⟩)

theorem cases_bars {bar : Token} {rest : List Token} (hx : x.Flat level.ruler)
    (hbody : Confined x body) (h : Bars x s) (hp : s.pending = bar :: rest) :
    CellCases (fun _ => True) E level body i cells bar s fun turn t =>
      turn.Gives (fun _ => Awaits x (i + 1) t) fun _ => Bars x t where
  divider ht hu _ _ := by
    have hbar := h.bar
    rw [Lexer.ahead_zero_of_cons hp] at hbar
    have hsu := (ht.reads (by simp [hbar])).looks hu
    exact (keeps_eatLine (hsu.firm h.firm) (h.before.reads hsu)).imp fun _ _ hv => hv
  filled hsu hku _ _ := by
    have hfu := hsu.firm h.firm
    have hbefore := h.before.reads hsu
    refine ((ends_paragraph (excused_true level.ruler) hfu hku).also
      (keeps_paragraph (E := E) hx hfu hbefore)).imp ?_
    rintro b v ⟨hv, hkeeps⟩
    have hbefore : x.Before v := hkeeps.resolve_right fun h => by simp at h
    apply keeps_cellEnd hbody hv.firm hbefore
    cases hv.ended with
    | eof hp _ => exact absurd hp hbefore.ne_nil
    | line _ hnl => exact .inl hnl
    | bar _ hbar => exact .inr hbar
    | rests hmode _ => simp at hmode
  empty hsu _ hnext :=
    have hbefore := h.before.reads hsu
    keeps_cellEnd hbody (hsu.firm h.firm) hbefore (hnext.resolve_left hbefore.ne_nil)

theorem keeps_cellTurn (hx : x.Flat level.ruler) (hbody : Confined x body) (h : Bars x s) :
    Ends (fun _ => True) (cellTurn level body i cells) s (fun turn t =>
      turn.Gives (fun _ => Awaits x (i + 1) t) fun _ => Bars x t) E := by
  have hp := (h.firm.sound.tag_ahead_zero.resolve_left fun h' => by simp [h.bar] at h').2
  exact ends_cellTurn_of_cases h.firm.sound hp h.bar (s.spare_true 0) (by decide)
    (cases_bars hx hbody h hp)

theorem keeps_tableStepFrom {st : TableState} {rowStart : Nat} (hx : x.Flat level.ruler)
    (hbody : Confined x body) (h : Bars x s) :
    Ends (fun _ => True) (tableStepFrom level body i st rowStart) s
      (fun _ t => Awaits x (i + 1) t) E := by
  have hline : Ends (fun _ => True) (tableLine level body i st.cells) s
      (fun _ t => Awaits x (i + 1) t) E :=
    Ends.loop_true (fun _ t => Bars x t) h fun _ _ h => keeps_cellTurn hx hbody h
  apply Ends.seq hline
  rintro ⟨cells, line⟩ t ht
  dsimp only
  unfold tableLineEnd
  split
  · split
    · exact Ends.pure ht
    · apply Ends.seq ends_tableRow_same
      rintro _ _ rfl
      exact Ends.pure ht
  · exact Ends.pure ht

theorem keeps_tableStep {st : TableState} (hx : x.Flat level.ruler) (hbody : Confined x body)
    (h : Bars x s) :
    Ends (fun _ => True) (tableStep level body i st) s (fun _ t => Awaits x (i + 1) t) E := by
  unfold tableStep
  split
  · apply Ends.bind
    apply Ends.peek (.refl h.firm.sound) (by decide) (s.spare_true 0) (by decide)
    intro t ht _ _
    exact keeps_tableStepFrom hx hbody ⟨h.firm.looks ht, by rw [ht.ahead, h.bar], h.before.looks ht⟩
  · exact keeps_tableStepFrom hx hbody h

theorem keeps_tableTurn {st : TableState} (hx : x.Flat level.ruler) (hbody : Confined x body)
    (hstop : i = 0 → ∀ t : Lexer Cursor, t.pending = x.rest → announced level.room t ≠ .table)
    (h : Bars x s) :
    Ends (fun _ => True) (tableTurn level body i st) s (fun turn t =>
      turn.Gives (fun _ => x.Upto t) fun _ => Bars x t) E := by
  apply Ends.seq (keeps_tableStep hx hbody h)
  intro st t ht
  apply ((ends_nextTurn (excused_true level.ruler) ht.steady ht.rests).also
    (keeps_nextTurn (E := E) hx ht.steady ht.rests ht.upto ?_)).imp
  · rintro turn u ⟨⟨⟨-, hu⟩, hends⟩, hkeeps⟩
    cases turn with
    | done st => exact hkeeps
    | again st =>
      obtain ⟨-, -, ⟨marker, ha, hc⟩, -⟩ := hends
      obtain rfl : marker = .table := by simpa using hc
      have hbar := (ha.cons rfl).2
      exact ⟨hu.firm (by rw [hbar]; rfl), hbar, hkeeps⟩
  · exact fun hi u hu => decide_eq_false (hstop hi u hu)

theorem keeps_table (hx : x.Flat level.ruler) (hbody : Confined x body)
    (hstop : i = 0 → ∀ t : Lexer Cursor, t.pending = x.rest → announced level.room t ≠ .table)
    (h : Bars x s) :
    Ends (fun _ => True) (table level body i) s (fun _ t => x.Upto t) E := by
  apply Ends.bind
  apply Ends.peek (.refl h.firm.sound) (by decide) (s.spare_true 0) (by decide)
  intro t ht _ _
  apply Ends.seq (Ends.loop_true (Q := fun _ u => x.Upto u) (fun _ u => Bars x u)
    ⟨h.firm.looks ht, by rw [ht.ahead, h.bar], h.before.looks ht⟩
    fun _ _ h => keeps_tableTurn hx hbody hstop h)
  intro st u hu
  have hrows : Ends (fun _ => True) (tableRows i st) u (fun _ v => v = u) E := by
    unfold tableRows
    split
    · exact Ends.pure rfl
    · apply Ends.seq ends_tableRow_same
      rintro _ _ rfl
      exact Ends.pure rfl
  apply Ends.seq hrows
  rintro rows _ rfl
  apply Ends.seq ends_endCovering_same
  rintro _ _ rfl
  exact Ends.pure hu

end TaskMarkup.Parse
