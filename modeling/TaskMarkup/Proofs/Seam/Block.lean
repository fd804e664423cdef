import TaskMarkup.Proofs.Seam.Table

namespace TaskMarkup

def Marker.recurs : Marker → Bool
  | .list | .ordered _ | .table => true
  | .header _ | .task | .separator | .raw | .paragraph => false

def Seam.Stops (x : Seam) (room : Nat) : Prop :=
  ∀ t : Lexer Cursor, t.pending = x.rest → (Parse.announced room t).recurs = false

namespace Parse

open Rule

variable {E : Empty → Lexer Cursor → Prop} {x : Seam} {s t : Lexer Cursor} {i n : Nat}
  {level : Level} {ruler : Ruler} {body : Nat → Parse (List Block)} {marker : Marker}

theorem keeps_header {size : Nat} (hx : x.Flat level.ruler) (hs : s.Firm) (h : x.Before s)
    (ha : Announces s (.header size)) :
    Ends (fun _ => True) (header level size i) s (fun _ t => x.Upto t) E := by
  apply Ends.bind
  apply Ends.peek (.refl hs.sound) (by decide) (s.spare_true 0) (by decide)
  intro t ht _ _
  apply Ends.seq (ends_marker ha ht (t.spare_true 0) (by decide) (by simp [Marker.heads])
    (ha.pos size rfl))
  rintro - u ⟨hu, -⟩
  apply Ends.seq (Ends.eatInlineSpace hu.sound (u.spare_true 0) (by decide))
  rintro - v ⟨hv, -⟩
  have hsv : s.Scans v := hu.scans.trans (.of_takeWhile hv fun _ => Tag.ne_newline_of_isInlineSpace)
  apply Ends.seq ((ends_paragraph (p := ⟨level, i, .singleLine⟩) (excused_true level.ruler)
    (hsv.firm hs) (v.spare_true _)).also (keeps_paragraph (E := E) hx (hsv.firm hs) (h.scans hsv)))
  rintro child w ⟨hw, hkeeps⟩
  have hbefore : x.Before w := hkeeps.resolve_right fun h => by simp at h
  apply Ends.seq (Ends.eatIf hw.firm.sound (by decide) (w.spare_true 0) (by decide))
  rintro r y (⟨-, -, hy, -⟩ | ⟨nl, -, hnl, hy, -⟩)
  · exact Ends.bind (Ends.endFrom (Ends.pure (.before (hbefore.looks hy))))
  · exact Ends.bind (Ends.endFrom (Ends.pure (keeps_newline (i := i) hw.firm hbefore hy hnl).upto))

theorem keeps_separator (hs : s.Firm) (h : x.Before s) (ha : Announces s .separator) :
    Ends (fun _ => True) (separator i) s (fun _ t => x.Upto t) E := by
  obtain ⟨hp, htag⟩ := ha.cons rfl
  have hthree : 3 ≤ ((s.ahead 0).run s.pending).length := Token.le_length_run ha.heads htag
  have hc : (s.ahead 0).tag.char? = some '=' := by rw [htag, Tag.char?]
  apply Ends.bind
  apply Ends.peek (.refl hs.sound) (by decide) (s.spare_true 0) (by decide)
  intro t ht _ _
  have hpt := ht.pending.trans hp
  apply Ends.seq (Ends.repeats ht.sound hpt hc)
  rintro n _ ⟨hsame, hn⟩
  rw [hsame]
  have hle := Token.length_run_le (s.ahead 0) t.pending
  apply Ends.seq (Ends.eatMany ht.sound (by omega) (t.spare_true 0) (by decide))
  rintro - u ⟨hu, -⟩
  have htu : t.Scans u := by
    refine ⟨_, fun v hv => ?_, hu⟩
    rw [Token.tag_of_mem_take_run (Nat.le_of_eq hn) v hv, htag]
    decide
  apply Ends.bind
  apply Ends.endFrom
  apply Ends.seq (keeps_eatLine (i := i) (htu.firm (hs.looks ht)) ((h.looks ht).scans htu))
  exact fun _ v hv => Ends.pure hv.upto

theorem keeps_blankTurn (count : Nat) (hx : x.Flat ruler) (hs : s.Steady) (hd : s.LineDone)
    (h : x.Before s ∨ x.Inside s) :
    Ends (fun _ => True) (blankTurn ruler count) s (fun turn t =>
      (x.Before t ∨ x.Inside t) ∧ turn.Gives (fun r => x.Inside t →
        (t.ahead 0).tag.isContent = true → r.1 / ruler.width = 0) fun _ => True) E := by
  apply Ends.seq (keeps_indentColumns hx hs.sound h)
  intro columns t ht
  have hst := hs.skips hd ht.toSkips
  apply Ends.bind
  apply Ends.peekTag (.refl ht.sound) (by decide) ht.spare (by decide)
  intro u hu hku _
  have hupto : x.Before u ∨ x.Inside u := ht.upto.imp (·.looks hu) (·.looks hu)
  split
  · refine Ends.pure ⟨hupto, fun hin hcontent => ht.zero ?_ ?_⟩
    · exact ht.upto.resolve_left fun hbefore => (hbefore.looks hu).not_inside hin
    · rwa [← hu.ahead]
  · next hnl =>
    have hnl : (t.ahead 0).tag = .newline := by simpa using hnl
    have hp := (ht.sound.tag_ahead_zero.resolve_left fun h => by simp [h.1] at hnl).2
    apply Ends.bind
    apply Ends.paused
    apply Ends.eat (.refl hu.sound.onCursor) hku.onCursor (by decide) (hu.pending.trans hp)
    exact fun v hv _ _ => ⟨_, hv.took, by simp [hnl], fun hskip => Ends.pure
      ⟨hupto.elim (·.skips (hst.looks hu) hskip) fun h => .inr (h.skips hskip), trivial⟩⟩

theorem keeps_skipBlankLines (hx : x.Flat ruler) (hs : s.Steady) (hd : s.LineDone)
    (h : x.Before s ∨ x.Inside s) :
    Ends (fun _ => True) (skipBlankLines ruler) s (fun r t => (x.Before t ∨ x.Inside t) ∧
      (x.Inside t → (t.ahead 0).tag.isContent = true → r.1 / ruler.width = 0)) E := by
  apply Ends.loop_true (fun _ t => (t.Steady ∧ t.LineDone) ∧ (x.Before t ∨ x.Inside t)) ⟨⟨hs, hd⟩, h⟩
  rintro count t ⟨⟨ht, hdt⟩, h⟩
  apply ((ends_blankTurn count (excused_true ruler) ht hdt (t.spare_true 0)).also
    (keeps_blankTurn (E := E) count hx ht hdt h)).imp
  rintro turn u ⟨⟨⟨htu, hu⟩, -⟩, hupto, hkeeps⟩
  cases turn with
  | done r => exact ⟨hupto, hkeeps⟩
  | again count => exact ⟨⟨hu, hdt.skips htu⟩, hupto⟩

theorem keeps_rawNext {base columns blank : Nat} {text : List Char} (hs : s.Sound)
    (hspace : (s.ahead 0).tag.isInlineSpace = false) (hnl : (s.ahead 0).tag ≠ .newline)
    (h : x.Before s ∨ x.Inside s)
    (hzero : x.Inside s → (s.ahead 0).tag.isContent = true → columns / ruler.width = 0) :
    Ends (fun _ => True) (rawNext ruler base i text columns blank) s (fun turn t =>
      turn.Gives (fun _ => x.Upto t) fun _ => x.Before t) E := by
  apply Ends.bind
  apply Ends.peekTag (.refl hs) (by decide) (s.spare_true 0) (by decide)
  intro t ht _ _
  split
  · next heof =>
    have hp := (hs.tag_ahead_zero.resolve_right fun h => h.1 heof).2
    exact absurd hp (h.elim Seam.Before.ne_nil Seam.Inside.ne_nil)
  · next heof =>
    have hcontent : (s.ahead 0).tag.isContent = true := by
      rw [Tag.isContent_iff]
      exact ⟨hspace, by simpa [Tag.endsLine] using ⟨hnl, heof⟩⟩
    apply Ends.bind
    apply Ends.setLineIndent
    split
    · apply Ends.pure
      rcases h with hbefore | hin
      · exact .before ((hbefore.looks ht).of_pending rfl)
      · refine .inside ⟨(hin.looks ht).pending, (hin.looks ht).lastEnd_le⟩ ?_
        rintro _ ⟨⟩
        exact hzero hin hcontent
    · next hdeep =>
      have hbefore : x.Before s := h.resolve_right fun hin => by
        have := hzero hin hcontent
        omega
      apply Ends.bind
      apply Ends.setLineIndent
      apply Ends.seq (ends_columnSpaces (.inl trivial))
      rintro spaces _ rfl
      apply Ends.bind
      apply Ends.peek (.refl ht.sound.onCursor.onCursor) (by decide) (Lexer.spare_true _ 0) (by decide)
      exact fun u hu _ _ => Ends.pure ((hbefore.looks ht).of_pending hu.pending)

theorem keeps_rawTurn {base : Nat} (lines : List Char × Nat) (hx : x.Flat ruler) (hs : s.Firm)
    (h : x.Before s) :
    Ends (fun _ => True) (rawTurn ruler base i lines) s (fun turn t =>
      turn.Gives (fun _ => x.Upto t) fun _ => x.Before t) E := by
  obtain ⟨text, start⟩ := lines
  apply Ends.seq (Ends.eatUntil hs.sound (s.spare_true 0) (by decide))
  rintro - t ⟨ht, -⟩
  have hst : s.Scans t := .of_takeWhile ht fun v hv => by simpa using hv
  have hft := hst.firm hs
  have hbefore := h.scans hst
  apply Ends.bind
  apply Ends.endFrom
  apply Ends.bind
  apply Ends.bind
  apply Ends.get
  apply Ends.pure
  dsimp only
  apply Ends.seq (Ends.eatIf hft.sound (by decide) (t.spare_true 0) (by decide))
  rintro r u (⟨rfl, -, hu, -⟩ | ⟨nl, rfl, hnl, hu, -⟩)
  · exact Ends.pure (.before (hbefore.looks hu))
  · have hsteady := (hft.toSteady.eats_newline hu hnl).1
    have hdone := (hft.toSteady.settled_of_newline hu hnl).done
    apply Ends.seq ((ends_skipBlankLines (excused_true ruler) hsteady hdone (u.spare_true 0)).also
      (keeps_skipBlankLines (E := E) hx hsteady hdone
        ((hbefore.newline hft.toSteady hu).imp id And.left)))
    rintro ⟨columns, blank⟩ v ⟨⟨-, hv, hspace, hne, -⟩, hupto, hzero⟩
    exact keeps_rawNext hv.sound hspace hne hupto hzero

theorem keeps_rawBlock (hx : x.Flat ruler) (hs : s.Firm) (h : x.Before s)
    (ha : Announces s .raw) :
    Ends (fun _ => True) (rawBlock ruler i) s (fun _ t => x.Upto t) E := by
  obtain ⟨hp, htag⟩ := ha.cons rfl
  apply Ends.bind
  apply Ends.eat (.refl hs.sound) (s.spare_true 0) (by decide) hp
  intro t ht _ _
  have hst := ht.reads (by simp [htag])
  apply Ends.bind
  apply Ends.get
  apply Ends.seq (ends_counted (.inl trivial))
  rintro base _ ⟨-, rfl⟩
  apply Ends.seq (Ends.loop_true (Q := fun _ u => x.Upto u) (fun _ u => u.Firm ∧ x.Before u)
    ⟨hst.firm hs, h.reads hst⟩ ?_)
  · exact fun text u hu => Ends.bind (Ends.endFrom (Ends.bind (Ends.endFrom (Ends.pure hu))))
  · rintro lines u ⟨hu, hbefore⟩
    apply ((ends_rawTurn lines (excused_true ruler) (.refl u) hu (u.spare_true _) (.inl rfl)).also
      (keeps_rawTurn (E := E) lines hx hu hbefore)).imp
    rintro turn v ⟨⟨-, hends⟩, hkeeps⟩
    cases turn with
    | done text => exact hkeeps
    | again lines => exact ⟨hends.1.1, hkeeps⟩

theorem keeps_enterBody (hs : s.Firm) (hlast : s.observer.lastEnd = s.nextOffset)
    (h : x.Before s) :
    Ends (fun _ => True) (enterBody i) s (fun _ t => Awaits x i t) E := by
  have hkeeps : Ends (fun _ => True) (enterBody i) s (fun _ t => x.Before t) E := by
    apply Ends.seq (Ends.eatInlineSpace hs.sound (s.spare_true 0) (by decide))
    rintro - t ⟨ht, -⟩
    have hst : s.Scans t := .of_takeWhile ht fun _ => Tag.ne_newline_of_isInlineSpace
    apply Ends.bind
    apply Ends.peekTag (.refl ht.sound) (by decide) (t.spare_true 0) (by decide)
    intro u hu _ _
    exact Ends.setLineIndent (((h.scans hst).looks hu).of_pending rfl)
  apply ((ends_enterBody (E := E) hs hlast (s.spare_true _)).also hkeeps).imp
  exact fun _ t ht => ⟨ht.1.2.1, ht.1.2.2.2, .before ht.2⟩

theorem keeps_bodied {start : Nat} {kind : Container} (hbody : Confined x body) (hs : s.Steady)
    (hst : s.Reads t) (ht : t.Firm) (h : x.Before s) :
    Ends (fun _ => True) (bodied body i start kind) t (fun _ u => Awaits x (i + 1) u) E := by
  apply Ends.seq (keeps_enterBody ht (hst.lastEnd_eq hs) (h.reads hst))
  intro _ u hu
  apply Ends.seq (hbody E (i + 1) u (Nat.succ_pos i) hu)
  intro children v hv
  apply Ends.seq ends_endCovering_same
  rintro _ _ rfl
  exact Ends.pure hv

theorem keeps_listItem (hbody : Confined x body) (hs : s.Firm) (h : x.Before s)
    (ha : Announces s marker) (hn : marker.heads.length = n) (hpos : 0 < n) :
    Ends (fun _ => True) (listItem body n i) s (fun _ t => Awaits x (i + 1) t) E := by
  apply Ends.bind
  apply Ends.peek (.refl hs.sound) (by decide) (s.spare_true 0) (by decide)
  intro t ht _ _
  apply Ends.seq (ends_marker ha ht (t.spare_true 0) (by decide) hn hpos)
  rintro - u ⟨hu, -⟩
  exact keeps_bodied hbody hs.toSteady hu (hu.firm hs) h

structure Itemizes (x : Seam) (n : Nat) (t : Lexer Cursor) : Prop where
  steady : t.Steady
  marked : Marked (fun _ => True) n t
  before : x.Before t

theorem keeps_itemTurn {continues : Nat → Marker → Bool} {items : List Block}
    (hx : x.Flat level.ruler) (hbody : Confined x body)
    (hcont : ∀ count m, continues count m = true → m.heads.length = n) (hpos : 0 < n)
    (hstop : i = 0 → ∀ t : Lexer Cursor, t.pending = x.rest →
      ∀ count, continues count (announced level.room t) = false)
    (h : Itemizes x n s) :
    Ends (fun _ => True) (itemTurn level body n i continues items) s (fun turn t =>
      turn.Gives (fun _ => x.Upto t) fun _ => Itemizes x n t) E := by
  obtain ⟨hs, ⟨hcontent, ⟨marker, ha, hn⟩, -⟩, hbefore⟩ := h
  apply Ends.seq (keeps_listItem hbody (hs.firm (Tag.isContent_iff.1 hcontent).1) hbefore ha hn hpos)
  intro item t ht
  apply ((ends_nextTurn (excused_true level.ruler) ht.steady ht.rests).also
    (keeps_nextTurn (E := E) hx ht.steady ht.rests ht.upto fun hi u hu => hstop hi u hu _)).imp
  rintro turn u ⟨⟨⟨-, hu⟩, hends⟩, hkeeps⟩
  cases turn with
  | done items => exact hkeeps
  | again items =>
    obtain ⟨-, hcontent, ⟨marker, ha, hc⟩, hk⟩ := hends
    exact ⟨hu, ⟨hcontent, ⟨marker, ha, hcont _ _ hc⟩, hk⟩, hkeeps⟩

theorem keeps_listItems {continues : Nat → Marker → Bool} {kind : Container}
    (hx : x.Flat level.ruler) (hbody : Confined x body) (hs : s.Steady)
    (hcontent : (s.ahead 0).tag.isContent = true) (h : x.Before s) (ha : Announces s marker)
    (hn : marker.heads.length = n) (hpos : 0 < n)
    (hcont : ∀ count m, continues count m = true → m.heads.length = n)
    (hstop : i = 0 → ∀ t : Lexer Cursor, t.pending = x.rest →
      ∀ count, continues count (announced level.room t) = false) :
    Ends (fun _ => True) (listItems level body n i continues kind) s (fun _ t => x.Upto t) E := by
  apply Ends.bind
  apply Ends.peek (.refl hs.sound) (by decide) (s.spare_true 0) (by decide)
  intro t ht _ _
  have hstart : Itemizes x n t := by
    refine ⟨hs.looks ht, ⟨?_, ⟨marker, ha.looks ht, hn⟩, t.spare_true _⟩, h.looks ht⟩
    rw [ht.ahead, hcontent]
  apply Ends.seq (Ends.loop_true (Q := fun _ u => x.Upto u) (fun _ u => Itemizes x n u) hstart
    fun _ _ h => keeps_itemTurn hx hbody hcont hpos hstop h)
  intro items u hu
  apply Ends.seq ends_endCovering_same
  rintro _ _ rfl
  exact Ends.pure hu

theorem keeps_task (hbody : Confined x body) (hs : s.Firm) (h : x.Before s)
    (ha : Announces s .task) :
    Ends (fun _ => True) (task body i) s (fun _ t => x.Upto t) E := by
  obtain ⟨hp, htag⟩ := ha.cons rfl
  apply Ends.bind
  apply Ends.eat (.refl hs.sound) (s.spare_true 0) (by decide) hp
  intro t ht _ _
  have hst := ht.reads (by simp [htag])
  apply Ends.seq (ends_directives hst.sound (t.spare_true _))
  rintro task u ⟨-, hu, -⟩
  have hsu := hst.scan hu
  exact (keeps_bodied hbody hs.toSteady hsu (hsu.firm hs) h).imp fun _ v hv => hv.upto

theorem keeps_block (hx : x.Flat level.ruler) (hbody : Confined x body) (hs : s.Steady)
    (hcontent : (s.ahead 0).tag.isContent = true) (h : x.Before s) (ha : Announces s marker)
    (hstop : i = 0 → x.Stops level.room) :
    Ends (fun _ => True) (block level body i marker) s (fun _ t => x.Upto t) E := by
  have hfirm := hs.firm (Tag.isContent_iff.1 hcontent).1
  cases marker with
  | header size => exact keeps_header hx hfirm h ha
  | task => exact keeps_task hbody hfirm h ha
  | list =>
    apply keeps_listItems hx hbody hs hcontent h ha (n := 1) rfl (by decide)
    · intro count m hm
      rw [of_decide_eq_true hm]
      rfl
    · intro hi t ht count
      have := hstop hi t ht
      apply decide_eq_false
      intro hm
      simp [hm, Marker.recurs] at this
  | ordered first =>
    apply keeps_listItems hx hbody hs hcontent h ha (n := 2) rfl (by decide)
    · intro count m hm
      rw [of_decide_eq_true hm]
      rfl
    · intro hi t ht count
      have := hstop hi t ht
      apply decide_eq_false
      intro hm
      simp [hm, Marker.recurs] at this
  | table =>
    apply keeps_table hx hbody _ ⟨hfirm, (ha.cons rfl).2, h⟩
    intro hi t ht hm
    have := hstop hi t ht
    simp [hm, Marker.recurs] at this
  | separator => exact keeps_separator hfirm h ha
  | raw => exact keeps_rawBlock hx hfirm h ha
  | paragraph =>
    exact (keeps_paragraph (p := ⟨level, i, .block⟩) hx hfirm h).imp fun _ t ht =>
      ht.elim .before And.right

theorem keeps_opened (hx : x.Flat level.ruler) (hbody : Confined x body) (hs : s.Steady)
    (hcontent : (s.ahead 0).tag.isContent = true) (h : x.Before s)
    (hstop : i = 0 → x.Stops level.room) :
    Ends (fun _ => True) (opened level body i) s (fun _ t => x.Upto t) E := by
  apply Ends.seq (ends_dispatch hs.sound (s.spare_true 0) (by decide))
  rintro marker t ⟨ht, -, ha, -⟩
  have ha := ha.looks ht
  apply Ends.bind
  apply Ends.record
  apply keeps_block hx hbody ((hs.looks ht).took_nil (ht.sound.noting _)) _
    ((h.looks ht).of_pending rfl) ⟨ha.heads, ha.pos⟩ hstop
  rw [Lexer.ahead_onCursor, ht.ahead, hcontent]

theorem keeps_nextBlock (hx : x.Flat level.ruler) (hbody : Confined x body) (hi : 0 < i)
    (h : Awaits x i s) :
    Ends (fun _ => True) (nextBlock level body i) s (fun _ t => x.Upto t) E := by
  rw [nextBlock_eq]
  apply Ends.seq ((ends_lineStart (excused_true level.ruler) h.steady h.rests).also
    (keeps_lineStart (E := E) hx h.steady h.rests h.upto))
  rintro r t ⟨⟨-, ht, hfound⟩, hlands⟩
  split
  · exact Ends.pure hlands.upto
  · next measured =>
    split
    · exact Ends.pure hlands.upto
    · next hge =>
      cases hfound with
      | line _ hcontent _ _ =>
        cases hlands with
        | before hbefore =>
          apply Ends.seq (keeps_opened hx hbody ht hcontent hbefore fun h0 => by omega)
          exact fun b u hu => Ends.pure hu
        | reached _ hzero _ =>
          obtain rfl := Option.some.inj hzero
          exact absurd hi hge

theorem confined_body (hx : x.Flat ruler) (room : Nat) : Confined x (Parse.body ruler room) := by
  -- By induction on the number of bodies that may be opened.
  induction room with
  | zero => exact fun E i s _ h => Ends.pure h
  | succ room ih =>
    intro E i s hi h
    show Ends _ (blocks ⟨ruler, room⟩ (Parse.body ruler room) i) s _ E
    have hflat : x.Flat (⟨ruler, room⟩ : Level).ruler := hx
    have hbodied : (⟨ruler, room⟩ : Level).room ≠ 0 →
        Bodied (fun _ => True) ruler (Parse.body ruler room) := bodied_body
    apply Ends.loop_true (fun _ t => Awaits x i t) h
    intro bs t ht
    apply Ends.seq ((ends_nextBlock (excused_true ruler) hbodied ht.steady ht.rests).also
      (keeps_nextBlock (E := E) hflat ih hi ht))
    rintro r u ⟨hu, hupto⟩
    cases r with
    | none =>
      obtain ⟨-, hsteady, r, hfound, -⟩ := hu
      exact Ends.pure ⟨hsteady, .found hfound, hupto⟩
    | some b =>
      obtain ⟨v, hv⟩ := hu
      exact Ends.pure ⟨hv.spans.steady, hv.spans.rests, hupto⟩

end Parse

end TaskMarkup
