import TaskMarkup.Proofs.Excerpt.Body

namespace TaskMarkup

variable {x : Stretch} {loose : Prop} {s t e f : Lexer Cursor} {i : Nat} {ruler : Ruler}

theorem Lexer.Sound.head?_texts (h : s.Sound) :
    (Token.texts s.pending).head? = (s.ahead 0).text.head? := by
  cases hp : s.pending with
  | nil =>
    simp [Lexer.ahead, hp, Token.eof]
  | cons tok rest =>
    have hne := (h.spelled (t := tok) (by simp [hp])).text_ne_nil
    rw [Lexer.ahead_zero_of_cons hp, Token.texts_cons, List.head?_append_of_ne_nil _ hne]

namespace Stretch.Abreast

theorem slice (h : x.Abreast loose s e) {m n : Nat} (hm : e.source.IsBoundary m)
    (hn : e.source.IsBoundary n) (hmn : m ≤ n) :
    s.source.slice (m + x.origin) (n + x.origin) = e.source.slice m n := by
  obtain ⟨as, bs, ha, rfl⟩ := hm
  obtain ⟨cs, ds, hc, rfl⟩ := hn
  obtain ⟨es, rfl, rfl⟩ := Text.exists_append_of_byteSize_le (ha.symm.trans hc) hmn
  have hs : s.source.chars = (x.before ++ as) ++ es ++ (ds ++ Token.texts x.rest) := by
    rw [h.source, ← h.source', hc]
    simp
  have hpre : Text.byteSize as + x.origin = Text.byteSize (x.before ++ as) := by
    rw [Text.byteSize_append, Nat.add_comm]
    rfl
  have hend : Text.byteSize (as ++ es) + x.origin = Text.byteSize (x.before ++ as ++ es) := by
    rw [List.append_assoc, Text.byteSize_append x.before, Nat.add_comm]
    rfl
  rw [hpre, hend, Source.slice, hs, Text.slice_append_append, Source.slice, hc,
    Text.slice_append_append]

theorem space_ahead (h : x.Abreast loose s e) :
    (Token.texts s.pending).head? = some ' ' ↔ (Token.texts e.pending).head? = some ' ' := by
  rw [h.sound.head?_texts, h.sound'.head?_texts]
  rcases h.sees_zero.elim with htok | ⟨hnl, heof⟩
  · rw [htok, Token.moved_text]
  · have hp := (h.sound.tag_ahead_zero.resolve_left fun h => by simp [h.1] at hnl).2
    have htext := (h.sound.spelled (t := s.ahead 0) (by rw [hp]; simp)).newline hnl
    have hp' := (h.sound'.tag_ahead_zero.resolve_right fun h => h.1 heof).2
    rw [htext]
    simp [Lexer.ahead, hp', Token.eof]

end Stretch.Abreast

namespace Parse

open Rule

variable {E : Lexer Cursor → Lexer Cursor → Prop} {L : Rule.Loss}

inductive Resumes (x : Stretch) : Nat × Nat → Nat × Nat → Lexer Cursor → Lexer Cursor → Prop
  | within {r : Nat × Nat} {t f : Lexer Cursor} : x.Abreast False t f → f.pending ≠ [] →
      Resumes x r r t f
  | past {r r' : Nat × Nat} {t f : Lexer Cursor} : x.Past t f → x.free ∨ r.1 = 0 →
      Resumes x r r' t f

structure Blanks (x : Stretch) (s e : Lexer Cursor) : Prop where
  near : x.Near s e
  steady : s.Steady
  done : s.LineDone
  steady' : e.Steady
  done' : e.LineDone

theorem ends_blankTurn_nil {F : Fault → Prop} {E : Empty → Lexer Cursor → Prop} {count : Nat}
    (hF : ∀ peeks offset, F (.stalled peeks offset)) (he : e.Sound) (hp : e.pending = []) :
    Ends F (blankTurn ruler count) e (fun turn f => (∃ r, turn = .done r) ∧ e.Skips f) E := by
  apply Ends.seq (ends_indentColumns_nil hF he hp)
  intro columns f hf
  apply Ends.bind
  apply Ends.peekTag (.refl hf.sound) (by decide) (Lexer.spare_of_stalled hF _) (by decide)
  intro g hg _ _
  rw [Lexer.ahead_zero_of_nil (hf.pending_nil hp), if_pos (by simp)]
  exact Ends.pure ⟨⟨_, rfl⟩, hf.looks hg⟩

theorem ends_blankTurn_rear {E : Empty → Lexer Cursor → Prop} {count : Nat} (hs : s.Steady)
    (hd : s.LineDone) (h : x.Rear s) :
    Ends (fun _ => True) (blankTurn ruler count) s (fun turn t => x.Rear t ∧
      turn.Gives (fun r => x.free ∨ r.1 = 0) fun _ => True) E := by
  rcases h with h | h
  · apply (ends_blankTurn count (excused_true ruler) hs hd (s.spare_true 0)).imp
    rintro (r | n) t -
    · exact ⟨.inl h, .inl h⟩
    · exact ⟨.inl h, trivial⟩
  · apply Ends.seq ((ends_indentColumns (excused_true ruler) hs.sound (s.spare_true 0)
      (by decide)).also (ends_indentColumns_behind (E := E) hs.sound h))
    rintro _ t ⟨ht, rfl, hb, -⟩
    apply Ends.bind
    apply Ends.peekTag (.refl ht.sound) (by decide) ht.spare (by decide)
    intro u hu hku _
    have hb := hb.of_looks hu
    split
    · exact Ends.pure ⟨.inr hb, .inr rfl⟩
    · next hnl =>
      have hnl : (t.ahead 0).tag = .newline := by simpa using hnl
      have hp := (ht.sound.tag_ahead_zero.resolve_left fun h => by simp [h.1] at hnl).2
      apply Ends.bind
      apply Ends.paused
      apply Ends.eat (.refl hu.sound.onCursor) hku.onCursor (by decide) (hu.pending.trans hp)
      intro v hv _ _
      have hb := (hb.onCursor (c := .pause true) hb.line).took hv.took hnl
      exact ⟨_, hv.took, by simp [hnl], fun _ =>
        Ends.pure ⟨.inr (hb.onCursor hb.line), trivial⟩⟩

theorem follows_blankTurn {count : Nat} (h : Blanks x s e) :
    Follows L (blankTurn ruler count) (blankTurn ruler count) s e
      (fun turn turn' t f => turn.Both (Resumes x · · t f) (fun n n' => n = n' ∧ x.Near t f)
        (fun _ _ => x.Past t f) turn') E := by
  cases h.near with
  | past hp =>
    apply Follows.weaken
    apply Follows.of_ends ((ends_blankTurn (E := fun _ _ => False) count (excused_true ruler)
        h.steady h.done (s.spare_true 0)).also
        (ends_blankTurn_rear (E := fun _ _ => False) h.steady h.done hp.rear))
      (ends_blankTurn_nil (fun _ _ => id) h.steady'.sound hp.ended)
    rintro turn _ t f ⟨⟨⟨ht, -⟩, -⟩, hrear, hcolumns⟩ ⟨⟨r, rfl⟩, hf⟩
    have hpast := (hp.skips h.steady.sound ht hrear).skips_right hf
    cases turn with
    | done r => exact .done (.past hpast hcolumns)
    | again n => exact .alone hpast
  | within hx hne =>
    apply Follows.seq (follows_indentColumns hx)
    rintro columns _ t f ⟨rfl, hx⟩
    apply Follows.bind
    apply Follows.peekTag (.refl hx.sound) (.refl hx.sound')
    intro u g hu hg _ _
    have hug := hx.looks hu hg
    rcases hx.sees_zero.elim with htok | ⟨hnl, heof⟩
    · rw [htok, Token.moved_tag]
      split
      · refine Follows.pure (.done ?_)
        by_cases hp : g.pending = []
        · exact .past (hug.past hp) (.inl (hug.free hp))
        · exact .within hug hp
      · next hnl =>
        have hnl : (f.ahead 0).tag = .newline := by simpa using hnl
        apply Follows.bind
        apply Follows.paused
        have hpause := hug.onCursor (hug.cursor.pause true)
        have hp := (hx.sound'.tag_ahead_zero.resolve_left fun h => by simp [h.1] at hnl).2
        apply Follows.eat hpause (.refl hpause.sound) (.refl hpause.sound') (hg.pending.trans hp)
        intro v k hv hk _
        exact Follows.pure (.again ⟨rfl, .unpause (hpause.newline hv.took hk.took hnl)⟩)
    · rw [hnl, heof, if_neg (by simp), if_pos (by simp)]
      apply follows_skipNewline hug
      · rw [hu.ahead, hnl]
      · rw [hg.ahead, heof]
      · exact fun v hv => .alone hv

theorem follows_skipBlankLines (h : Blanks x s e) :
    Follows L (skipBlankLines ruler) (skipBlankLines ruler) s e
      (fun r r' t f => Resumes x r r' t f) E := by
  apply Follows.weaken
  apply Follows.loop (fun n n' s e => n = n' ∧ Blanks x s e)
    (fun _ _ s e => x.Past s e ∧ s.Steady ∧ s.LineDone) ⟨rfl, h⟩
  · rintro n _ s e ⟨rfl, h⟩
    apply ((follows_blankTurn h).and
      (ends_blankTurn (E := fun e _ => e.elim) n (excused_true _) h.steady h.done (s.spare_true 0))
      (ends_blankTurn (E := fun e _ => e.elim) n (excused_true _) h.steady' h.done' (e.spare_true 0))).imp
    rintro turn turn' t f ⟨hboth, ⟨⟨hst, ht⟩, -⟩, ⟨hef, hf⟩, -⟩
    have hdone := h.done.skips hst
    cases hboth with
    | done hs => exact .done hs
    | again hn => exact .again ⟨hn.1, hn.2, ht, hdone, hf, h.done'.skips hef⟩
    | alone hp => exact .alone ⟨hp, ht, hdone⟩
  · rintro n r s e ⟨hp, hs, hd⟩
    apply ((ends_blankTurn (E := fun e _ => e.elim) n (excused_true _) hs hd (s.spare_true 0)).also
      (ends_blankTurn_rear (E := fun e _ => e.elim) hs hd hp.rear)).mono
    · rintro turn t ⟨⟨⟨hst, ht⟩, -⟩, hrear, hcolumns⟩
      have hpast := hp.skips hs.sound hst hrear
      refine .inr ?_
      cases turn with
      | done r => exact .past hpast hcolumns
      | again n => exact ⟨hpast, ht, hd.skips hst⟩
    · exact fun e _ _ => e.elim
  · exact fun _ => stays_false
  · exact fun _ h => h.elim
  · exact fun _ _ _ _ _ _ h => h.elim

theorem follows_sourceText {m n : Nat} (hx : x.Abreast loose s e) (hm : e.source.IsBoundary m)
    (hn : e.source.IsBoundary n) (hmn : m ≤ n) :
    Follows L (sourceText (m + x.origin) (n + x.origin)) (sourceText m n) s e
      (fun text text' t f => text = text' ∧ t = s ∧ f = e) E := by
  apply Follows.bind
  apply Follows.get
  exact Follows.pure ⟨hx.slice hm hn hmn, rfl, rfl⟩

theorem follows_columnSpaces {columns : Nat}
    {Q : List Char → List Char → Lexer Cursor → Lexer Cursor → Prop}
    (h : ∀ text, Q text text s e) :
    Follows L (columnSpaces ruler columns) (columnSpaces ruler columns) s e Q E := by
  unfold columnSpaces
  split
  · exact Follows.throw
  · exact Follows.pure (h _)

structure RawLines (x : Stretch) (loose : Prop) (b b' : List Char × Nat) (s e : Lexer Cursor) :
    Prop where
  text : b.1 = b'.1
  start : b.2 = b'.2 + x.origin
  boundary : e.source.IsBoundary b'.2
  inLine : x.InLine loose s e

theorem loses_rawTurn {base : Nat} (lines : List Char × Nat) (h : x.Beyond s) :
    Loses (Lexer.Lost x.cut) (rawTurn ruler base i lines) s := by
  have hp := (h.steady.sound.tag_ahead_zero.resolve_left fun hp => h.ne_nil hp.2).2
  have hlt := (h.steady.sound.spelled (t := s.ahead 0) (by rw [hp]; simp)).start_lt_stop
  have hline := (Tag.isContent_iff.1 h.content).2
  rw [h.steady.sound.start_ahead] at hlt
  apply (ends_rawTurn (E := fun e _ => e.elim) lines (excused_true ruler) (.refl s) h.firm
    (s.spare_true _) (.inl rfl)).mono
  · rintro turn t ⟨⟨-, hfirst⟩, hturn⟩
    have hstop := hfirst _ _ hp fun hnl => by simp [hnl, Tag.endsLine] at hline
    have hsteady : t.Steady := by
      cases turn with
      | done text => exact hturn.1
      | again lines => exact hturn.1.1.toSteady
    exact Stretch.lost h.cut_le hsteady (Nat.lt_of_lt_of_le hlt hstop)
  · exact fun e _ _ => e.elim

theorem ends_rawNext_past {base columns blank : Nat} {text : List Char} (hp : x.Past s e)
    (hcolumns : x.free ∨ columns = 0) (hs : s.Steady)
    (hspace : (s.ahead 0).tag.isInlineSpace = false) (hnl : (s.ahead 0).tag ≠ .newline) :
    Ends (fun _ => True) (rawNext ruler base i text columns blank) s
      (fun turn t => turn = .done text ∧ x.Past t e ∨
        (∃ b, turn = .again b) ∧ x.Beyond t ∧ x.free) fun _ _ => False := by
  apply Ends.bind
  apply Ends.peekTag (.refl hs.sound) (by decide) (s.spare_true 0) (by decide)
  intro t ht _ _
  have hpast := hp.looks hs.sound ht
  split
  · exact Ends.pure (.inl ⟨rfl, hpast⟩)
  · next heof =>
    have hcontent : (s.ahead 0).tag.isContent = true :=
      Tag.isContent_iff.2 ⟨hspace, by simpa [Tag.endsLine] using ⟨hnl, heof⟩⟩
    apply Ends.bind
    apply Ends.setLineIndent
    split
    · refine Ends.pure (.inl ⟨rfl, hpast.cut_le, hpast.ended, hpast.lastEnd, ?_⟩)
      rcases hcolumns with hfree | rfl
      · exact .inl hfree
      · refine hpast.rear.imp id fun hb => hb.onCursor ?_
        rintro _ ⟨⟩
        exact Nat.zero_div _
    · next hdeep =>
      have hfree : x.free := hcolumns.resolve_right fun h => hdeep (by simp [h])
      apply Ends.bind
      apply Ends.setLineIndent
      apply Ends.seq (ends_columnSpaces (.inl trivial))
      rintro spaces _ rfl
      have hline := ((hs.looks ht).onLine (some (columns / ruler.width))).onLine none
      apply Ends.bind
      apply Ends.peek (.refl hline.sound) (by decide) (Lexer.spare_true _ 0) (by decide)
      intro u hu _ _
      refine Ends.pure (.inr ⟨⟨_, rfl⟩, ⟨hline.looks hu, ?_, ?_⟩, hfree⟩)
      · rw [hu.nextOffset_eq hline.sound]
        exact hpast.cut_le
      · rw [hu.ahead, Lexer.ahead_onCursor, Lexer.ahead_onCursor, ht.ahead, hcontent]

theorem ends_rawNext_nil {F : Fault → Prop} {E : Empty → Lexer Cursor → Prop}
    {base columns blank : Nat} {text : List Char}
    (hF : ∀ peeks offset, F (.stalled peeks offset)) (he : e.Sound) (hp : e.pending = []) :
    Ends F (rawNext ruler base i text columns blank) e
      (fun turn f => turn = .done text ∧ e.Looks f) E := by
  apply Ends.bind
  apply Ends.peekTag (.refl he) (by decide) (Lexer.spare_of_stalled hF _) (by decide)
  intro f hf _ _
  rw [if_pos (show (e.ahead 0).tag = .eof from Lexer.ahead_zero_of_nil hp)]
  exact Ends.pure ⟨rfl, hf⟩

theorem follows_rawNext {base : Nat} {text : List Char} {r r' : Nat × Nat}
    (h : Resumes x r r' s e) (hs : s.Steady) (he : e.Steady)
    (hspace : (s.ahead 0).tag.isInlineSpace = false) (hnl : (s.ahead 0).tag ≠ .newline) :
    Follows L (rawNext ruler base i text r.1 r.2) (rawNext ruler base i text r'.1 r'.2) s e
      (fun turn turn' t f => turn.Both (fun a a' => a = a' ∧ x.Near t f)
        (fun b b' => RawLines x loose b b' t f) (fun _ _ => x.Beyond t ∧ x.Over f) turn') E := by
  cases h with
  | past hp hcolumns =>
    apply Follows.weaken
    apply Follows.of_ends (ends_rawNext_past hp hcolumns hs hspace hnl)
      (ends_rawNext_nil (fun _ _ => id) he.sound hp.ended)
    rintro _ _ t f (⟨rfl, ht⟩ | ⟨⟨b, rfl⟩, ht, hfree⟩) ⟨rfl, hf⟩
    · exact .done ⟨rfl, .past (ht.skips_right ((Lexer.Skips.refl he.sound he.unpaused).looks hf))⟩
    · exact .alone ⟨ht, .looks (.of_free hfree he hp.ended) hf⟩
  | within hx hne =>
    obtain ⟨columns, blank⟩ := r
    apply Follows.bind
    apply Follows.peekTag (.refl hx.sound) (.refl hx.sound')
    intro t f ht hf _ _
    have htf := hx.looks ht hf
    have heof : (e.ahead 0).tag ≠ .eof := fun h =>
      hne (hx.sound'.tag_ahead_zero.resolve_right fun h' => h'.1 h).2
    have htok := hx.sees_zero.elim.resolve_right fun h => heof h.2
    rw [htok, Token.moved_tag, if_neg heof]
    rw [htok, Token.moved_tag] at hspace
    apply Follows.bind
    apply Follows.setLineIndent
    have hline := htf.onCursor (htf.cursor.onLine (some (columns / ruler.width)))
    split
    · exact Follows.pure (.done ⟨rfl, hline.near fun _ h => h⟩)
    · apply Follows.bind
      apply Follows.setLineIndent
      have hline := hline.onCursor (hline.cursor.onLine none)
      apply Follows.bind
      apply follows_columnSpaces
      intro spaces
      apply Follows.bind
      apply Follows.peek (.refl hline.sound) (.refl hline.sound')
      intro u g hu hg _ _
      refine Follows.pure (.again ⟨rfl, hline.start, ?_, (hline.looks hu hg).mono False.elim, ?_, ?_⟩)
      · rw [hline.sound'.start_ahead, hg.source]
        exact hline.sound'.isBoundary_nextOffset
      · apply ((((hs.looks ht).onLine _).onLine _).looks hu).firm
        rw [hu.ahead, Lexer.ahead_onCursor, Lexer.ahead_onCursor, ht.ahead, htok, Token.moved_tag,
          hspace]
      · apply ((((he.looks hf).onLine _).onLine _).looks hg).firm
        rw [hg.ahead, Lexer.ahead_onCursor, Lexer.ahead_onCursor, hf.ahead, hspace]

theorem Blanks.of_eats {u g : Lexer Cursor} {nl nl' : Token} (hn : x.Near t f) (hu : u.Steady)
    (hg : g.Steady) (ht : u.Eats nl t) (hf : g.Eats nl' f) (hnl : nl.tag = .newline)
    (hnl' : nl'.tag = .newline) : Blanks x t f where
  near := hn
  steady := (hu.eats_newline ht hnl).1
  done := .inl (hu.eats_newline ht hnl).2
  steady' := (hg.eats_newline hf hnl').1
  done' := .inl (hg.eats_newline hf hnl').2

theorem follows_rawTurn {base : Nat} {b b' : List Char × Nat} (h : RawLines x loose b b' s e) :
    Follows x.loss (rawTurn ruler base i b) (rawTurn ruler base i b') s e
      (fun turn turn' t f => turn.Both (fun a a' => a = a' ∧ x.Near t f)
        (fun b b' => RawLines x loose b b' t f) (fun _ _ => x.Beyond t ∧ x.Over f) turn') E := by
  obtain ⟨text, start'⟩ := b
  obtain ⟨text', start⟩ := b'
  obtain ⟨htext, hstart, hb, hx⟩ := h
  dsimp only at htext hstart hb
  subst htext hstart
  apply Follows.seq hx.follows_eatRest
  rintro _ _ t f ⟨hx, hsrc, hline⟩
  rw [← hsrc] at hb
  apply Follows.bind
  apply Follows.endFrom hx.cursor.lastEnd
  have hstop : f.source.IsBoundary (max f.observer.lastEnd start) := by
    rcases Nat.le_total f.observer.lastEnd start with hle | hle
    · rwa [Nat.max_eq_right hle]
    · rw [Nat.max_eq_left hle]
      exact hx.firm'.boundary
  apply Follows.seq (follows_sourceText hx.toAbreast hb hstop (Nat.le_max_right ..))
  rintro line _ _ _ ⟨rfl, rfl, rfl⟩
  apply Follows.seqLost ((hx.follows_eatNewline hline).and
    (Ends.eatIf (E := fun e _ => e.elim) hx.sound (by decide) (Lexer.spare_true _ 0) (by decide))
    (Ends.eatIf (E := fun e _ => e.elim) hx.sound' (by decide) (Lexer.spare_true _ 0) (by decide)))
  · exact fun r => (advances_rawRest _ _ r).stays
  · exact fun r => (advances_rawRest _ _ r).stays_over
  · rintro r r' u g ⟨⟨hr, hn⟩, hu, hg⟩
    have hnone : r.isNone = r'.isNone := by rw [← Option.not_isSome, ← Option.not_isSome, hr]
    rw [hnone]
    split
    · exact Follows.pure (.done ⟨rfl, hn⟩)
    · next hsome =>
      have hb : Blanks x u g := by
        rcases hu with ⟨rfl, -⟩ | ⟨nl, -, hnl, hu, -⟩
        · simp [← hnone] at hsome
        · rcases hg with ⟨rfl, -⟩ | ⟨nl', -, hnl', hg, -⟩
          · simp at hsome
          · exact .of_eats hn hx.firm.toSteady hx.firm'.toSteady hu hg hnl hnl'
      apply Follows.seq ((follows_skipBlankLines hb).and
        (ends_skipBlankLines (E := fun e _ => e.elim) (excused_true _) hb.steady hb.done (u.spare_true 0))
        (ends_skipBlankLines (E := fun e _ => e.elim) (excused_true _) hb.steady' hb.done' (g.spare_true 0)))
      rintro _ _ v k ⟨hres, ⟨-, hv, hspace, hnl, -⟩, -, hk, -⟩
      exact follows_rawNext hres hv hk hspace hnl

theorem follows_rawLines {base start : Nat} (hx : x.InLine loose s e)
    (hb : e.source.IsBoundary start) :
    Follows x.loss (rawLines ruler base i (start + x.origin))
      (rawLines ruler base i start) s e (fun text text' t f => text = text' ∧ x.Near t f) E := by
  have hlines : RawLines x loose ([], start + x.origin) ([], start) s e := ⟨rfl, rfl, hb, hx⟩
  apply Follows.loop (fun b b' s e => RawLines x loose b b' s e)
    (fun _ _ s e => x.Beyond s ∧ x.Over e) hlines
  · exact fun b b' s e h => follows_rawTurn h
  · exact fun b _ s e h => (loses_rawTurn b h.1).mono (fun _ _ h => .inl h) fun _ _ h => h
  · exact fun b => (advances_rawTurn _ b).stays
  · exact fun _ _ b => (advances_rawTurn _ b).stays_over
  · exact fun _ _ _ _ h _ _ => h.2

theorem follows_rawBlock (hx : x.InLine loose s e) (hline : (e.ahead 0).tag.endsLine = false) :
    Follows x.loss (rawBlock ruler i) (rawBlock ruler i) s e
      (fun b b' t f => b = b'.moved x.origin ∧ x.Near t f) E := by
  apply Follows.bind
  apply Follows.eatNext hx (.refl hx.sound) (.refl hx.sound') hline
  intro t f hx' hf
  have hstop := hf.stop_eq hx.sound'
  have hstart : (if (t.source.fromOffset ((e.ahead 0).moved x.origin).stop).head? = some ' '
      then ((e.ahead 0).moved x.origin).stop + 1 else ((e.ahead 0).moved x.origin).stop) =
      (if (f.source.fromOffset (e.ahead 0).stop).head? = some ' ' then (e.ahead 0).stop + 1
        else (e.ahead 0).stop) + x.origin := by
    rw [Token.moved_stop, hstop, ← hx'.nextOffset, hx'.sound.fromOffset_nextOffset,
      hx'.sound'.fromOffset_nextOffset]
    by_cases hspace : (Token.texts f.pending).head? = some ' '
    · rw [if_pos hspace, if_pos (hx'.space_ahead.2 hspace), hx'.nextOffset]
      omega
    · rw [if_neg hspace, if_neg (mt hx'.space_ahead.1 hspace), hx'.nextOffset]
  obtain ⟨hb, -, -⟩ := text_start hx'.sound' hstop
  apply Follows.bind
  apply Follows.get
  dsimp only
  rw [hstart]
  apply Follows.bind
  apply follows_counted
  apply Follows.seqLost (follows_rawLines hx' hb)
  · exact fun text => (Advances.bind (.endFrom _) fun _ => .bind (.endFrom _) fun _ => .pure _).stays
  · exact fun text =>
      (Advances.bind (.endFrom _) fun _ => .bind (.endFrom _) fun _ => .pure _).stays_over
  · rintro text _ t f ⟨rfl, hn⟩
    apply Follows.bind
    apply Follows.endFrom hn.lastEnd
    apply Follows.bind
    apply Follows.endFrom hn.lastEnd
    exact Follows.pure ⟨rfl, hn⟩

end Parse

end TaskMarkup
