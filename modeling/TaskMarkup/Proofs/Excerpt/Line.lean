import TaskMarkup.Proofs.Excerpt.Reading

namespace TaskMarkup.Parse

open Rule Rule.Follows

variable {L : Rule.Loss} {E : Lexer Cursor → Lexer Cursor → Prop} {x : Stretch}
  {loose : Prop} {s t e f : Lexer Cursor} {ruler : Ruler}

theorem follows_counted {operation : Arithmetic} {columns : Nat}
    {Q : Nat → Nat → Lexer Cursor → Lexer Cursor → Prop} (h : Q columns columns s e) :
    Follows L (counted ruler operation columns) (counted ruler operation columns) s e Q E := by
  unfold counted
  split
  · exact Follows.throw
  · exact Follows.pure h

theorem follows_indentColumns (hx : x.Abreast loose s e) :
    Follows L (indentColumns ruler) (indentColumns ruler) s e
      (fun n n' t f => n = n' ∧ x.Abreast loose t f) E := by
  apply Follows.paused
  apply Follows.loopBoth fun n n' t f => n = n' ∧ x.Abreast loose t f
  · exact ⟨rfl, hx.onCursor (hx.cursor.pause true)⟩
  · rintro columns _ s e ⟨rfl, hx⟩
    apply Follows.bind
    apply Follows.peek (.refl hx.sound) (.refl hx.sound')
    intro t f ht hf _ _
    have hdone := hx.looks ht hf
    rcases hx.sees_zero.elim with htok | ⟨hnl, heof⟩
    · rw [htok, Token.moved_tag, Token.moved_size]
      split
      · next htag =>
        apply Follows.bind
        apply follows_counted
        apply Follows.bind
        apply Follows.eatAhead hx ht hf (by rw [htag]; rfl)
        intro u g hu _ _
        exact Follows.pure (.again ⟨rfl, hu⟩)
      · next htag =>
        apply Follows.bind
        apply follows_counted
        apply Follows.bind
        apply follows_counted
        apply Follows.bind
        apply Follows.eatAhead hx ht hf (by rw [htag]; rfl)
        intro u g hu _ _
        exact Follows.pure (.again ⟨rfl, hu⟩)
      · exact Follows.pure (.done ⟨rfl, hdone.onCursor (hdone.cursor.pause false)⟩)
    · rw [hnl, heof]
      exact Follows.pure (.done ⟨rfl, hdone.onCursor (hdone.cursor.pause false)⟩)

theorem follows_measureIndent (hx : x.Abreast loose s e) :
    Follows L (measureIndent ruler) (measureIndent ruler) s e
      (fun n n' t f => n = n' ∧ x.Abreast loose t f) E := by
  apply Follows.seq (follows_indentColumns hx)
  rintro n _ t f ⟨rfl, hx⟩
  exact Follows.pure ⟨rfl, hx⟩

theorem ends_indentColumns_nil {F : Fault → Prop} {E : Empty → Lexer Cursor → Prop}
    (hF : ∀ peeks offset, F (.stalled peeks offset)) (he : e.Sound) (hp : e.pending = []) :
    Ends F (indentColumns ruler) e (fun _ f => e.Skips f) E := by
  apply Ends.paused
  apply Ends.loop (fun _ f => f = e.onCursor (.pause true)) he.onCursor rfl
  rintro columns _ rfl
  apply Ends.bind
  apply Ends.peek (.refl he.onCursor) (by decide) (Lexer.spare_of_stalled hF _) (by decide)
  intro f hf _ _
  have htag : ((e.onCursor (.pause true)).ahead 0).tag = .eof := Lexer.ahead_zero_of_nil hp
  rw [htag]
  exact Ends.pure ⟨[], hf.took, by simp, id⟩

theorem ends_measureIndent_nil {F : Fault → Prop} {E : Empty → Lexer Cursor → Prop}
    (hF : ∀ peeks offset, F (.stalled peeks offset)) (he : e.Sound) (hp : e.pending = []) :
    Ends F (measureIndent ruler) e (fun _ f => e.Skips f) E :=
  Ends.seq (ends_indentColumns_nil hF he hp) fun _ _ hskip => Ends.pure hskip

theorem ends_lineTurn_nil {F : Fault → Prop} {E : Empty → Lexer Cursor → Prop} {i : Nat}
    (hF : ∀ peeks offset, F (.stalled peeks offset)) (he : e.Steady) (hp : e.pending = [])
    (hi : Rests (fun _ => True) i e) :
    Ends F (lineTurn ruler) e (fun turn f => turn = .done none ∧ e.Skips f) E := by
  have hrefl : e.Skips e := .refl he.sound he.unpaused
  apply Ends.bind
  apply Ends.get
  split
  · exact Ends.pure ⟨rfl, hrefl⟩
  · next hatEof =>
    apply Ends.bind
    apply Ends.cursor
    have hline : e.observer.lineIndent = none := by
      cases hi with
      | found h =>
        cases h with
        | ended _ h _ => exact absurd h hatEof
        | line _ hc _ _ =>
          rw [Tag.isContent_iff, Lexer.ahead_zero_of_nil hp] at hc
          simp [Tag.endsLine] at hc
      | fresh h _ _ => exact h
    rw [hline]
    apply Ends.seq (ends_measureIndent_nil hF he.sound hp)
    intro _ f hf
    have hpf := hf.pending_nil hp
    apply Ends.bind
    apply Ends.peekTag (.refl hf.sound) (by decide) (Lexer.spare_of_stalled hF _) (by decide)
    intro g hg _ _
    rw [Lexer.ahead_zero_of_nil hpf]
    exact Ends.pure ⟨rfl, hf.looks hg⟩

theorem ends_indentColumns_behind {E : Empty → Lexer Cursor → Prop} (hs : s.Sound)
    (h : x.Behind s) :
    Ends (fun _ => True) (indentColumns ruler) s
      (fun n t => n = 0 ∧ x.Behind t ∧ t.pending = s.pending) E := by
  apply (ends_indentColumns (excused_true ruler) hs (s.spare_true 0) (by decide)).imp
  intro n t ht
  obtain ⟨ws, hp, hws, rfl⟩ := ht.blank
  obtain rfl : ws = [] := by
    cases ws with
    | nil => rfl
    | cons w ws =>
      have hplain := h.plain
      rw [hp] at hplain
      have hspace := hws w (by simp)
      rw [hplain.isInlineSpace_eq_false] at hspace
      simp at hspace
  rw [List.nil_append] at hp
  refine ⟨rfl, ⟨by rw [← hp]; exact h.skipped, by rw [← hp]; exact h.plain, ?_⟩, hp.symm⟩
  rw [ht.lineIndent]
  exact h.line

theorem ends_measureIndent_behind {E : Empty → Lexer Cursor → Prop} (hs : s.Sound)
    (h : x.Behind s) :
    Ends (fun _ => True) (measureIndent ruler) s
      (fun m t => m = 0 ∧ x.Behind t ∧ t.pending = s.pending) E := by
  apply Ends.seq (ends_indentColumns_behind hs h)
  rintro _ t ⟨rfl, ht⟩
  exact Ends.pure ⟨Nat.zero_div _, ht⟩

theorem ends_lineTurn_behind {E : Empty → Lexer Cursor → Prop} (hs : s.Sound) (h : x.Behind s) :
    Ends (fun _ => True) (lineTurn ruler) s (fun _ t => x.Behind t) E := by
  apply Ends.bind
  apply Ends.get
  split
  · exact Ends.pure h
  · apply Ends.bind
    apply Ends.cursor
    split
    · exact Ends.pure h
    · apply Ends.seq ((ends_measureIndent (excused_true ruler) hs (s.spare_true 0)
        (by decide)).also (ends_measureIndent_behind (E := E) hs h))
      rintro _ t ⟨⟨n, -, ht⟩, rfl, hb, -⟩
      apply Ends.bind
      apply Ends.peekTag (.refl ht.sound) (by decide) ht.spare (by decide)
      intro u hu hku _
      split
      · exact Ends.pure (hb.of_looks hu)
      · next hnl =>
        have hp := (ht.sound.tag_ahead_zero.resolve_left fun h => by simp [h.1] at hnl).2
        apply Ends.bind
        apply Ends.paused
        apply Ends.eat (.refl hu.sound.onCursor) hku.onCursor (by decide) (hu.pending.trans hp)
        intro v hv _ _
        have hb := ((hb.of_looks hu).onCursor (c := .pause true) (hb.of_looks hu).line).took
          hv.took hnl
        exact ⟨_, hv.took, by simp [hnl], fun _ => Ends.pure (hb.onCursor hb.line)⟩
      · apply Ends.bind
        apply Ends.setLineIndent
        refine Ends.pure ((hb.of_looks hu).onCursor ?_)
        rintro _ ⟨⟩
        rfl

theorem ends_lineTurn_rear {E : Empty → Lexer Cursor → Prop} {i : Nat} (hs : s.Steady) (hi : Rests (fun _ => True) i s)
    (h : x.Rear s) :
    Ends (fun _ => True) (lineTurn ruler) s (fun _ t => x.Rear t) E := by
  rcases h with h | h
  · exact (ends_lineTurn (excused_true ruler) hs hi).imp fun _ _ _ => .inl h
  · exact (ends_lineTurn_behind hs.sound h).imp fun _ _ h => .inr h

/-- The next line that both found, or that is none of the stretch. -/
inductive Lines (x : Stretch) : Option Nat → Option Nat → Lexer Cursor → Lexer Cursor → Prop
  | within {m : Nat} {t f : Lexer Cursor} : x.Abreast False t f → f.pending ≠ [] →
      Lines x (some m) (some m) t f
  | past {r : Option Nat} {t f : Lexer Cursor} : x.Past t f → Lines x r none t f

structure Between (x : Stretch) (i : Nat) (s e : Lexer Cursor) : Prop where
  near : x.Near s e
  steady : s.Steady
  steady' : e.Steady
  rests : Rests (fun _ => True) i s
  rests' : Rests (fun _ => True) i e

theorem follows_skipNewline {α α' : Type} {r : α} {r' : α'}
    {Q : α → α' → Lexer Cursor → Lexer Cursor → Prop} (hx : x.Abreast loose s e)
    (hnl : (s.ahead 0).tag = .newline) (heof : (e.ahead 0).tag = .eof)
    (h : ∀ t, x.Past t e → Q r r' t e) :
    Follows L (do let _ ← paused eat; return r : Parse α) (return r' : Parse α') s e Q E := by
  have hpe := (hx.sound'.tag_ahead_zero.resolve_right fun h => h.1 heof).2
  have hpast := hx.past hpe
  have hp := (hx.sound.tag_ahead_zero.resolve_left fun h => by simp [h.1] at hnl).2
  have hskip : Ends (fun _ => True) (do let _ ← paused eat; return r : Parse α) s
      (fun a t => a = r ∧ s.Skips t) fun _ _ => False := by
    apply Ends.bind
    apply Ends.paused
    apply Ends.eat (.refl hx.sound.onCursor) (Lexer.spare_true _ 0) (by decide) hp
    exact fun t ht _ _ => ⟨_, ht.took, by simp [hnl], fun hskip => Ends.pure ⟨rfl, hskip⟩⟩
  have hdone : Ends Fault.IsInternal (return r' : Parse α') e
      (fun a f => a = r' ∧ f = e) fun _ _ => False := Ends.pure ⟨rfl, rfl⟩
  apply Follows.weaken
  apply Follows.of_ends hskip hdone
  rintro _ _ t _ ⟨rfl, ht⟩ ⟨rfl, rfl⟩
  exact h t (hpast.skips hx.sound ht (.inl (hx.free hpe)))

theorem follows_lineTurn {i : Nat} (h : Between x i s e) :
    Follows L (lineTurn ruler) (lineTurn ruler) s e
      (fun turn turn' t f => turn.Both (Lines x · · t f) (fun _ _ => x.Near t f)
        (fun _ r => r = none ∧ x.Past t f) turn') E := by
  cases h.near with
  | past hp =>
    have hskips : Ends (fun _ => True) (lineTurn ruler) s (fun _ t => s.Skips t ∧ x.Rear t)
        fun _ _ => False :=
      ((ends_lineTurn (E := fun _ _ => False) (excused_true ruler) h.steady h.rests).also
        (ends_lineTurn_rear (E := fun _ _ => False) h.steady h.rests hp.rear)).imp
          fun _ _ ht => ⟨ht.1.1.1, ht.2⟩
    apply Follows.weaken
    apply Follows.of_ends hskips
      (ends_lineTurn_nil (fun _ _ => id) h.steady' hp.ended h.rests')
    rintro turn _ t f ⟨ht, hrear⟩ ⟨rfl, hf⟩
    have hpast := (hp.skips h.steady.sound ht hrear).skips_right hf
    cases turn with
    | done r => exact .done (.past hpast)
    | again => exact .alone ⟨rfl, hpast⟩
  | within hx hne =>
    have hne' : s.pending ≠ [] := by
      rw [hx.pending]
      simp [hne]
    apply Follows.bind
    apply Follows.get
    rw [if_neg fun he => hne' (hx.sound.pending_of_atEof he),
      if_neg fun he => hne (hx.sound'.pending_of_atEof he)]
    apply Follows.bind
    apply Follows.cursor
    rw [hx.cursor.lineIndent.resolve_left id]
    split
    · exact Follows.pure (.done (.within hx hne))
    · apply Follows.seq (follows_measureIndent hx)
      rintro m _ t f ⟨rfl, hx⟩
      apply Follows.bind
      apply Follows.peekTag (.refl hx.sound) (.refl hx.sound')
      intro u g hu hg _ _
      have hug := hx.looks hu hg
      rcases hx.sees_zero.elim with htok | ⟨hnl, heof⟩
      · rw [htok, Token.moved_tag]
        split
        · next heof =>
          refine Follows.pure (.done (.past (hug.past ?_)))
          have hp := (hx.sound'.tag_ahead_zero.resolve_right fun h => h.1 heof).2
          rw [hg.pending, hp]
        · next hnl =>
          apply Follows.bind
          apply Follows.paused
          have hpause := hug.onCursor (hug.cursor.pause true)
          have hp := (hx.sound'.tag_ahead_zero.resolve_left fun h => by simp [h.1] at hnl).2
          apply Follows.eat hpause (.refl hpause.sound) (.refl hpause.sound')
            (hg.pending.trans hp)
          intro v k hv hk _
          exact Follows.pure (.again (.unpause (hpause.newline hv.took hk.took hnl)))
        · next heof hnl =>
          apply Follows.bind
          apply Follows.setLineIndent
          refine Follows.pure (.done (.within (hug.onCursor (hug.cursor.onLine _)) ?_))
          rw [Lexer.pending_onCursor, hg.pending,
            hx.cons (by simpa [Tag.endsLine] using ⟨hnl, heof⟩)]
          simp
      · rw [hnl, heof]
        apply follows_skipNewline hug
        · rw [hu.ahead, hnl]
        · rw [hg.ahead, heof]
        · exact fun v hv => .alone ⟨rfl, hv⟩

theorem follows_lineStart {i : Nat} (h : Between x i s e) :
    Follows L (lineStart ruler) (lineStart ruler) s e
      (fun r r' t f => Lines x r r' t f ∧ (t.Steady ∧ Found (fun _ => True) i r t) ∧
        f.Steady ∧ Found (fun _ => True) i r' f) E := by
  apply Follows.weaken
  apply Follows.loop (fun _ _ s e => Between x i s e) (fun _ r s e => (r = none ∧ x.Past s e) ∧
    (s.Steady ∧ Rests (fun _ => True) i s) ∧ e.Steady ∧ Found (fun _ => True) i r e) h
  · intro _ _ s e h
    apply ((follows_lineTurn h).and (ends_lineTurn (E := fun e _ => e.elim) (excused_true _) h.steady h.rests)
      (ends_lineTurn (E := fun e _ => e.elim) (excused_true _) h.steady' h.rests')).imp
    rintro turn turn' t f ⟨hboth, ⟨⟨-, ht⟩, htg⟩, ⟨-, hf⟩, hfg⟩
    cases hboth with
    | done hl => exact .done ⟨hl, ⟨ht, htg⟩, hf, hfg⟩
    | again hn => exact .again ⟨hn, ht, hf, htg.1, hfg.1⟩
    | alone hp => exact .alone ⟨hp, ⟨ht, htg.1⟩, hf, hfg⟩
  · rintro _ r s e ⟨⟨rfl, hp⟩, ⟨hs, hi⟩, he⟩
    apply ((ends_lineTurn (E := fun e _ => e.elim) (excused_true _) hs hi).also
      (ends_lineTurn_rear (E := fun e _ => e.elim) hs hi hp.rear)).mono
    · rintro turn t ⟨⟨⟨hst, ht⟩, htg⟩, hrear⟩
      refine .inr ?_
      have hpast := hp.skips hs.sound hst hrear
      cases turn with
      | done r => exact ⟨.past hpast, ⟨ht, htg⟩, he⟩
      | again => exact ⟨⟨rfl, hpast⟩, ⟨ht, htg.1⟩, he⟩
    · exact fun e _ _ => e.elim
  · exact fun _ => stays_false
  · exact fun _ h => h.elim
  · exact fun _ _ _ _ _ _ h => h.elim

theorem follows_classify (hx : x.Abreast loose s e) :
    Follows L classify classify s e (fun m m' t f => m = m' ∧ s.Looks t ∧ e.Looks f) E := by
  apply Follows.bind
  apply Follows.peek (.refl hx.sound) (.refl hx.sound')
  intro t f ht hf _ _
  rcases hx.sees_zero.elim with htok | ⟨hnl, heof⟩
  · rw [htok, Token.moved_tag]
    have hrep {tag : Tag} {c : Char} {next : Nat → Parse Marker} (htag : (e.ahead 0).tag = tag)
        (hc : tag.char? = some c) (hline : tag.endsLine = false)
        (h : ∀ n, n = ((e.ahead 0).run e.pending).length → Follows L (next n) (next n) t f
          (fun m m' t f => m = m' ∧ s.Looks t ∧ e.Looks f) E) :
        Follows L (Rule.repeats ((e.ahead 0).moved x.origin) >>= next)
          (Rule.repeats (e.ahead 0) >>= next) t f
          (fun m m' t f => m = m' ∧ s.Looks t ∧ e.Looks f) E := by
      subst htag
      apply Follows.seq (Follows.repeats (hx.looks ht hf) (hf.pending.trans (hx.cons hline)) hc ?_)
      · rintro n _ _ _ ⟨rfl, hn, rfl, rfl⟩
        rw [hf.pending] at hn
        exact h n hn
      · intro hnl
        simp [hnl, Tag.endsLine] at hline
    split
    · next htag =>
      apply hrep htag rfl rfl
      intro n hn
      split
      · apply Follows.bind
        apply Follows.peekTag ht hf
        intro u g hu hg _ _
        have hsees : Token.Sees x.origin (s.ahead n) (e.ahead n) := by
          apply hx.sees
          intro i hi
          rw [Lexer.tag_ahead_run (hn ▸ hi), htag]
          rfl
        rw [hsees.isInlineSpace]
        split
        · exact Follows.pure ⟨rfl, hu, hg⟩
        · exact Follows.pure ⟨rfl, hu, hg⟩
      · exact Follows.pure ⟨rfl, ht, hf⟩
    · next htag =>
      apply hrep htag rfl rfl
      intro n _
      exact Follows.pure ⟨rfl, ht, hf⟩
    · next htag =>
      apply hrep htag rfl rfl
      intro n _
      split
      · apply Follows.bind
        apply Follows.peekTag ht hf
        intro u g hu hg _ _
        have hsees := hx.sees_one (by rw [htag]; rfl)
        rw [hsees.congr Tag.endsMarker rfl]
        split
        · exact Follows.pure ⟨rfl, hu, hg⟩
        · exact Follows.pure ⟨rfl, hu, hg⟩
      · exact Follows.pure ⟨rfl, ht, hf⟩
    · exact Follows.pure ⟨rfl, ht, hf⟩
    · next htag =>
      apply hrep htag rfl rfl
      intro n _
      exact Follows.pure ⟨rfl, ht, hf⟩
    · exact Follows.pure ⟨rfl, ht, hf⟩
    · next htag =>
      apply Follows.bind
      apply Follows.peekTag ht hf
      intro u g hu hg _ _
      have hsees := hx.sees_one (by rw [htag]; rfl)
      have hiff : (s.ahead 1).tag = .dot ↔ (e.ahead 1).tag = .dot := hsees.tag_iff rfl
      simp only [hiff]
      split
      · next hdot =>
        apply Follows.bind
        apply Follows.peekTag hu hg
        intro v k hv hk _ _
        have hsees : Token.Sees x.origin (s.ahead 2) (e.ahead 2) := by
          apply hx.sees
          intro i hi
          obtain rfl | rfl : i = 0 ∨ i = 1 := by omega
          · rw [htag]
            rfl
          · rw [hdot]
            rfl
        rw [hsees.congr Tag.endsMarker rfl, Token.moved_value?]
        split
        · exact Follows.pure ⟨rfl, hv, hk⟩
        · exact Follows.pure ⟨rfl, hv, hk⟩
      · exact Follows.pure ⟨rfl, hu, hg⟩
    · exact Follows.pure ⟨rfl, ht, hf⟩
  · rw [hnl, heof]
    exact Follows.pure ⟨rfl, ht, hf⟩

theorem follows_dispatch {room : Nat} (hx : x.Abreast loose s e) :
    Follows L (dispatch room) (dispatch room) s e
      (fun m m' t f => m = m' ∧ s.Looks t ∧ e.Looks f) E := by
  apply Follows.seq (follows_classify hx)
  rintro m _ t f ⟨rfl, h⟩
  exact Follows.pure ⟨rfl, h⟩

theorem announced_moved {room k : Nat} (h : t.pending = s.pending.map (Token.moved k)) :
    announced room t = announced room s := by
  have htag (n : Nat) : (t.ahead n).tag = (s.ahead n).tag := by
    simp only [Lexer.ahead, h, List.getD_eq_getElem?_getD, List.getElem?_map]
    cases s.pending[n]? <;> rfl
  have hvalue : (t.ahead 0).value? = (s.ahead 0).value? := by
    simp only [Lexer.ahead, h, List.getD_eq_getElem?_getD, List.getElem?_map]
    cases s.pending[0]? <;> rfl
  have hrun : ((t.ahead 0).run t.pending).length = ((s.ahead 0).run s.pending).length := by
    rw [Token.run, Token.run, h, List.takeWhile_map, List.length_map, htag]
    rfl
  have hclassified : classified t = classified s := by
    simp only [classified, htag, hvalue, hrun]
  simp only [announced, hclassified]

end TaskMarkup.Parse
