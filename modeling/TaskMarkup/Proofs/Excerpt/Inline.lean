import TaskMarkup.Proofs.Excerpt.Line
import TaskMarkup.Proofs.Excerpt.Moved

namespace TaskMarkup.Parse

open Rule

variable {L : Rule.Loss} {E : Lexer Cursor → Lexer Cursor → Prop} {x : Stretch}
  {loose : Prop} {s t e f : Lexer Cursor} {indent : Nat} {c : InlineContent}

theorem follows_literal (hx : x.InLine loose s e) (hline : (e.ahead 0).tag.endsLine = false) :
    Follows L (literal (c.moved x.origin)) (literal c) s e
      (fun c c' t f => c = c'.moved x.origin ∧ x.InLine loose t f) E := by
  apply Follows.bind
  apply Follows.eatNext hx (.refl hx.sound) (.refl hx.sound') hline
  intro t f hx _
  exact Follows.pure ⟨InlineContent.push_moved .., hx⟩

theorem follows_escape (hx : x.InLine loose s e) (hline : (e.ahead 0).tag.endsLine = false) :
    Follows L (escape (c.moved x.origin)) (escape c) s e
      (fun c c' t f => c = c'.moved x.origin ∧ x.InLine loose t f) E := by
  apply Follows.bind
  apply Follows.eatNext hx (.refl hx.sound) (.refl hx.sound') hline
  intro t f hx _
  apply Follows.bind
  apply Follows.peekTag (.refl hx.sound) (.refl hx.sound')
  intro u g hu hg _ _
  rw [hx.sees_zero.endsLine]
  split
  · exact Follows.pure ⟨InlineContent.push_moved .., hx.looks hu hg⟩
  · next hline =>
    apply Follows.bind
    apply Follows.eatNext hx hu hg (by simpa using hline)
    intro v k hx _
    rw [InlineContent.push_moved]
    exact Follows.pure ⟨InlineContent.push_moved .., hx⟩

theorem follows_eatRun {tok : Token} {n : Nat} (hx : x.InLine loose s e)
    (hn : n ≤ (tok.run e.pending).length) (htok : tok.tag ≠ .newline) :
    Follows L (eatMany n : Parse Unit) (eatMany n : Parse Unit) s e (fun _ _ t f => x.InLine loose t f ∧
      e.Took (e.pending.take n) f ∧ s.Took ((e.pending.take n).map (Token.moved x.origin)) t)
      E := by
  apply Follows.eatMany hx.toAbreast (Nat.le_trans hn (Token.length_run_le ..))
  intro t f ht hf
  refine ⟨hx.took ht hf ?_, hf, ht⟩
  intro u hu hnl
  exact htok ((Token.tag_of_mem_take_run hn u hu).symm.trans hnl)

structure Quoted (x : Stretch) (loose : Prop) (b b' : Nat × Option TextRun)
    (s e : Lexer Cursor) : Prop extends x.InLine loose s e where
  stop : b.1 = b'.1 + x.origin
  run : b.2 = b'.2.map (TextRun.moved x.origin)

theorem Quoted.looks {b b' : Nat × Option TextRun} (h : Quoted x loose b b' s e)
    (ht : s.Looks t) (hf : e.Looks f) : Quoted x loose b b' t f :=
  ⟨h.toInLine.looks ht hf, h.stop, h.run⟩

theorem Quoted.node {b b' : Nat × Option TextRun} (h : Quoted x loose b b' s e) (start : Nat)
    (double : Bool) :
    Inline.raw ⟨start + x.origin, b.1, indent⟩ double (b.2.map (TextRun.toInline indent)).toList =
      (Inline.raw ⟨start, b'.1, indent⟩ double
        (b'.2.map (TextRun.toInline indent)).toList).moved x.origin := by
  rw [h.stop, h.run]
  simp only [TextRun.toList_moved, Inline.moved, Inline.mapSpan, Inline.mapSpans_eq_map]
  rfl

theorem follows_rawMore {b b' : Nat × Option TextRun} (h : Quoted x loose b b' s e)
    (hs : s.Looks t) (he : e.Looks f) (hline : (e.ahead 0).tag.endsLine = false) :
    Follows .none
      (do
        let next ← Rule.eat
        return .again (next.stop, some (TextRun.extend b.2 next next.text)) : Parse (Turn _ _))
      (do
        let next ← Rule.eat
        return .again (next.stop, some (TextRun.extend b'.2 next next.text)) : Parse (Turn _ _))
      t f
      (fun turn turn' t f => turn.Both (Quoted x loose · · t f) (Quoted x loose · · t f)
        (fun _ _ => False) turn') E := by
  apply Follows.bind
  apply Follows.eatNext h.toInLine hs he hline
  intro u g hx _
  refine Follows.pure (.again ⟨hx, Token.moved_stop .., ?_⟩)
  rw [h.run, Token.moved_text, TextRun.extend_moved]
  rfl

theorem follows_rawStep {count : Nat} {b b' : Nat × Option TextRun}
    (h : Quoted x loose b b' s e) :
    Follows .none
      (do
        let next ← peek 0
        if next.tag.endsLine then return .done b
        if next.tag = .backtick then
          if count ≤ (← repeats next) then
            eatMany count
            return .done (next.start + count, b.2)
        let next ← eat
        return .again (next.stop, some (TextRun.extend b.2 next next.text)) :
          Parse (Turn (Nat × Option TextRun) (Nat × Option TextRun)))
      (do
        let next ← peek 0
        if next.tag.endsLine then return .done b'
        if next.tag = .backtick then
          if count ≤ (← repeats next) then
            eatMany count
            return .done (next.start + count, b'.2)
        let next ← eat
        return .again (next.stop, some (TextRun.extend b'.2 next next.text)) :
          Parse (Turn (Nat × Option TextRun) (Nat × Option TextRun)))
      s e
      (fun turn turn' t f => turn.Both (Quoted x loose · · t f) (Quoted x loose · · t f)
        (fun _ _ => False) turn') E := by
  apply Follows.bind
  apply Follows.peek (.refl h.sound) (.refl h.sound')
  intro t f ht hf _ _
  have h' := h.looks ht hf
  rcases h.sees_zero.elim with htok | ⟨hnl, heof⟩
  · rw [htok, Token.moved_tag]
    split
    · exact Follows.pure (.done h')
    · next hline =>
      have hline : (e.ahead 0).tag.endsLine = false := by simpa using hline
      dsimp only
      split
      · next htick =>
        have hnl : (e.ahead 0).tag ≠ .newline := by simp [htick]
        have hchar : (e.ahead 0).tag.char? = some '\x60' := by rw [htick, Tag.char?]
        apply Follows.seq (Follows.repeats h'.toAbreast (hf.pending.trans (h.cons hline)) hchar hnl)
        rintro m _ _ _ ⟨rfl, hm, rfl, rfl⟩
        split
        · next hle =>
          apply Follows.seq (follows_eatRun h'.toInLine (hm ▸ hle) hnl)
          rintro _ _ u g ⟨hx, -, -⟩
          refine Follows.pure (.done ⟨hx, ?_, h.run⟩)
          simp only [Token.moved_start]
          omega
        · exact follows_rawMore h ht hf hline
      · exact follows_rawMore h ht hf hline
  · simp only [hnl, heof, Tag.endsLine]
    exact Follows.pure (.done h')

theorem follows_rawInline (hx : x.InLine loose s e) (htag : (e.ahead 0).tag = .backtick) :
    Follows L (rawInline indent ((e.ahead 0).moved x.origin)) (rawInline indent (e.ahead 0)) s e
      (fun node node' t f => node = node'.moved x.origin ∧ x.InLine loose t f) E := by
  have hchar : (e.ahead 0).tag.char? = some '\x60' := by rw [htag, Tag.char?]
  have hnl : (e.ahead 0).tag ≠ .newline := by simp [htag]
  have hp := hx.cons (by rw [htag]; rfl)
  apply Follows.seq (Follows.repeats hx.toAbreast hp hchar hnl)
  rintro n _ _ _ ⟨rfl, hn, rfl, rfl⟩
  have hone : 1 ≤ n := by
    rw [hn, hp, Token.run_cons_self]
    simp
  generalize hcount : (if 2 ≤ n then 2 else 1) = count
  have hle : count ≤ n := by
    rw [← hcount]
    split
    · assumption
    · exact hone
  apply Follows.seq (follows_eatRun hx (Nat.le_trans hle (Nat.le_of_eq hn)) hnl)
  rintro _ _ t f ⟨hx', -, -⟩
  apply Follows.seq (Follows.loopBoth (Quoted x loose) ⟨hx', ?_, rfl⟩ fun b b' t f => follows_rawStep)
  · exact fun b b' t f h => Follows.pure ⟨h.node _ _, h.toInLine⟩
  · simp only [Token.moved_start]
    omega

theorem follows_linkAhead (hx : x.Abreast loose s e) (hline : (e.ahead 0).tag.endsLine = false) :
    Follows L linkAhead linkAhead s e
      (fun found found' t f => found = found' ∧ s.Looks t ∧ e.Looks f) E := by
  apply Follows.bind
  apply Follows.peekTag (.refl hx.sound) (.refl hx.sound')
  intro t f ht hf _ _
  refine Follows.pure ⟨?_, ht, hf⟩
  exact (hx.sees_one hline).congr
    (fun tag => !(tag.isInlineSpace || tag.endsLine || tag == .rightAngle)) rfl

theorem follows_link (hx : x.InLine loose s e) (hline : (e.ahead 0).tag.endsLine = false) :
    Follows L (link indent) (link indent) s e
      (fun node node' t f => node = node'.moved x.origin ∧ x.InLine loose t f) E := by
  apply Follows.bind
  apply Follows.eatNext hx (.refl hx.sound) (.refl hx.sound') hline
  intro t f hx _
  apply Follows.seq (Follows.readUntil hx)
  rintro target _ t f ⟨rfl, hx⟩
  -- With or without a caption, the closing angle comes next.
  have hrest (caption : Option String) (t f : Lexer Cursor) (hx : x.InLine loose t f) :
      Follows L
        (do
          let _ ← eatIf .rightAngle
          let stop ← endFrom ((e.ahead 0).moved x.origin).start
          return .link ⟨((e.ahead 0).moved x.origin).start, stop, indent⟩
            (String.ofList (Text.trimEnd target)) caption : Parse Inline)
        (do
          let _ ← eatIf .rightAngle
          let stop ← endFrom (e.ahead 0).start
          return .link ⟨(e.ahead 0).start, stop, indent⟩
            (String.ofList (Text.trimEnd target)) caption : Parse Inline) t f
        (fun node node' t f => node = node'.moved x.origin ∧ x.InLine loose t f) E := by
    apply Follows.seq (Follows.eatIf hx rfl)
    rintro _ _ t f ⟨-, hx⟩
    apply Follows.bind
    apply Follows.endFrom hx.cursor.lastEnd
    exact Follows.pure ⟨rfl, hx⟩
  apply Follows.seq (Follows.eatIf hx rfl)
  rintro semi semi' t f ⟨rfl, hx⟩
  rw [Option.isSome_map]
  dsimp only
  split
  · apply Follows.seq (Follows.eatInlineSpace hx)
    rintro _ _ t f ⟨hx, -⟩
    apply Follows.seq (Follows.readUntil hx)
    rintro text _ t f ⟨rfl, hx⟩
    split
    · exact hrest none t f hx
    · exact hrest _ t f hx
  · exact hrest none t f hx

theorem follows_tagAhead (hx : x.Abreast loose s e) (hline : (e.ahead 0).tag.endsLine = false) :
    Follows L tagAhead tagAhead s e (fun found found' t f => found = found' ∧
      (found' = true → (e.ahead 1).tag.endsLine = false) ∧ s.Looks t ∧ e.Looks f) E := by
  apply Follows.bind
  apply Follows.cursor
  rw [hx.cursor.wordStart]
  split
  · apply Follows.bind
    apply Follows.peek (.refl hx.sound) (.refl hx.sound')
    intro t f ht hf _ _
    refine Follows.pure ⟨?_, ?_, ht, hf⟩
    · rcases (hx.sees_one hline).elim with htok | ⟨hnl, heof⟩
      · rw [htok]
        rfl
      · rw [hnl, heof]
        rfl
    · intro h
      simp only [Bool.and_eq_true, Bool.or_eq_true, beq_iff_eq] at h
      rcases h.1 with h | h
      · rw [h]
        rfl
      · rw [h]
        rfl
  · exact Follows.pure ⟨rfl, by simp, .refl hx.sound, .refl hx.sound'⟩

theorem follows_tagRef (hx : x.InLine loose s e) (hline : (e.ahead 0).tag.endsLine = false)
    (hname : (e.ahead 1).tag.endsLine = false) :
    Follows L (tagRef indent) (tagRef indent) s e
      (fun node node' t f => node = node'.moved x.origin ∧ x.InLine loose t f) E := by
  apply Follows.bind
  have hp := hx.cons hline
  apply Follows.eatNext hx (.refl hx.sound) (.refl hx.sound') hline
  intro t f hx hf
  have hnext : f.ahead 0 = e.ahead 1 := by
    have hpf := hf.pending
    rw [hp, List.cons.injEq] at hpf
    rw [Lexer.ahead, ← hpf.2, Lexer.ahead, hf.source, hp]
    rfl
  apply Follows.bind
  apply Follows.eatNext hx (.refl hx.sound) (.refl hx.sound') (by rw [hnext, hname])
  intro t f hx _
  refine Follows.pure ⟨?_, hx⟩
  simp only [Token.moved_start, Token.moved_stop, Token.moved_text]
  rfl

end TaskMarkup.Parse
