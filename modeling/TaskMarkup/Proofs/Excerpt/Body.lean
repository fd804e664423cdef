import TaskMarkup.Proofs.Excerpt.Paragraph
import TaskMarkup.Proofs.Grammar.Block

namespace TaskMarkup

variable {ε ε' : Type} {x : Stretch} {loose : Prop} {s t e f : Lexer Cursor} {i : Nat}

theorem Block.container_moved (origin start stop : Nat) (kind : Container) (bs : List Block) :
    (Block.container ⟨start, stop, i⟩ kind bs).moved origin =
      .container ⟨start + origin, stop + origin, i⟩ kind (bs.map (Block.moved origin)) := by
  rw [moved, mapSpan, mapSpans_moved]
  rfl

namespace Stretch

theorem loses_eatNewline (hs : s.Steady) (hcut : x.cut ≤ s.nextOffset)
    (hnl : (s.ahead 0).tag = .newline) :
    Rule.Loses (Lexer.Lost x.cut) (Rule.eatIf .newline : Rule ε Cursor _) s := by
  have hp := (hs.sound.tag_ahead_zero.resolve_left fun h => by simp [h.1] at hnl).2
  apply Rule.Ends.bind
  apply Rule.Ends.bind
  apply Rule.Ends.peek (.refl hs.sound) (by decide) (s.spare_true 0) (by decide)
  intro t ht _ _
  rw [if_pos hnl]
  apply Rule.Loses.bind (Stretch.loses_eat (hs.looks ht) ?_ ?_)
  · exact fun _ => (Rule.Advances.pure _).stays
  · rwa [ht.nextOffset_eq hs.sound]
  · rw [ht.pending, hp]
    simp

theorem InLine.follows_eatNewline {E : Lexer Cursor → Lexer Cursor → Prop}
    (hx : x.InLine loose s e) (hline : (e.ahead 0).tag.endsLine = true) :
    Rule.Follows x.loss (Rule.eatIf .newline : Rule ε Cursor _)
      (Rule.eatIf .newline : Rule ε' Cursor _) s e
      (fun r r' t f => r.isSome = r'.isSome ∧ x.Near t f) E := by
  rcases hx.sees_zero.elim with htok | ⟨hnl, heof⟩
  · apply Rule.Follows.bind
    apply Rule.Follows.bind
    apply Rule.Follows.peek (.refl hx.sound) (.refl hx.sound')
    intro t f ht hf _ _
    apply Rule.Follows.pure
    rw [htok, Token.moved_tag]
    by_cases hnl : (e.ahead 0).tag = .newline
    · rw [if_pos hnl, if_pos hnl]
      have hp := (hx.sound'.tag_ahead_zero.resolve_left fun h => by simp [h.1] at hnl).2
      apply Rule.Follows.bind
      apply Rule.Follows.eat hx.toAbreast ht hf hp
      exact fun u g hu hg _ => Rule.Follows.pure ⟨rfl, hx.newline hu.took hg.took hnl⟩
    · rw [if_neg hnl, if_neg hnl]
      have heof : (e.ahead 0).tag = .eof := by simpa [Tag.endsLine, hnl] using hline
      have hp := (hx.sound'.tag_ahead_zero.resolve_right fun h => h.1 heof).2
      exact Rule.Follows.pure ⟨rfl, .past ((hx.looks ht hf).past (hf.pending.trans hp))⟩
  · have hp := (hx.sound'.tag_ahead_zero.resolve_right fun h => h.1 heof).2
    exact .of_loses (loses_eatNewline hx.firm.toSteady (hx.cut_le hp) hnl)
      ((Rule.Advances.eatIf _).stays_over _ (.of_free (hx.free hp) hx.firm'.toSteady hp))

theorem InLine.follows_eatRest {L : Rule.Loss} {E : Lexer Cursor → Lexer Cursor → Prop}
    (hx : x.InLine loose s e) :
    Rule.Follows L (Rule.eatUntil (·.tag == .newline) : Rule ε Cursor _)
      (Rule.eatUntil (·.tag == .newline) : Rule ε' Cursor _) s e
      (fun _ _ t f => x.InLine loose t f ∧ f.source = e.source ∧ (f.ahead 0).tag.endsLine = true)
      E := by
  apply Rule.Follows.eatUntil hx.toAbreast (fun t u h => by rw [h]) (fun t h => by simp [h])
  intro t f hline ht hf
  refine ⟨hx.took ht hf hline, hf.source, ?_⟩
  by_cases hp : f.pending = []
  · rw [Lexer.ahead_zero_of_nil hp]
    rfl
  · have hnl : (f.ahead 0).tag = .newline := by simpa using hf.ahead_of_takeWhile hp
    rw [hnl]
    rfl

theorem InLine.follows_eatLine {E : Lexer Cursor → Lexer Cursor → Prop}
    (hx : x.InLine loose s e) :
    Rule.Follows x.loss (Rule.eatLine : Rule ε Cursor _)
      (Rule.eatLine : Rule ε' Cursor _) s e (fun _ _ t f => x.Near t f) E := by
  apply Rule.Follows.seq hx.follows_eatRest
  rintro _ _ t f ⟨hx, -, hline⟩
  apply Rule.Follows.seqLost (hx.follows_eatNewline hline)
  · exact fun _ => (Rule.Advances.pure _).stays
  · exact fun _ => (Rule.Advances.pure _).stays_over
  · exact fun _ _ _ _ h => Rule.Follows.pure h.2

end Stretch

namespace Parse

open Rule

variable {E : Lexer Cursor → Lexer Cursor → Prop} {L : Rule.Loss} {start : Nat}
  {body : Nat → Parse (List Block)}

theorem follows_endCovering {bs : List Block} {Q : Nat → Nat → Lexer Cursor → Lexer Cursor → Prop}
    (hl : max s.observer.lastEnd x.origin = e.observer.lastEnd + x.origin)
    (h : ∀ stop, Q (stop + x.origin) stop s e) :
    Follows L (endCovering (start + x.origin) (bs.map (.moved x.origin))) (endCovering start bs) s e
      Q E := by
  apply Follows.bind
  apply Follows.endFrom hl
  apply Follows.pure
  rw [foldl_max_moved Block.stop _ Block.stop_moved]
  exact h _

theorem follows_enterBody (hx : x.InLine loose s e) :
    Follows L (enterBody i) (enterBody i) s e (fun _ _ t f => x.Near t f) E := by
  apply Follows.seq (Follows.eatInlineSpace hx)
  rintro _ _ t f ⟨hx, -⟩
  apply Follows.bind
  apply Follows.peekTag (.refl hx.sound) (.refl hx.sound')
  intro u g hu hg _ _
  rw [hx.sees_zero.endsLine]
  have hx := hx.toAbreast.looks hu hg
  exact Follows.setLineIndent ((hx.onCursor (hx.cursor.onLine _)).near fun _ h => h)

/-- What is known of the rule for bodies: they are read in order, and alike by both. A sequence of
blocks without indentation goes on with whatever follows. -/
structure Nested (body : Nat → Parse (List Block)) : Prop where
  ends : ∀ ruler, Bodied (fun _ => True) ruler body
  advances : ∀ i, Advances (body i)
  follows : ∀ (E : Lexer Cursor → Lexer Cursor → Prop) (i : Nat) (x : Stretch) (s e : Lexer Cursor),
    Between x i s e → x.free ∨ i ≠ 0 → Follows x.loss (body i) (body i) s e
      (fun bs bs' t f => bs = bs'.map (.moved x.origin) ∧ x.Near t f) E

theorem follows_bodied {kind : Container} (hbody : Nested body) (hx : x.InLine loose s e)
    (hs : s.observer.lastEnd = s.nextOffset) (he : e.observer.lastEnd = e.nextOffset) :
    Follows x.loss (bodied body i (start + x.origin) kind) (bodied body i start kind) s e
      (fun b b' t f => b = b'.moved x.origin ∧ x.Near t f) E := by
  apply Follows.seq ((follows_enterBody hx).and
    (ends_enterBody (E := fun e _ => e.elim) hx.firm hs (s.spare_true _))
    (ends_enterBody (E := fun e _ => e.elim) hx.firm' he (e.spare_true _)))
  rintro _ _ t f ⟨hn, ⟨-, ht, -, htr⟩, -, hf, -, hfr⟩
  apply Follows.seqLost (hbody.follows E (i + 1) x t f ⟨hn, ht, hf, htr, hfr⟩ (.inr (by omega)))
  · exact fun _ => (Advances.bind (advances_endCovering _ _) fun _ => .pure _).stays
  · exact fun _ => (Advances.bind (advances_endCovering _ _) fun _ => .pure _).stays_over
  · rintro _ bs t f ⟨rfl, hn⟩
    apply Follows.bind
    apply follows_endCovering hn.lastEnd
    exact fun stop => Follows.pure ⟨(Block.container_moved ..).symm, hn⟩

theorem follows_nextTurn {α α' : Type} {level : Level} {continues : Marker → Bool} {a : α} {a' : α'}
    (h : Between x (i + 1) s e)
    (hstop : x.free ∨ i ≠ 0 ∨ ∀ f, nextTurn level i continues a' e = .ok (.done a') f →
      ∀ t, x.Meets t → continues (announced level.room t) = false) :
    Follows L (nextTurn level i continues a) (nextTurn level i continues a') s e
      (fun turn turn' t f => turn.Both (fun b b' => (b = a ∧ b' = a') ∧ x.Near t f)
        (fun b b' => (b = a ∧ b' = a') ∧ x.InLine False t f)
        (fun _ b' => b' = a' ∧ x.Beyond t ∧ x.Over f) turn') E := by
  apply Follows.seq (follows_lineStart h).self
  rintro r r' t f ⟨⟨hlines, ⟨ht, hfound⟩, hf, hfound'⟩, hline'⟩
  cases hlines with
  | within hx hne =>
    dsimp only
    split
    · exact Follows.pure (.done ⟨⟨rfl, rfl⟩, .within hx hne⟩)
    · apply Follows.seq (follows_dispatch hx)
      rintro marker _ u g ⟨rfl, hu, hg⟩
      have hug := hx.looks hu hg
      apply Follows.pure
      split
      · cases hfound with
        | line _ hcontent _ _ =>
        cases hfound' with
        | line _ hcontent' _ _ =>
        refine .again ⟨⟨rfl, rfl⟩, hug, (ht.looks hu).firm ?_, (hf.looks hg).firm ?_⟩
        · rw [hu.ahead, (Tag.isContent_iff.1 hcontent).1]
        · rw [hg.ahead, (Tag.isContent_iff.1 hcontent').1]
      · exact .done ⟨⟨rfl, rfl⟩, hug.near fun _ h => h⟩
  | past hp =>
    cases hfound with
    | ended => exact Follows.pure (.done ⟨⟨rfl, rfl⟩, .past hp⟩)
    | @line m _ hm hcontent _ _ =>
      dsimp only
      split
      · exact Follows.pure (.done ⟨⟨rfl, rfl⟩, .past hp⟩)
      · next hmi =>
        have hdispatch : Ends (fun _ => True)
            (do return if continues (← dispatch level.room) then .again a else .done a :
              Parse (Turn α α)) t
            (fun turn u => (continues (announced level.room t) = true ∧ turn = .again a ∨
              turn = .done a) ∧ t.Looks u) fun _ _ => False := by
          apply Ends.seq (ends_announced ht.sound (t.spare_true 0) (by decide))
          rintro _ u ⟨hu, -, rfl⟩
          refine Ends.pure ⟨?_, hu⟩
          split
          · next hc => exact .inl ⟨hc, rfl⟩
          · exact .inr rfl
        apply Follows.weaken
        have hdone : Ends Fault.IsInternal (pure (.done a') : Parse (Turn α' α')) f
            (fun turn' g => turn' = .done a' ∧ g = f) fun _ _ => False := Ends.pure ⟨rfl, rfl⟩
        apply Follows.of_ends hdispatch hdone
        rintro _ _ u g ⟨⟨hc, rfl⟩ | rfl, hu⟩ ⟨rfl, rfl⟩
        · have hfree : x.free := by
            rcases hp.rear with hfree | hb
            · exact hfree
            · have hm := hb.line m hm
              have hmi : m = i := by simpa using hmi
              rcases hstop with hfree | hi | hstop
              · exact hfree
              · omega
              · have hdone : nextTurn level i continues a' e = .ok (.done a') g := by
                  rw [nextTurn, bind_of_ok hline']
                  rfl
                simp [hstop g hdone t ⟨hb.skipped, hcontent⟩] at hc
          refine .alone ⟨rfl, ⟨ht.looks hu, ?_, ?_⟩, .of_free hfree hf hp.ended⟩
          · rw [hu.nextOffset_eq ht.sound]
            exact hp.cut_le
          · rw [hu.ahead, hcontent]
        · exact .done ⟨⟨rfl, rfl⟩, .past (hp.looks ht.sound hu)⟩

end Parse

end TaskMarkup
