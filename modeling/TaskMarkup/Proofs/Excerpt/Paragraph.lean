import TaskMarkup.Proofs.Excerpt.Inline
import TaskMarkup.Proofs.Grammar.Paragraph

/-!
Paragraphs, read abreast. Behind the stretch the text may go on with the paragraph, with the line of
a style or with what closes one; what it makes of that gets lost, or it ends as the stretch does.
-/

namespace TaskMarkup.Parse

open Rule

variable {L : Rule.Loss} {E : Lexer Cursor → Lexer Cursor → Prop} {x : Stretch}
  {loose : Prop} {s t e f : Lexer Cursor} {p : ParagraphContext} {n : Nat} {stops : List Style}
  {style : Style} {c : InlineContent}

inductive Continued (x : Stretch) :
    Option Token → Option Token → Lexer Cursor → Lexer Cursor → Prop
  | ended {t f : Lexer Cursor} : x.Near t f → Continued x none none t f
  | goes {nl : Token} {t f : Lexer Cursor} : x.InLine False t f →
      Continued x (some (nl.moved x.origin)) (some nl) t f
  | beyond {nl : Token} {t f : Lexer Cursor} : x.Beyond t → x.Over f →
      Continued x (some nl) none t f

theorem ends_continueParagraph_nil {F : Fault → Prop} {E : Empty → Lexer Cursor → Prop}
    {nl : Token} (hF : ∀ peeks offset, F (.stalled peeks offset)) (he : e.Firm)
    (hp : e.pending = [nl]) :
    Ends F (continueParagraph p) e (fun r f => r = none ∧ f.Placed ∧ f.pending = [] ∧
      f.source = e.source ∧ f.observer.lastEnd = nl.stop ∧ f.nextOffset = nl.stop) E := by
  apply Ends.bind
  apply Ends.eat (.refl he.sound) (Lexer.spare_of_stalled hF _) (by decide) hp
  intro f hf hpf _
  have hlast : f.observer.lastEnd = nl.stop := by
    rw [hf.took.lastEnd_eq he.sound he.unpaused (by simp), hf.stop_eq he.sound]
  apply Ends.seq (ends_measureIndent_nil hF hf.sound hpf)
  intro _ g hg
  have hpg := hg.pending_nil hpf
  apply Ends.bind
  apply Ends.peekTag (.refl hg.sound) (by decide) (Lexer.spare_of_stalled hF _) (by decide)
  intro k hk _ _
  rw [Lexer.ahead_zero_of_nil hpg]
  have hsrc : k.source = e.source := by rw [hk.source, hg.source, hf.source]
  have hlast : k.observer.lastEnd = nl.stop := by rw [hk.observer, hg.lastEnd, hlast]
  have hpk := hk.pending.trans hpg
  have hpe : e.pending = [] ++ nl :: k.pending := by rw [hp, hpk]; rfl
  have hstop := Lexer.stop_of_pending he.sound hk.sound hsrc hpe
  exact Ends.pure ⟨rfl, ⟨hk.sound, by rw [hlast, hstop]⟩, hpk, hsrc, hlast, hstop.symm⟩

theorem ends_continueParagraph_behind {E : Empty → Lexer Cursor → Prop} {nl : Token}
    (hplain : Token.Plain x.rest) (hs : s.Sound) (hp : s.pending = nl :: x.rest)
    (hnl : nl.tag = .newline) :
    Ends (fun _ => True) (continueParagraph p) s (fun r t => x.Behind t ∧
      (r = none ∨ x.rest.head?.map Token.tag ≠ some .newline)) E := by
  apply Ends.bind
  apply Ends.eat (.refl hs) (s.spare_true 0) (by decide) hp
  intro t ht hpt _
  have hb : x.Behind t := .of_rest hplain ht.took hnl hpt
  apply Ends.seq ((ends_measureIndent (excused_true p.level.ruler) ht.sound (t.spare_true 0)
    (by decide)).also (ends_measureIndent_behind (E := E) ht.sound hb))
  rintro _ u ⟨⟨n, -, hu⟩, rfl, hb, hpu⟩
  apply Ends.bind
  apply Ends.peekTag (.refl hu.sound) (by decide) hu.spare (by decide)
  intro v hv _ _
  split
  · exact Ends.pure ⟨hb.of_looks hv, .inl rfl⟩
  · next hline =>
    have hhead : x.rest.head?.map Token.tag ≠ some .newline := by
      intro hhead
      rw [← hpt, ← hpu] at hhead
      obtain ⟨tok, hfirst, htag⟩ := Option.map_eq_some_iff.1 hhead
      obtain ⟨toks, hcons⟩ := List.head?_eq_some_iff.1 hfirst
      rw [Lexer.ahead_zero_of_cons hcons, htag] at hline
      exact hline rfl
    have hb : x.Behind (v.onCursor (.onLine (some 0))) :=
      (hb.of_looks hv).onCursor (by rintro _ ⟨⟩; rfl)
    apply Ends.bind
    apply Ends.setLineIndent
    split
    · exact Ends.pure ⟨hb, .inl rfl⟩
    · apply Ends.seq (ends_dispatch hv.sound.onCursor (Lexer.spare_true _ 0) (by decide))
      rintro marker w ⟨hw, -⟩
      split
      · exact Ends.pure ⟨hb.of_looks hw, .inr hhead⟩
      · exact Ends.pure ⟨hb.of_looks hw, .inl rfl⟩

theorem follows_continueParagraph (hx : x.InLine loose s e)
    (htag : (e.ahead 0).tag = .newline) :
    Follows L (continueParagraph p) (continueParagraph p) s e
      (fun r r' t f => Continued x r r' t f) E := by
  have hp := (hx.sound'.tag_ahead_zero.resolve_left fun h => by simp [h.1] at htag).2
  generalize e.ahead 0 = nl, e.pending.tail = ts at hp htag
  have hps : s.pending = nl.moved x.origin :: (ts.map (Token.moved x.origin) ++ x.rest) := by
    rw [hx.pending, hp]
    rfl
  have hends := ends_continueParagraph (E := fun e _ => e.elim) (p := p) (k := 0)
    (excused_true _) hx.firm hps htag (s.spare_true 0) (by decide)
  by_cases hts : ts = []
  · subst hts
    have hrear : Ends (fun _ => True) (continueParagraph p) s (fun r t => x.Rear t ∧
        (r = none ∨ x.free ∨ x.rest.head?.map Token.tag ≠ some .newline)) fun e _ => e.elim := by
      rcases x.plain with hfree | hplain
      · exact hends.imp fun _ _ _ => ⟨.inl hfree, .inr (.inl hfree)⟩
      · exact (ends_continueParagraph_behind hplain hx.sound hps htag).imp fun _ _ h =>
          ⟨.inr h.1, h.2.imp id .inr⟩
    apply Follows.weaken
    apply Follows.of_ends ((hends.also hrear).mono (fun _ _ h => h) fun e _ _ => e.elim)
      (ends_continueParagraph_nil (fun _ _ => id) hx.firm' hp)
    rintro r _ t f ⟨⟨ht, -⟩, hrear, hfull⟩ ⟨rfl, hf, hpf, hsrc, hlast, hnext⟩
    have hcut : nl.stop + x.origin = x.cut := by
      rw [← hnext]
      exact Stretch.cut_eq hf.sound (by rw [hsrc, hx.source']) hpf
    have hstop := ht.stop
    rw [Token.moved_stop] at hstop
    have hle := ht.firm.lastEnd_le
    cases r with
    | none => exact .ended (.past ⟨by omega, hpf, by omega, hrear⟩)
    | some nl' =>
      refine .beyond ⟨ht.firm.toSteady, by omega, (ht.eaten nl' rfl).2⟩ ⟨hf, hpf, ?_⟩
      exact (hfull.resolve_left (by simp)).imp id fun h => ⟨h, by omega⟩
  · have hends' := ends_continueParagraph (E := fun e _ => e.elim) (p := p) (k := 0)
      (excused_true _) hx.firm' hp htag (e.spare_true 0) (by decide)
    have hboth : Follows L (continueParagraph p) (continueParagraph p) s e
        (fun r r' t f => r = none ∧ r' = none ∧ x.Near t f ∨
          r = some (nl.moved x.origin) ∧ r' = some nl ∧ x.Abreast False t f) E := by
      apply Follows.bind
      apply Follows.eat hx.toAbreast (.refl hx.sound) (.refl hx.sound') hp
      intro t f ht hf hpf
      have hx : x.Abreast False t f := by
        cases hx.newline ht.took hf.took htag with
        | within h _ => exact h
        | past h => exact absurd (hpf.symm.trans h.ended) hts
      apply Follows.seq (follows_measureIndent hx)
      rintro measured _ t f ⟨rfl, hx⟩
      apply Follows.bind
      apply Follows.peekTag (.refl hx.sound) (.refl hx.sound')
      intro u g hu hg _ _
      have hx' := hx.looks hu hg
      rw [hx.sees_zero.endsLine]
      split
      · exact Follows.pure (.inl ⟨rfl, rfl, hx'.near fun _ h => h⟩)
      · apply Follows.bind
        apply Follows.setLineIndent
        have hx' := hx'.onCursor (hx'.cursor.onLine (some measured))
        split
        · exact Follows.pure (.inl ⟨rfl, rfl, hx'.near fun _ h => h⟩)
        · apply Follows.seq (follows_dispatch hx')
          rintro marker _ v k ⟨rfl, hv, hk⟩
          have hx' := hx'.looks hv hk
          split
          · exact Follows.pure (.inr ⟨rfl, rfl, hx'⟩)
          · exact Follows.pure (.inl ⟨rfl, rfl, hx'.near fun _ h => h⟩)
    apply (hboth.and hends hends').imp
    rintro r r' t f ⟨⟨rfl, rfl, hn⟩ | ⟨rfl, rfl, hx⟩, ⟨ht, -⟩, hf, -⟩
    · exact .ended hn
    · exact .goes ⟨hx, ht.firm, hf.firm⟩

/-- How the loops for the same span end, one for the text and one for the stretch. Where `rel`
holds of what they have collected, they end alike, or at the end of the stretch. Else the text is at
a delimiter beyond it. -/
inductive Halts (x : Stretch) (p : ParagraphContext) (loose inside rel : Prop) :
    InlineStop → InlineStop → Lexer Cursor → Lexer Cursor → Prop
  | stopped {ending : InlineStop} {t f : Lexer Cursor} : inside → ending ≠ .over → rel →
      x.InLine loose t f → Halts x p loose inside rel ending ending t f
  | idle {t f : Lexer Cursor} : rel → x.InLine loose t f → (p.mode = .block → f.pending = []) →
      Halts x p loose inside rel .over .over t f
  | ended {t f : Lexer Cursor} : p.mode = .block → rel → x.Near t f →
      Halts x p loose inside rel .over .over t f
  | lineEnd {t f : Lexer Cursor} : inside → rel → x.InLine loose t f → f.pending = [] →
      Halts x p loose inside rel .lineEnd .over t f
  | doomed {ending : InlineStop} {t f : Lexer Cursor} : inside → ending ≠ .over →
      p.mode = .block → x.Beyond t → x.Over f → Halts x p loose inside rel ending .over t f

structure Inlined (x : Stretch) (p : ParagraphContext) (loose : Prop) (stops : List Style)
    (r r' : List Inline × InlineStop) (t f : Lexer Cursor) : Prop where
  halts : Halts x p loose (stops ≠ []) (r.1 = r'.1.map (.moved x.origin)) r.2 r'.2 t f
  closes : r'.2 = .close → ∃ style, stops.head? = some style ∧ Delimits style f

/-- The loop for the stretch is over, that for the text takes another turn. -/
structure Waiting (x : Stretch) (p : ParagraphContext) (loose : Prop) (c : InlineContent)
    (r' : List Inline × InlineStop) (s e : Lexer Cursor) : Prop where
  over' : r'.2 = .over
  waits : c.flush p.indent = r'.1.map (.moved x.origin) ∧ x.InLine loose s e ∧ e.pending = [] ∨
    p.mode = .block ∧ x.Beyond s ∧ x.Over e

theorem Waiting.over {r' : List Inline × InlineStop} (h : Waiting x p loose c r' s e) : x.Over e := by
  rcases h.waits with ⟨-, hx, hp⟩ | ⟨-, -, he⟩
  · exact .of_free (hx.free hp) hx.firm'.toSteady hp
  · exact he

section

variable {inner : List Style → Parse (List Inline × InlineStop)}

theorem ends_inlineTurn_nil {F : Fault → Prop} {E : Empty → Lexer Cursor → Prop}
    (hF : ∀ peeks offset, F (.stalled peeks offset)) (he : e.Sound) (hp : e.pending = []) :
    Ends F (inlineTurn p stops inner c) e
      (fun turn f => turn = .done (c.flush p.indent, .over) ∧ e.Looks f) E := by
  apply Ends.bind
  apply Ends.peek (.refl he) (by decide) (Lexer.spare_of_stalled hF _) (by decide)
  intro f hf _ _
  dsimp only
  rw [Lexer.ahead_zero_of_nil hp]
  exact Ends.pure ⟨rfl, hf⟩

theorem ends_inlineTurn_over (hx : x.InLine loose s e) (hp : e.pending = []) :
    Ends (fun _ => True) (inlineTurn p stops inner c) s
      (fun turn t => t.Lost x.cut ∨ s.Looks t ∧ ∃ ending, turn = .done (c.flush p.indent, ending) ∧
        (ending = .over ∨ ending = .lineEnd ∧ stops ≠ [])) fun _ t => t.Lost x.cut := by
  apply Ends.bind
  apply Ends.peek (.refl hx.sound) (by decide) (s.spare_true 0) (by decide)
  intro t ht _ _
  dsimp only
  have htag : (s.ahead 0).tag = .eof ∨ (s.ahead 0).tag = .newline := by
    rcases hx.sees_zero.elim with htok | ⟨hnl, -⟩
    · rw [htok]
      exact .inl (Lexer.ahead_zero_of_nil hp)
    · exact .inr hnl
  rcases htag with htag | htag
  · rw [htag]
    exact Ends.pure (.inr ⟨ht, _, rfl, .inl rfl⟩)
  · rw [htag]
    dsimp only
    split
    · next hany =>
      refine Ends.pure (.inr ⟨ht, _, rfl, .inr ⟨rfl, ?_⟩⟩)
      rintro rfl
      simp at hany
    · split
      · exact Ends.pure (.inr ⟨ht, _, rfl, .inl rfl⟩)
      · have hps := (hx.sound.tag_ahead_zero.resolve_left fun h => by simp [h.1] at htag).2
        have hspell := hx.sound.spelled (t := s.ahead 0) (by rw [hps]; simp)
        have hlt := hspell.start_lt_stop
        rw [hx.sound.start_ahead] at hlt
        apply Ends.bind
        apply (ends_continueParagraph (E := fun e _ => e.elim) (excused_true _) (hx.firm.looks ht)
          (ht.pending.trans hps) htag (t.spare_true 0) (by decide)).mono
        · rintro r u ⟨hu, -⟩
          have hlost : u.Lost x.cut := by
            apply Stretch.lost (hx.cut_le hp) hu.firm.toSteady
            rwa [← hu.stop]
          cases r with
          | none => exact Ends.pure (.inl hlost)
          | some newline => exact Ends.pure (.inl hlost)
        · exact fun e _ _ => e.elim

theorem cases_beyond (hadv : ∀ stops, Advances (inner stops)) (hs : x.Beyond s)
    (hmode : p.mode = .block) :
    InlineCases (fun _ => True) (fun _ t => t.Lost x.cut) p stops inner c 0 s fun turn t =>
      t.Lost x.cut ∨ s.Looks t ∧ ∃ nodes ending, turn = .done (nodes, ending) ∧
        ending ≠ .over ∧ stops ≠ [] where
  halt ht _ _ hhalts := by
    have hcontent := Tag.isContent_iff.1 (hs.looks ht).content
    cases hhalts with
    | eof htag | line htag _ => simp [htag, Tag.endsLine] at hcontent
    | bar _ hcell => simp [hmode] at hcell
  stop ht _ hstops hover _ := .inr ⟨ht, _, _, rfl, hover, hstops⟩
  line ht _ hp htag _ _ := by
    have hcontent := Tag.isContent_iff.1 (hs.looks ht).content
    simp [Lexer.ahead_zero_of_cons hp, htag, Tag.endsLine] at hcontent
  literal ht _ _ _ _ :=
    ((hs.looks ht).loses_eat.bind fun _ => (Advances.pure _).stays).either
  escape ht _ _ _ := by
    apply Loses.either
    apply (hs.looks ht).loses_eat.bind
    intro backslash
    apply Advances.stays
    apply Advances.bind (.peekTag 0)
    intro tag
    split
    · exact .pure _
    · exact .bind .eat fun _ => .pure _
  styled {_ _ style _} ht _ _ _ _ _ := by
    apply Loses.either
    apply Ends.bind
    apply Ends.peek (.refl ht.sound) (by decide) (Lexer.spare_true _ 0) (by decide)
    intro u hu _ _
    apply (((hs.looks ht).looks hu).loses_eatMany style.length_pos).bind
    intro _
    apply Advances.stays
    exact .bind (.endFrom _) fun _ => .bind (hadv _) (advances_closing _ _)
  raw ht hk hp htag :=
    (ends_rawInline (hs.looks ht).firm hp htag hk (by decide)).imp
      fun _ _ hu => .inl ((hs.looks ht).lost hu.1.toReads)
  link ht hk hp htag :=
    (ends_link (hs.looks ht).firm hp htag hk (by decide)).imp
      fun _ _ hu => .inl ((hs.looks ht).lost hu.1.toReads)
  tagRef ht _ _ _ _ _ :=
    ((hs.looks ht).loses_eat.bind fun _ => (Advances.bind .eat fun _ => .pure _).stays).either

theorem ends_inlineTurn_waiting {r' : List Inline × InlineStop}
    (hadv : ∀ stops, Advances (inner stops)) (h : Waiting x p loose c r' s e) :
    Ends (fun _ => True) (inlineTurn p stops inner c) s
      (fun turn t => t.Lost x.cut ∨ turn.Gives (fun r => Inlined x p loose stops r r' t e)
        fun c => Waiting x p loose c r' t e) fun _ t => t.Lost x.cut := by
  obtain ⟨hover, h⟩ := h
  rcases h with ⟨hflush, hx, hp⟩ | ⟨hmode, hb, he⟩
  · apply (ends_inlineTurn_over hx hp).mono
    · rintro turn t (hlost | ⟨ht, ending, rfl, hending⟩)
      · exact .inl hlost
      · refine .inr ⟨?_, by simp [hover]⟩
        have hxt := hx.looks ht (.refl hx.sound')
        rw [hover]
        rcases hending with rfl | ⟨rfl, hne⟩
        · exact .idle hflush hxt fun _ => hp
        · exact .lineEnd hne hflush hxt hp
    · exact fun e _ _ => e.elim
  · apply (ends_inlineTurn_of_cases hb.steady.sound (s.spare_true 0) (by decide)
      (cases_beyond hadv hb hmode)).mono
    · rintro turn t (hlost | ⟨ht, nodes, ending, rfl, hending, hne⟩)
      · exact .inl hlost
      · refine .inr ⟨?_, by simp [hover]⟩
        rw [hover]
        exact .doomed hne hending hmode (hb.looks ht) he
    · exact fun e _ _ => e.elim

theorem follows_styled {inner : Parse (List Inline × InlineStop)} (hx : x.InLine loose s e)
    (hd : Delimits style e)
    (hinner : ∀ t f, x.InLine loose t f → Follows x.loss inner inner t f
      (fun r r' t f => Inlined x p loose (style :: stops) r r' t f) E) :
    Follows x.loss (styled p.indent style inner) (styled p.indent style inner) s e
      (fun r r' t f => Halts x p loose True (r.1 = r'.1.moved x.origin) r.2 r'.2 t f) E := by
  obtain ⟨tok, rest, hp, htag, hle⟩ := id hd
  have hnl : tok.tag ≠ .newline := by
    rw [htag]
    exact style.exists_char.2
  apply Follows.bind
  apply Follows.peek (.refl hx.sound) (.refl hx.sound')
  intro t f ht hf _ _
  rw [hx.start]
  have hx := hx.looks ht hf
  rw [← hf.pending] at hle
  apply Follows.seq (follows_eatRun hx hle hnl)
  rintro _ _ t f ⟨hx, -, -⟩
  apply Follows.bind
  apply Follows.endFrom hx.cursor.lastEnd
  apply Follows.seqLost (hinner t f hx)
  · exact fun r => (advances_closing _ _ r).stays
  · exact fun r => (advances_closing _ _ r).stays_over
  · rintro ⟨children, ending⟩ ⟨children', ending'⟩ t f ⟨hhalts, hcloses⟩
    dsimp only at hhalts hcloses ⊢
    cases hhalts with
    | stopped _ hne hrel hx =>
      subst hrel
      split
      · next hclose =>
        obtain ⟨style', hhead, tok, rest, hp, htag, hle⟩ := hcloses hclose
        obtain rfl : style = style' := by simpa using hhead
        apply Follows.seq (follows_eatRun hx hle (by rw [htag]; exact style.exists_char.2))
        rintro _ _ u g ⟨hx', hg, hu⟩
        have hpos : (f.pending.take style.length) ≠ [] := by
          have := style.length_pos
          simp only [hp, ne_eq, List.take_eq_nil_iff, reduceCtorEq, or_false]
          omega
        apply Follows.bind
        apply Follows.cursor
        refine Follows.pure (.stopped trivial hne ?_ hx')
        have hlast : u.observer.lastEnd = g.observer.lastEnd + x.origin := by
          rw [hu.lastEnd_eq hx.sound hx.firm.unpaused (by simpa using hpos),
            hg.lastEnd_eq hx.sound' hx.firm'.unpaused hpos, hx'.nextOffset]
        rw [Inline.styled_moved, hlast]
      · refine Follows.pure (.stopped trivial hne ?_ hx)
        rw [Inline.styled_moved, Inline.lastStop_moved]
    | idle hrel hx hp =>
      subst hrel
      refine Follows.pure (.idle ?_ hx hp)
      rw [Inline.styled_moved, Inline.lastStop_moved]
    | ended hmode hrel hn =>
      subst hrel
      refine Follows.pure (.ended hmode ?_ hn)
      rw [Inline.styled_moved, Inline.lastStop_moved]
    | lineEnd _ hrel hx hp =>
      subst hrel
      refine Follows.pure (.lineEnd trivial ?_ hx hp)
      rw [Inline.styled_moved, Inline.lastStop_moved]
    | doomed _ hne hmode hb hf =>
      split
      · refine Follows.of_loses ?_ (Ends.pure hf)
        apply (hb.loses_eatMany style.length_pos).bind
        intro _
        exact (Advances.bind .cursor fun _ => .pure _).stays
      · exact Follows.pure (.doomed trivial hne hmode hb hf)

def Paired (x : Stretch) (p : ParagraphContext) (loose : Prop) (stops : List Style)
    (turn turn' : Turn (List Inline × InlineStop) InlineContent) (s e : Lexer Cursor) : Prop :=
  turn.Both (fun r r' => Inlined x p loose stops r r' s e)
    (fun c c' => c = c'.moved x.origin ∧ x.InLine loose s e)
    (fun c r' => Waiting x p loose c r' s e) turn'

namespace Paired

theorem idle (hx : x.InLine loose s e) (hmode : p.mode = .block → e.pending = []) :
    Paired x p loose stops (.done ((c.moved x.origin).flush p.indent, .over))
      (.done (c.flush p.indent, .over)) s e :=
  .done ⟨.idle InlineContent.flush_moved hx hmode, by simp⟩

theorem stopped {ending : InlineStop} (hx : x.InLine loose s e) (hne : stops ≠ [])
    (hending : ending ≠ .over)
    (hcloses : ending = .close → ∃ style, stops.head? = some style ∧ Delimits style e) :
    Paired x p loose stops (.done ((c.moved x.origin).flush p.indent, ending))
      (.done (c.flush p.indent, ending)) s e :=
  .done ⟨.stopped hne hending InlineContent.flush_moved hx, hcloses⟩

theorem add {node node' : Inline} (hnode : node = node'.moved x.origin)
    (hx : x.InLine loose s e) :
    Paired x p loose stops (.again ((c.moved x.origin).add p.indent node))
      (.again (c.add p.indent node')) s e := by
  subst hnode
  exact .again ⟨InlineContent.add_moved _, hx⟩

theorem line {r r' : Option Token} (hmode : p.mode = .block) (h : Continued x r r' s e) :
    Paired x p loose stops
      (r.elim (.done ((c.moved x.origin).flush p.indent, .over)) fun nl =>
        .again ((c.moved x.origin).push nl ['\n']))
      (r'.elim (.done (c.flush p.indent, .over)) fun nl => .again (c.push nl ['\n'])) s e := by
  cases h with
  | ended hn => exact .done ⟨.ended hmode InlineContent.flush_moved hn, by simp⟩
  | goes hx => exact .again ⟨InlineContent.push_moved _ _, hx.mono False.elim⟩
  | beyond hb he => exact .alone ⟨rfl, .inr ⟨hmode, hb, he⟩⟩

theorem styled {node node' : Inline} {ending ending' : InlineStop}
    (h : Halts x p loose True (node = node'.moved x.origin) ending ending' s e) :
    Paired x p loose stops
      (if ending = .over then .done (((c.moved x.origin).add p.indent node).nodes, .over)
        else .again ((c.moved x.origin).add p.indent node))
      (if ending' = .over then .done ((c.add p.indent node').nodes, .over)
        else .again (c.add p.indent node')) s e := by
  cases h with
  | stopped _ hne hrel hx =>
    rw [if_neg hne, if_neg hne]
    exact add hrel hx
  | idle hrel hx hp =>
    refine .done ⟨.idle ?_ hx hp, by simp⟩
    rw [hrel, InlineContent.add_moved]
    rfl
  | ended hmode hrel hn =>
    refine .done ⟨.ended hmode ?_ hn, by simp⟩
    rw [hrel, InlineContent.add_moved]
    rfl
  | lineEnd _ hrel hx hp =>
    refine .alone ⟨rfl, .inl ⟨?_, hx, hp⟩⟩
    rw [hrel, InlineContent.add_moved, InlineContent.flush_moved, InlineContent.flush_add]
    rfl
  | doomed _ hne hmode hb he =>
    rw [if_neg hne]
    exact .alone ⟨rfl, .inr ⟨hmode, hb, he⟩⟩

end Paired

theorem follows_literalTurn (hx : x.InLine loose s e) (hline : (e.ahead 0).tag.endsLine = false) :
    Follows x.loss (do return .again (← literal (c.moved x.origin)) : Parse (Turn _ _))
      (do return .again (← literal c) : Parse (Turn _ _)) s e (Paired x p loose stops) E := by
  apply Follows.seq (follows_literal hx hline)
  exact fun _ _ _ _ h => Follows.pure (.again h)

theorem follows_delimiters {tok : Token} {rest : List Token}
    (hinner : ∀ style t f, x.InLine loose t f →
      Follows x.loss (inner (style :: stops)) (inner (style :: stops)) t f
        (fun r r' t f => Inlined x p loose (style :: stops) r r' t f) E)
    (hx : x.InLine loose s e) (hp : e.pending = tok :: rest)
    (hmark : tok.tag = .asterisk ∨ tok.tag = .tilde ∨ tok.tag = .caret) :
    Follows x.loss
      (do
        match Style.choose stops tok.tag (← repeats (tok.moved x.origin)) with
        | none => return .again (← literal (c.moved x.origin))
        | some style =>
          if stops.head? = some style then
            return .done ((c.moved x.origin).flush p.indent, .close)
          else if style ∈ stops then
            return .done ((c.moved x.origin).flush p.indent, .interrupt)
          else
            let (node, ending) ← styled p.indent style (inner (style :: stops))
            let c := (c.moved x.origin).add p.indent node
            return if ending = .over then .done (c.nodes, .over) else .again c)
      (do
        match Style.choose stops tok.tag (← repeats tok) with
        | none => return .again (← literal c)
        | some style =>
          if stops.head? = some style then return .done (c.flush p.indent, .close)
          else if style ∈ stops then return .done (c.flush p.indent, .interrupt)
          else
            let (node, ending) ← styled p.indent style (inner (style :: stops))
            let c := c.add p.indent node
            return if ending = .over then .done (c.nodes, .over) else .again c)
      s e (Paired x p loose stops) E := by
  obtain ⟨c', hchar⟩ : ∃ c', tok.tag.char? = some c' := by
    rcases hmark with htag | htag | htag <;> exact ⟨_, by rw [htag, Tag.char?]⟩
  have hline : tok.tag.endsLine = false := by
    rcases hmark with htag | htag | htag <;> rw [htag] <;> rfl
  have hnl : tok.tag ≠ .newline := by
    rintro htag
    simp [htag, Tag.endsLine] at hline
  apply Follows.seq (Follows.repeats hx.toAbreast hp hchar hnl)
  rintro run _ u g ⟨rfl, hrun, hu, hg⟩
  rw [hu, hg]
  split
  · exact follows_literalTurn hx (by rw [Lexer.ahead_zero_of_cons hp, hline])
  · next style hchoose =>
    obtain ⟨hstyle, hle⟩ := Style.choose_spec hchoose
    have hd : Delimits style e := ⟨tok, _, hp, hstyle.symm, hrun ▸ hle⟩
    split
    · next hhead =>
      refine Follows.pure (.stopped hx ?_ (by simp) fun _ => ⟨style, hhead, hd⟩)
      rintro rfl
      simp at hhead
    · split
      · next hmem =>
        exact Follows.pure (.stopped hx (List.ne_nil_of_mem hmem) (by simp) (by simp))
      · apply Follows.seqLost (follows_styled hx hd (hinner style))
        · exact fun _ => (Advances.pure _).stays
        · exact fun _ => (Advances.pure _).stays_over
        · exact fun _ _ _ _ h => Follows.pure (.styled h)

theorem follows_inlineTurn_nil (hx : x.InLine loose s e) (hp : e.pending = []) :
    Follows x.loss (inlineTurn p stops inner (c.moved x.origin)) (inlineTurn p stops inner c) s e
      (Paired x p loose stops) E := by
  apply Follows.of_ends_or ((ends_inlineTurn_over hx hp).mono (fun _ _ h => h) fun e _ _ => e.elim)
    (ends_inlineTurn_nil (fun _ _ => id) hx.sound' hp)
  · rintro _ _ t f ⟨ht, ending, rfl, hending⟩ ⟨rfl, hf⟩
    have hxt := hx.looks ht hf
    have hpf := hf.pending.trans hp
    rcases hending with rfl | ⟨rfl, hne⟩
    · exact .idle hxt fun _ => hpf
    · exact .done ⟨.lineEnd hne InlineContent.flush_moved hxt hpf, by simp⟩
  · have hover : x.Over e := .of_free (hx.free hp) hx.firm'.toSteady hp
    exact (ends_inlineTurn_nil (E := fun _ f => x.Over f) (fun _ _ => trivial) hx.sound' hp).mono
      (fun _ f hf => hover.looks hf.2) fun e _ _ => e.elim

theorem follows_inlineTurn
    (hinner : ∀ style t f, x.InLine loose t f →
      Follows x.loss (inner (style :: stops)) (inner (style :: stops)) t f
        (fun r r' t f => Inlined x p loose (style :: stops) r r' t f) E)
    (hx : x.InLine loose s e) :
    Follows x.loss (inlineTurn p stops inner (c.moved x.origin)) (inlineTurn p stops inner c) s e
      (Paired x p loose stops) E := by
  by_cases hp : e.pending = []
  · exact follows_inlineTurn_nil hx hp
  apply Follows.bind
  apply Follows.peek (.refl hx.sound) (.refl hx.sound')
  intro t f ht hf _ _
  have hp' := (hx.sound'.tag_ahead_zero.resolve_left fun h => hp h.2).2
  have htok : s.ahead 0 = (e.ahead 0).moved x.origin := by
    rcases hx.sees_zero.elim with htok | ⟨-, heof⟩
    · exact htok
    · exact absurd (hx.sound'.tag_ahead_zero.resolve_right fun h => h.1 heof).2 hp
  have hpf := hf.pending.trans hp'
  have hahead := hf.ahead 0
  have hx := hx.looks ht hf
  rw [htok]
  generalize e.ahead 0 = tok at hp' hpf hahead ⊢
  have hne : tok.tag ≠ .eof := (hx.sound'.spelled (by rw [hpf]; simp)).tag_ne_eof
  rw [Token.moved_tag]
  dsimp only
  split
  · next htag => exact absurd htag hne
  · next htag =>
    split
    · next hany =>
      refine Follows.pure (.stopped hx ?_ (by simp) (by simp))
      rintro rfl
      simp at hany
    · split
      · next hmode => exact Follows.pure (.idle hx fun h => absurd h hmode)
      · next hmode =>
        apply Follows.seq (follows_continueParagraph hx (by rw [hahead, htag]))
        intro r r' u g h
        have hmode : p.mode = .block := by simpa using hmode
        cases r <;> cases r' <;> exact Follows.pure (Paired.line hmode h)
  · next htag =>
    split
    · next hmode => exact Follows.pure (.idle hx fun h => by simp [hmode] at h)
    · exact follows_literalTurn hx (by rw [hahead, htag]; rfl)
  · next htag =>
    apply Follows.seq (follows_escape hx (by rw [hahead, htag]; rfl))
    exact fun _ _ _ _ h => Follows.pure (.again h)
  case h_5 htag | h_6 htag | h_7 htag => exact follows_delimiters hinner hx hpf (by simp [htag])
  case h_8 htag =>
    rw [← hahead]
    apply Follows.seq (follows_rawInline hx (by rw [hahead, htag]))
    exact fun _ _ _ _ h => Follows.pure (.add h.1 h.2)
  case h_9 htag =>
    have hline : (f.ahead 0).tag.endsLine = false := by
      rw [hahead, htag]
      rfl
    apply Follows.seq (follows_linkAhead hx.toAbreast hline)
    rintro found _ u g ⟨rfl, hu, hg⟩
    have hx := hx.looks hu hg
    rw [← hg.ahead] at hline
    split
    · apply Follows.seq (follows_link hx hline)
      exact fun _ _ _ _ h => Follows.pure (.add h.1 h.2)
    · exact follows_literalTurn hx hline
  case h_10 htag =>
    have hline : (f.ahead 0).tag.endsLine = false := by
      rw [hahead, htag]
      rfl
    apply Follows.seq (follows_tagAhead hx.toAbreast hline)
    rintro found _ u g ⟨rfl, hname, hu, hg⟩
    have hx := hx.looks hu hg
    rw [← hg.ahead] at hline hname
    split
    · next hfound =>
      apply Follows.seq (follows_tagRef hx hline (hname hfound))
      exact fun _ _ _ _ h => Follows.pure (.add h.1 h.2)
    · exact follows_literalTurn hx hline
  case h_11 heof hnl _ _ _ _ _ _ _ _ =>
    apply follows_literalTurn hx
    rw [hahead]
    simpa [Tag.endsLine] using ⟨hnl, heof⟩

end

theorem follows_inlines (hx : x.InLine loose s e) :
    Follows x.loss (inlines p n stops) (inlines p n stops) s e
      (fun r r' t f => Inlined x p loose stops r r' t f) E := by
  -- By induction on the room for spans inside one another.
  induction n generalizing stops s e with
  | zero => exact Follows.throw
  | succ n ih =>
    apply Follows.loop (fun c c' s e => c = c'.moved x.origin ∧ x.InLine loose s e)
      (Waiting x p loose) ⟨rfl, hx⟩
    · rintro _ c s e ⟨rfl, hx⟩
      exact follows_inlineTurn (fun style t f hx => ih hx) hx
    · intro c r' s e h
      exact ends_inlineTurn_waiting (advances_inlines n) h
    · exact fun c => (advances_inlineTurn (advances_inlines n) c).stays
    · exact fun _ _ c => (advances_inlineTurn (advances_inlines n) c).stays_over
    · exact fun _ _ _ _ h _ _ => h.over

theorem follows_paragraph (hx : x.InLine loose s e) :
    Follows x.loss (paragraph p) (paragraph p) s e
      (fun b b' t f => b = b'.moved x.origin ∧ (p.mode = .block → x.Near t f) ∧
        (p.mode ≠ .block → x.InLine loose t f)) E := by
  apply Follows.bind
  apply Follows.peek (.refl hx.sound) (.refl hx.sound')
  intro t f ht hf _ _
  rw [hx.start]
  apply Follows.seqLost (follows_inlines (hx.looks ht hf))
  · rintro ⟨children, ending⟩
    exact (Advances.bind (.endFrom _) fun _ => .pure _).stays
  · rintro ⟨children, ending⟩
    exact (Advances.bind (.endFrom _) fun _ => .pure _).stays_over
  · rintro ⟨children, ending⟩ ⟨children', ending'⟩ t f ⟨hhalts, -⟩
    have hblock (stop : Nat) : (children'.map (Inline.moved x.origin)).foldl
        (fun stop child => max stop child.span.stop) (stop + x.origin) =
        children'.foldl (fun stop child => max stop child.span.stop) stop + x.origin :=
      foldl_max_moved (fun c : Inline => c.span.stop) _ (fun c => by rw [Inline.span_moved]; rfl) _ _
    dsimp only at hhalts ⊢
    cases hhalts with
    | stopped hne => exact absurd rfl hne
    | lineEnd hne => exact absurd rfl hne
    | doomed hne => exact absurd rfl hne
    | idle hrel hx hp =>
      apply Follows.bind
      apply Follows.endFrom hx.cursor.lastEnd
      refine Follows.pure ⟨?_, fun hmode => hx.near fun hne => absurd (hp hmode) hne, fun _ => hx⟩
      rw [Block.paragraph_moved, hrel, hblock]
    | ended hmode hrel hn =>
      apply Follows.bind
      apply Follows.endFrom hn.lastEnd
      refine Follows.pure ⟨?_, fun _ => hn, fun h => absurd hmode h⟩
      rw [Block.paragraph_moved, hrel, hblock]

end TaskMarkup.Parse
