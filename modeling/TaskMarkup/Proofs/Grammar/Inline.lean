import TaskMarkup.Proofs.Grammar.Collect
import TaskMarkup.Proofs.Grammar.Line
import TaskMarkup.Proofs.Lexer.Reads

namespace TaskMarkup

namespace Style

theorem length_pos (style : Style) : 0 < style.length := by
  cases style <;> decide

variable {stops : List Style} {tag : Tag} {run : Nat} {style : Style}

theorem choose_spec (h : choose stops tag run = some style) :
    style.mark.1 = tag ∧ style.length ≤ run := by
  simp only [choose, Option.orElse_eq_orElse, Option.orElse_eq_or, Option.or_eq_some_iff] at h
  rcases h with h | ⟨-, h | ⟨-, h⟩⟩
  · have hm := List.mem_of_find?_eq_some h
    have hp := List.find?_some h
    simp only [List.mem_filter, decide_eq_true_eq] at hm hp
    exact ⟨hm.2, Nat.le_of_eq hp⟩
  · have hm := List.mem_of_find?_eq_some h
    have hp := List.find?_some h
    simp only [List.mem_filter, decide_eq_true_eq] at hm hp
    exact ⟨hm.2, hp⟩
  · have hm := List.mem_of_find?_eq_some h
    have hp := List.find?_some h
    simp only [List.mem_reverse, List.mem_filter, decide_eq_true_eq] at hm hp
    exact ⟨hm.2, hp⟩

end Style

variable {F : Fault → Prop} {E : Empty → Lexer Cursor → Prop} {s t u : Lexer Cursor} {k : Nat}
  {indent : Nat} {tok : Token} {rest : List Token}

namespace Lexer

def Copies (s : Lexer Cursor) (run : Option TextRun) : Prop :=
  ∃ before cs, s.consumed = before ++ cs ∧
    Text.byteSize before = (run.map TextRun.start).getD s.nextOffset ∧
    (run.map TextRun.text).getD [] = cs ∧ ∀ r ∈ run, r.stop = s.nextOffset

namespace Copies

variable {run : Option TextRun}

theorem none (hs : s.Sound) : s.Copies none :=
  ⟨s.consumed, [], by simp, hs.position.2.1, rfl, by simp⟩

theorem extend (h : s.Copies run) (hs : s.Sound) (ht : s.Eats tok t) :
    t.Copies (some (.extend run tok tok.text)) := by
  obtain ⟨before, cs, hbefore, hsize, htext, -⟩ := h
  refine ⟨before, cs ++ tok.text, ?_, ?_, ?_, ?_⟩
  · rw [ht.took.consumed hs, hbefore]
    simp
  · rw [hsize, TextRun.extend_eq, hs.start_of_cons ht.pending]
    rfl
  · rw [TextRun.extend_eq, htext]
    rfl
  · rintro r hr
    obtain rfl := Option.some.inj hr
    rw [TextRun.extend_eq, ht.stop_eq hs]

theorem quotes (h : s.Copies run) (hs : s.Sound) :
    ∀ c ∈ (run.map (TextRun.toInline indent)).toList, c.Quotes s.source := by
  obtain ⟨before, cs, hbefore, hsize, htext, hstop⟩ := h
  have hpos := hs.position
  rw [hbefore] at hpos
  cases run with
  | none => simp
  | some r =>
    intro c hc
    obtain rfl : c = r.toInline indent := by simpa using hc
    have htext : r.text = cs := htext
    have hsize : Text.byteSize before = r.start := hsize
    rw [TextRun.toInline, Inline.Quotes, String.toList_ofList, htext]
    simp only [Source.slice]
    rw [hstop r rfl, ← hsize, ← hpos.2.1, hpos.1, Text.slice_append_append]

end Copies

end Lexer

namespace Parse

open Rule

structure Builds (s t : Lexer Cursor) (node : Inline) : Prop extends s.Reads t where
  fits : node.Fits s.source
  start : s.nextOffset ≤ node.span.start
  stop : node.span.stop ≤ t.observer.lastEnd
  tell : Inline.Tell s.source s.nextOffset t.nextOffset [node]

structure Quoting (F : Fault → Prop) (indent n : Nat) (s : Lexer Cursor)
    (b : Nat × Option TextRun) (t : Lexer Cursor) : Prop where
  reads : s.Reads t
  stop : b.1 = t.nextOffset
  row : Inlines s.source s.nextOffset b.1 (b.2.map (TextRun.toInline indent)).toList
  quotes : ∀ c ∈ (b.2.map (TextRun.toInline indent)).toList, c.Quotes s.source
  spare : t.Spare F n

namespace Quoting

variable {b : Nat × Option TextRun} {u : Lexer Cursor} {m n : Nat} {double : Bool}

theorem extend (h : Quoting F indent n s b t) (hcopies : t.Copies b.2)
    (hp : t.pending = tok :: rest) (htok : tok.tag ≠ .newline) (hu : t.Eats tok u)
    (hk : u.Spare F m) :
    Quoting F indent m s (tok.stop, some (TextRun.extend b.2 tok tok.text)) u ∧
      u.Copies (some (TextRun.extend b.2 tok tok.text)) := by
  have hsound := h.reads.sound
  have hsu := h.reads.trans (hu.reads htok)
  have hstart := hsound.start_of_cons hp
  have hstop := hu.stop_eq hsound
  have hlt := (hsound.spelled (t := tok) (by simp [hp])).start_lt_stop
  have hle := h.stop
  have hcopies := hcopies.extend hsound hu
  refine ⟨⟨hsu, hstop, ?_, hsu.source ▸ hcopies.quotes hsu.sound, hk⟩, hcopies⟩
  have hrow : Inlines s.source s.nextOffset tok.stop
      ((InlineContent.push ⟨[], b.2⟩ tok tok.text).flush indent) :=
    InlineContent.row_push h.row (by omega) (Nat.le_of_lt hlt)
      (by rw [hstart]; exact h.reads.isBoundary) (by rw [hstop]; exact hsu.isBoundary)
  simpa [InlineContent.flush, InlineContent.push] using hrow

theorem builds (h : Quoting F indent n s b t) (hs : s.Firm) (hp : s.pending = tok :: rest) :
    Builds s t (.raw ⟨tok.start, b.1, indent⟩ double (b.2.map (TextRun.toInline indent)).toList) := by
  have hstart := hs.sound.start_of_cons hp
  have hlast := h.reads.lastEnd_eq hs.toSteady
  have hbound := h.reads.isBoundary
  rw [← h.stop] at hbound hlast
  refine ⟨h.reads, ⟨⟨?_, ?_, hbound⟩, ?_, ?_⟩, ?_, ?_,
    .leaf rfl h.quotes (Nat.le_of_eq hstart) (Nat.le_of_eq h.stop.symm)⟩
  · simp only [hstart]
    exact h.row.le
  · simp only [hstart]
    exact hs.sound.isBoundary_nextOffset
  · simpa only [hstart] using h.row.ordered
  · exact Inline.allFit_iff.2 h.row.fits
  · simp [Inline.span, hstart]
  · simp [Inline.span, hlast]

theorem ends_turn {count : Nat} (h : Quoting F indent 0 s b t) (hcopies : t.Copies b.2)
    (hcount : 0 < count) :
    Ends F (do
      let next ← peek 0
      if next.tag.endsLine then return .done b
      if next.tag = .backtick then
        if count ≤ (← repeats next) then
          eatMany count
          return .done (next.start + count, b.2)
      let next ← eat
      return .again (next.stop, some (TextRun.extend b.2 next next.text)) :
        Parse (Turn (Nat × Option TextRun) (Nat × Option TextRun))) t
      (fun turn u => turn.Gives (Quoting F indent 1 s · u) fun b =>
        (Quoting F indent 0 s b u ∧ u.Copies b.2) ∧ u.pending.length < t.pending.length) E := by
  have hsound := h.reads.sound
  refine Ends.bind (Ends.peek (.refl hsound) (by decide) h.spare (by omega) fun u hu hku _ => ?_)
  have hnext := hu.nextOffset_eq hsound
  split
  · exact Ends.pure ⟨h.reads.looks hu, h.stop.trans hnext.symm, h.row, h.quotes, hku⟩
  · next hline =>
    obtain ⟨-, hp⟩ := hsound.tag_ahead_zero.resolve_left fun h => by
      simp [h.1, Tag.endsLine] at hline
    have hnl : (t.ahead 0).tag ≠ .newline := fun h => by simp [h, Tag.endsLine] at hline
    have hstart := hsound.start_of_cons hp
    have hmore : Ends F (Rule.eat >>= fun next => Pure.pure (Turn.again (next.stop,
        some (TextRun.extend b.2 next next.text))) : Parse (Turn _ _)) u
          (fun turn v => turn.Gives (Quoting F indent 1 s · v) fun b =>
            (Quoting F indent 0 s b v ∧ v.Copies b.2) ∧ v.pending.length < t.pending.length) E :=
      Ends.bind (Ends.eat hu hku (by omega) hp fun v hv _ hkv =>
        Ends.pure ⟨h.extend hcopies hp hnl hv hkv, (hv.reads hnl).length_pending_lt⟩)
    dsimp only
    split
    · next htick =>
      have hc : (t.ahead 0).tag.char? = some '\x60' := by rw [htick, Tag.char?]
      have hpu := hu.pending.trans hp
      refine Ends.seq (Ends.repeats hu.sound hpu hc) ?_
      rintro m _ ⟨hsame, hm⟩
      rw [hsame]
      split
      · next hle =>
        rw [hm] at hle
        refine Ends.seq (Ends.eatMany hu.sound (Nat.le_trans hle (Token.length_run_le ..)) hku
          (by omega)) ?_
        rintro - v ⟨hv, hkv⟩
        rw [if_neg (by omega)] at hkv
        obtain ⟨huv, hstop⟩ := hv.reads_run hu.sound hpu hle hcount hc (by simp [htick])
        have hbegin := h.stop
        refine Ends.pure ⟨(h.reads.looks hu).trans huv, ?_, ?_, h.quotes, hkv.mono (by omega)⟩
        · simp only
          omega
        · exact h.row.mono (by simp only; omega)
      · exact hmore
    · exact hmore

end Quoting

theorem ends_rawInline (hs : s.Firm) (hp : s.pending = tok :: rest) (htok : tok.tag = .backtick)
    (hk : s.Spare F k) (hk' : k < 97) :
    Ends F (rawInline indent tok) s (fun node t => Builds s t node ∧ t.Spare F 1) E := by
  have hc : tok.tag.char? = some '\x60' := by rw [htok, Tag.char?]
  refine Ends.seq (Ends.repeats hs.sound hp hc) ?_
  rintro n _ ⟨hsame, hn⟩
  rw [hsame]
  have hone : 1 ≤ (tok.run s.pending).length := by
    rw [hp, Token.run_cons_self]
    simp
  generalize hcount : (if 2 ≤ n then 2 else 1) = count
  have hpos : 0 < count := by
    rw [← hcount]
    split <;> decide
  have hle : count ≤ (tok.run s.pending).length := by
    rw [← hcount, ← hn]
    split <;> omega
  refine Ends.seq (Ends.eatMany hs.sound (Nat.le_trans hle (Token.length_run_le ..)) hk (by omega))
    ?_
  rintro - t ⟨ht, hkt⟩
  rw [if_neg (by omega)] at hkt
  obtain ⟨ht, hstop⟩ := ht.reads_run hs.sound hp hle hpos hc (by simp [htok])
  have hstart := hs.sound.start_of_cons hp
  refine Ends.seq (Ends.loop (fun b u => Quoting F indent 0 s b u ∧ u.Copies b.2) ht.sound
    ⟨⟨ht, by omega, .nil (by omega), by simp, hkt⟩, .none ht.sound⟩
    fun b u h => h.1.ends_turn h.2 hpos) ?_
  exact fun b u h => Ends.pure ⟨h.builds hs hp, h.spare⟩

theorem ends_linkAhead (hs : s.Sound) (hk : s.Spare F k) (hk' : k < 97) :
    Ends F linkAhead s (fun _ t => s.Looks t ∧ t.Spare F (k + 1)) E :=
  Ends.bind (Ends.peekTag (.refl hs) (by decide) hk (by omega) fun _ ht hkt _ =>
    Ends.pure ⟨ht, hkt⟩)

theorem ends_tagAhead (hs : s.Sound) (hk : s.Spare F k) (hk' : k < 97) :
    Ends F tagAhead s (fun found t => s.Looks t ∧ t.Spare F (k + 1) ∧ (found = true →
      ∃ sign name rest, s.pending = sign :: name :: rest ∧
        (name.tag = .word ∨ name.tag = .number) ∧ isTagName name.text = true)) E := by
  refine Ends.bind (Ends.cursor ?_)
  split
  · refine Ends.bind (Ends.peek (.refl hs) (by decide) hk (by omega) fun t ht hkt _ =>
      Ends.pure ⟨ht, hkt, fun h => ?_⟩)
    simp only [Bool.and_eq_true, Bool.or_eq_true, beq_iff_eq] at h
    match hp : s.pending with
    | [] | [_] => simp [Lexer.ahead, hp, Token.eof] at h
    | sign :: name :: rest => exact ⟨sign, name, rest, rfl, by simpa [Lexer.ahead, hp] using h⟩
  · exact Ends.pure ⟨.refl hs, hk.mono (by omega), by simp⟩

theorem ends_link (hs : s.Firm) (hp : s.pending = tok :: rest) (htok : tok.tag = .leftAngle)
    (hk : s.Spare F k) (hk' : k < 97) :
    Ends F (link indent) s (fun node t => Builds s t node ∧ t.Spare F 3) E := by
  refine Ends.bind (Ends.eat (.refl hs.sound) hk (by omega) hp fun t ht _ hkt => ?_)
  have ht := ht.reads (by simp [htok])
  refine Ends.seq (Ends.readUntil ht.sound hkt (by decide)) ?_
  rintro target u ⟨hu, -, hku, -⟩
  have hu := ht.scan <| .of_takeWhile hu fun v hv hn => by simp [hn, Tag.endsLine] at hv
  -- The caption is read or there is none: either way the tokens are of this line.
  have hrest (caption : Option String) (v : Lexer Cursor) (hv : s.Reads v) (hkv : v.Spare F 2) :
      Ends F (do
        let _ ← eatIf .rightAngle
        let stop ← endFrom tok.start
        return .link ⟨tok.start, stop, indent⟩ (String.ofList (Text.trimEnd target)) caption :
          Parse Inline) v (fun node t => Builds s t node ∧ t.Spare F 3) E := by
    have hdone (w : Lexer Cursor) (hw : s.Reads w) (hkw : w.Spare F 3) :
        Ends F (do
          let stop ← endFrom tok.start
          return .link ⟨tok.start, stop, indent⟩ (String.ofList (Text.trimEnd target)) caption :
            Parse Inline) w (fun node t => Builds s t node ∧ t.Spare F 3) E := by
      have hstart := hs.sound.start_of_cons hp
      have hlast := hw.lastEnd_eq hs.toSteady
      have hlt := hw.nextOffset_lt hs.toSteady
      have hmax : max w.observer.lastEnd tok.start = w.nextOffset := by omega
      refine Ends.bind (Ends.endFrom (Ends.pure ⟨⟨hw, ⟨?_, ?_, ?_⟩, ?_, ?_,
        .leaf rfl trivial (Nat.le_of_eq hstart) (Nat.le_of_eq hmax.symm)⟩, hkw⟩))
      · simp only
        omega
      · simp only [hstart]
        exact hs.sound.isBoundary_nextOffset
      · simp only [hmax]
        exact hw.isBoundary
      · simp [Inline.span, hstart]
      · simp only [Inline.span]
        omega
    refine Ends.seq (Ends.eatIf hv.sound (by decide) hkv (by decide)) ?_
    rintro r w (⟨-, -, hw, hkw, -⟩ | ⟨angle, -, hangle, hw, hkw⟩)
    · exact hdone w (hv.looks hw) hkw
    · exact hdone w (hv.trans (hw.reads (by simp [hangle]))) (hkw.mono (by decide))
  refine Ends.seq (Ends.eatIf hu.sound (by decide) hku (by decide)) ?_
  rintro r v (⟨rfl, -, hv, hkv, -⟩ | ⟨semi, rfl, hsemi, hv, hkv⟩)
  · exact hrest none v (hu.looks hv) hkv
  · have hv := hu.trans (hv.reads (by simp [hsemi]))
    refine Ends.seq (Ends.eatInlineSpace hv.sound hkv (by decide)) ?_
    rintro - w ⟨hw, hkw, -⟩
    have hw := hv.scan <| .of_takeWhile hw fun _ => Tag.ne_newline_of_isInlineSpace
    refine Ends.seq (Ends.readUntil hw.sound hkw (by decide)) ?_
    rintro text x ⟨hx, -, hkx, -⟩
    have hx := hw.scan <| .of_takeWhile hx fun y hy hn => by simp [hn, Tag.endsLine] at hy
    dsimp only
    split
    · exact hrest none x hx hkx
    · exact hrest _ x hx hkx

theorem ends_tagRef {name : Token} (hs : s.Firm) (hp : s.pending = tok :: name :: rest)
    (htok : tok.tag ≠ .newline) (hname : name.tag ≠ .newline) (hk : s.Spare F k) (hk' : k < 97) :
    Ends F (tagRef indent) s (fun node t => Builds s t node ∧ t.Spare F 0) E := by
  refine Ends.bind (Ends.eat (.refl hs.sound) hk (by omega) hp fun t ht hpt hkt => ?_)
  refine Ends.bind (Ends.eat (.refl ht.sound) hkt (by decide) hpt fun u hu _ hku =>
    Ends.pure ?_)
  have hr := (ht.reads htok).trans (hu.reads hname)
  have hstart := hs.sound.start_of_cons hp
  have hstart' := ht.sound.start_of_cons hpt
  have hstop := hu.stop_eq ht.sound
  have hlast := hr.lastEnd_eq hs.toSteady
  have hle := (ht.reads htok).onward hs.toSteady |>.nextOffset_le hs.sound ht.sound
  have hlt := (ht.sound.spelled (t := name) (by simp [hpt])).start_lt_stop
  have hb := (ht.reads htok).isBoundary
  have hb' := hr.isBoundary
  have hquotes : ∀ c ∈ [Inline.text ⟨name.start, name.stop, indent⟩ (String.ofList name.text)],
      c.Quotes u.source := ((Lexer.Copies.none ht.sound).extend ht.sound hu).quotes hu.sound
  have hquotes := hr.source ▸ hquotes _ (List.mem_singleton_self _)
  refine ⟨⟨hr, ⟨⟨?_, ?_, ?_⟩, ⟨?_, ?_, Nat.le_refl _⟩, ?_, ?_, ?_⟩, ?_, ?_,
    .leaf rfl hquotes ?_ ?_⟩, hku⟩
  all_goals simp only [Inline.span, hstart, hstart', hstop, hlast, Nat.le_refl, hb, hb',
    hs.sound.isBoundary_nextOffset]
  all_goals omega

variable {c : InlineContent}

theorem ends_literal (hs : s.Firm) (hc : s.Gathers indent t c) (hp : t.pending = tok :: rest)
    (hb : tok.tag ≠ .backslash) (htok : tok.tag ≠ .newline) (hk : t.Spare F k) (hk' : k < 97) :
    Ends F (literal c) t (fun c' u => t.Reads u ∧ s.Gathers indent u c' ∧ u.Spare F 0) E := by
  refine Ends.bind (Ends.eat (.refl hc.firm.sound) hk (by omega) hp fun u hu _ hku =>
    Ends.pure ?_)
  have hr := hu.reads htok
  have hspell := hc.firm.sound.spelled (t := tok) (by simp [hp])
  refine ⟨hr, hc.push hs.sound (hr.firm hc.firm) (hr.onward hc.firm.toSteady)
    (hc.firm.sound.start_of_cons hp) hspell.start_lt_stop ?_ ?_ (List.forall_mem_nil _) ?_, hku⟩
  · rw [hr.lastEnd_eq hc.firm.toSteady, hu.stop_eq hc.firm.sound]
  · rw [hu.took.consumed hc.firm.sound]
    rfl
  · intro m hm
    rw [Lexer.ahead_zero_of_cons hp] at hm
    refine ⟨tok.text, .line, hspell.shows hb htok hm, .nil _, ?_, by simp, by simp⟩
    have hend := hm.escape
    cases m with
    | line | indent => simp [Text.shown]
    | escape => simp [hspell.endsLine_eq_false (hspell.newline_not_mem htok)] at hend

theorem ends_escape (hs : s.Firm) (hc : s.Gathers indent t c) (hp : t.pending = tok :: rest)
    (htok : tok.tag = .backslash) (hk : t.Spare F k) (hk' : k < 97) :
    Ends F (escape c) t (fun c' u => t.Reads u ∧ s.Gathers indent u c' ∧ u.Spare F 1) E := by
  refine Ends.bind (Ends.eat (.refl hc.firm.sound) hk (by omega) hp fun u hu _ hku => ?_)
  have hsound := hc.firm.sound
  have hnl : tok.tag ≠ .newline := by simp [htok]
  have hr := hu.reads hnl
  have htext : tok.text = ['\\'] :=
    (hsound.spelled (t := tok) (by simp [hp])).text_of_char? (by rw [htok]; rfl)
  have hstart := hsound.start_of_cons hp
  have hlt := (hsound.spelled (t := tok) (by simp [hp])).start_lt_stop
  have hstop := hu.stop_eq hsound
  -- A backslash that may still escape something does not stand before another one.
  have hfirst (m : Text.Mode) (hm : m.Precedes (t.ahead 0).tag) :
      m ≠ .escape ∧ Text.shown m [] = [] := by
    rw [Lexer.ahead_zero_of_cons hp, htok] at hm
    have hend := hm.escape
    cases m with
    | line | indent => exact ⟨by decide, rfl⟩
    | escape => simp [Tag.endsLine] at hend
  refine Ends.bind (Ends.peekTag (.refl hu.sound) (by decide) hku (by decide)
    fun v hv hkv _ => ?_)
  split
  · next hline =>
    have hpush : s.Gathers indent u (c.push tok ['\\']) := by
      refine hc.push hs.sound (hr.firm hc.firm) (hr.onward hc.firm.toSteady) hstart hlt ?_
        ?_ (List.forall_mem_nil _) ?_
      · rw [hr.lastEnd_eq hc.firm.toSteady, hstop]
      · rw [hu.took.consumed hsound]
        rfl
      · intro m hm
        obtain ⟨hne, hnil⟩ := hfirst m hm
        refine ⟨[], .escape, htext ▸ .backslash hne, .nil _, by rw [hnil]; rfl, fun _ => hline, ?_⟩
        simp
    exact Ends.pure ⟨hr.looks hv, hpush.looks hv, hkv⟩
  · next hline =>
    obtain ⟨-, hpu⟩ := hu.sound.tag_ahead_zero.resolve_left fun h => by
      simp [h.1, Tag.endsLine] at hline
    generalize u.ahead 0 = esc at hpu hline
    have hnl' : esc.tag ≠ .newline := fun h => by simp [h, Tag.endsLine] at hline
    refine Ends.bind (Ends.eat hv hkv (by decide) hpu fun w hw _ hkw => Ends.pure ?_)
    have hr' := hr.trans (hw.reads hnl')
    have hstart' := hu.sound.start_of_cons hpu
    have hspell := hu.sound.spelled (t := esc) (hpu ▸ List.mem_cons_self ..)
    have hlt' := hspell.start_lt_stop
    have hstop' := hw.stop_eq hu.sound
    have hboth : Token.stop { tok with text := tok.text ++ esc.text } = esc.stop := by
      simp only [Token.stop, Token.size, Text.byteSize_append] at hstop hstart' ⊢
      omega
    refine ⟨hr', ?_, hkw.mono (by decide)⟩
    rw [InlineContent.push_push (by omega)]
    refine hc.push hs.sound (hr'.firm hc.firm) (hr'.onward hc.firm.toSteady) hstart ?_ ?_
      ?_ (List.forall_mem_nil _) ?_
    · rw [hboth]
      simp only
      omega
    · rw [hboth, hr'.lastEnd_eq hc.firm.toSteady, hstop']
    · rw [hw.took.consumed hu.sound, hu.took.consumed hsound]
      simp
    · intro m hm
      obtain ⟨hne, hnil⟩ := hfirst m hm
      refine ⟨esc.text, .line, ?_, .nil _, ?_, by simp, by simp⟩
      · rw [htext]
        exact (Text.Shows.backslash hne).trans (hspell.shows_escaped hnl')
      · rw [hnil]
        exact (List.append_nil _).symm

/-- What a newline inside a paragraph leaves: the indentation of the next line is skipped. Unless the
paragraph goes on, another block may start there. -/
structure Continues (F : Fault → Prop) (s : Lexer Cursor) (tok : Token) (r : Option Token)
    (t : Lexer Cursor) : Prop extends s.Onward t where
  firm : t.Firm
  consumed : ∃ ws, t.consumed = s.consumed ++ ('\n' :: ws) ∧ ∀ c ∈ ws, c = ' ' ∨ c = '\t'
  stop : tok.stop = t.observer.lastEnd
  spare : t.Spare F 5
  eaten : ∀ nl, r = some nl → nl = tok ∧ (t.ahead 0).tag.isContent = true
  settled : t.Settled
  rests : r = none → ∀ i, Rests F i t

theorem ends_continueParagraph {p : ParagraphContext} (hr : p.level.ruler.Excused F 0 s)
    (hs : s.Firm) (hp : s.pending = tok :: rest) (htok : tok.tag = .newline) (hk : s.Spare F k)
    (hk' : k < 97) :
    Ends F (continueParagraph p) s (fun r t => Continues F s tok r t ∧
      t.pending.length < s.pending.length) E := by
  refine Ends.bind (Ends.eat (.refl hs.sound) hk (by omega) hp fun t ht hpt hkt => ?_)
  obtain ⟨hsteady, -⟩ := hs.toSteady.eats_newline ht htok
  have hsettled := hs.toSteady.settled_of_newline ht htok
  have hlast := ht.took.lastEnd_eq hs.sound hs.unpaused (by simp)
  have hstop : tok.stop = t.observer.lastEnd := (ht.stop_eq hs.sound).trans hlast.symm
  have hind : t.observer.lineIndent = none := by
    simp [ht.observer, Observer.onEat, Cursor.onEat, Cursor.note, htok]
  refine Ends.seq (ends_measureIndent (hr.line ht.source) ht.sound hkt (by decide)) ?_
  rintro measured u ⟨columns, -, hu⟩
  have hu' := hsteady.skips hsettled.done hu.toSkips
  have hlen : u.pending.length < s.pending.length := by
    have := hu.suffix.length_le
    rw [hp, List.length_cons]
    rw [hpt] at this
    omega
  have hconsumed (w : Lexer Cursor) (hw : w.Sound) (hsrc : w.source = s.source)
      (hpw : w.pending = u.pending) : ∃ ws, w.consumed = s.consumed ++ ('\n' :: ws) ∧
        ∀ c ∈ ws, c = ' ' ∨ c = '\t' := by
    obtain ⟨ts, hts, hblank, -⟩ := hu.blank
    rw [hpt] at hts
    have hpending : s.pending = tok :: ts ++ w.pending := by rw [hp, hts, hpw, List.cons_append]
    have hspell : ∀ v ∈ tok :: ts, v.Spelled := fun v hv =>
      hs.sound.spelled (hpending ▸ List.mem_append_left _ hv)
    refine ⟨Token.texts ts, ?_, Token.blank_texts (fun v hv => hspell v (by simp [hv])) hblank⟩
    rw [Lexer.consumed_of_pending hs.sound hw hsrc hpending, Token.texts_cons,
      (hspell tok (by simp)).newline htok]
    rfl
  refine Ends.bind (Ends.peekTag (.refl hu.sound) (by decide) hu.spare (by decide)
    fun v hv hkv _ => ?_)
  have hskip := hu.toSkips.looks hv
  have hnext : (v.ahead 0).tag.isInlineSpace = false := by rw [hv.ahead, hu.next]
  have hsv : s.Onward v := (hs.toSteady.onward ht.took).trans hskip.toOnward
  split
  · refine Ends.pure ⟨⟨hsv, (hu'.looks hv).firm hnext, hconsumed v hv.sound hsv.source hv.pending,
      by rw [hskip.lastEnd, hstop],
      hkv.mono (by decide), by simp, hsettled.skips hskip, fun _ i => .fresh ?_
        (hsettled.skips hskip) (hkv.mono (by decide))⟩, by rw [hv.pending]; exact hlen⟩
    rw [hv.observer, hu.lineIndent, hind]
  · next hc =>
    have hcontent : (v.ahead 0).tag.isContent = true := by
      rw [Tag.isContent_iff]
      exact ⟨hnext, by rw [hv.ahead]; simpa using hc⟩
    refine Ends.bind (Ends.setLineIndent ?_)
    have hv' := (hu'.looks hv).onLine (some measured)
    have hsw := hskip.onLine (some measured)
    have hlen' : (v.onCursor (.onLine (some measured))).pending.length < s.pending.length := by
      rw [Lexer.pending_onCursor, hv.pending]
      exact hlen
    have hrests (w : Lexer Cursor) (hw : (v.onCursor (.onLine (some measured))).Looks w)
        (hkw : w.Spare F 5) (r : Option Token)
        (hr : ∀ nl, r = some nl → nl = tok ∧ (v.ahead 0).tag.isContent = true) :
        Continues F s tok r w ∧ w.pending.length < s.pending.length := by
      have hahead : w.ahead 0 = v.ahead 0 := hw.ahead 0
      have hset := hsettled.skips (hsw.looks hw)
      rw [← hahead] at hr
      have hsw' : s.Onward w := (hs.toSteady.onward ht.took).trans (hsw.looks hw).toOnward
      refine ⟨⟨hsw', ?_, ?_, ?_, hkw, hr, hset,
        fun _ i => .found (.line (m := measured) ?_ ?_ (hkw.mono ?_) fun _ => hset)⟩, ?_⟩
      · exact (hv'.looks hw).firm (by rw [hahead, hnext])
      · exact hconsumed w hw.sound hsw'.source (by rw [hw.pending, Lexer.pending_onCursor, hv.pending])
      · rw [(hsw.looks hw).lastEnd, hstop]
      · rw [hw.observer]
        rfl
      · rw [hahead, hcontent]
      · split <;> decide
      · rw [hw.pending]
        exact hlen'
    split
    · exact Ends.pure (hrests _ (.refl hv'.sound) (hkv.onCursor.mono (by decide)) none (by simp))
    · refine Ends.seq (ends_dispatch hv'.sound hkv.onCursor (by decide)) ?_
      rintro marker w ⟨hw, hkw, -⟩
      split
      · exact Ends.pure (hrests w hw hkw _ (by simpa using hcontent))
      · exact Ends.pure (hrests w hw hkw _ (by simp))

end Parse

end TaskMarkup
