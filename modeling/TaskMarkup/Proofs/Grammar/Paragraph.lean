import TaskMarkup.Proofs.Grammar.Inline
import Mathlib.Data.List.Perm.Subperm

namespace TaskMarkup

theorem Style.exists_char (style : Style) :
    (∃ c, style.mark.1.char? = some c ∧ Text.Delimiter c) ∧ style.mark.1 ≠ .newline := by
  cases style <;> exact ⟨⟨_, rfl, by simp [Text.Delimiter]⟩, by decide⟩

inductive Origin.Halts (p : ParagraphContext) (tag : Tag) : Prop
  | eof : tag = .eof → Halts p tag
  | line : tag = .newline → p.mode ≠ .block → Halts p tag
  | bar : tag = .pipe → p.mode = .cellLine → Halts p tag

namespace Parse

open Rule

variable {F : Fault → Prop} {E : Empty → Lexer Cursor → Prop} {p : ParagraphContext} {n k : Nat}
  {stops : List Style} {style : Style} {s t : Lexer Cursor} {tok : Token} {rest : List Token}

inductive Over (F : Fault → Prop) (p : ParagraphContext) (t : Lexer Cursor) : Prop
  | eof : t.pending = [] → t.atEof = true → Over F p t
  | line : p.mode ≠ .block → (t.ahead 0).tag = .newline → Over F p t
  | bar : p.mode = .cellLine → (t.ahead 0).tag = .pipe → Over F p t
  | rests : p.mode = .block → t.Settled → (∀ i, Rests F i t) → Over F p t

def Delimits (style : Style) (t : Lexer Cursor) : Prop :=
  ∃ tok rest, t.pending = tok :: rest ∧ tok.tag = style.mark.1 ∧
    style.length ≤ (tok.run t.pending).length

inductive Stopped (F : Fault → Prop) (p : ParagraphContext) (stops : List Style)
    (t : Lexer Cursor) : InlineStop → Prop
  | close {style : Style} : stops.head? = some style → Delimits style t → Stopped F p stops t .close
  | interrupt : stops ≠ [] → Stopped F p stops t .interrupt
  | lineEnd : stops ≠ [] → Stopped F p stops t .lineEnd
  | ran : Over F p t → Stopped F p stops t .over

/-- How far a loop has come: something was read or nothing, and no line ended where a paragraph
ends with its line. -/
structure Went (p : ParagraphContext) (s t : Lexer Cursor) : Prop where
  moved : s.Looks t ∨ s.nextOffset < t.observer.lastEnd
  scans : p.mode ≠ .block → s.Scans t

theorem Went.refl (h : s.Sound) : Went p s s := ⟨.inl (.refl h), fun _ => .refl h⟩

structure Ended (F : Fault → Prop) (p : ParagraphContext) (n : Nat) (stops : List Style)
    (s : Lexer Cursor) (r : List Inline × InlineStop) (t : Lexer Cursor) : Prop
    extends s.Collects t r.1 where
  stopped : Stopped F p stops t r.2
  spare : t.Spare F (21 + n)
  scans : p.mode ≠ .block → s.Scans t
  busy : p.mode = .block → stops = [] → (s.ahead 0).tag.isContent = true →
    s.nextOffset < t.observer.lastEnd

structure Styled (F : Fault → Prop) (p : ParagraphContext) (n : Nat) (s t : Lexer Cursor)
    (node : Inline) (ending : InlineStop) : Prop extends s.Onward t where
  firm : t.Firm
  fits : node.Fits s.source
  tell : Inline.Tell s.source s.nextOffset t.nextOffset [node]
  start : s.nextOffset ≤ node.span.start
  stop : node.span.stop ≤ t.observer.lastEnd
  nextOffset_lt : s.nextOffset < t.observer.lastEnd
  ended : ending = .over → Over F p t
  spare : t.Spare F (21 + n)
  scans : p.mode ≠ .block → s.Scans t

theorem ends_delimiters (hs : s.Firm) (hd : Delimits style s) (hk : s.Spare F k) (hk' : k < 97) :
    Ends F (eatMany style.length) s (fun _ t => s.Reads t ∧ t.Spare F 0 ∧
      Inline.Tell s.source s.nextOffset t.nextOffset []) E := by
  obtain ⟨tok, rest, hp, htag, hle⟩ := hd
  obtain ⟨⟨c, hc, hdelimiter⟩, hnl⟩ := style.exists_char
  rw [← htag] at hc hnl
  have hpos := style.length_pos
  refine (Ends.eatMany hs.sound (Nat.le_trans hle (Token.length_run_le ..)) hk (by omega)).imp ?_
  rintro - t ⟨ht, hkt⟩
  rw [if_neg (by omega)] at hkt
  refine ⟨(ht.reads_run hs.sound hp hle hpos hc hnl).1, hkt, Lexer.tell_between hs.sound ht.sound
    ht.source (ht.consumed hs.sound) fun d hd => .inr ?_⟩
  obtain ⟨text, htext, hd⟩ := List.mem_flatten.1 hd
  obtain ⟨u, hu, rfl⟩ := List.mem_map.1 htext
  have hspell := hs.sound.spelled (List.mem_of_mem_take hu)
  rw [hspell.text_of_char? ((Token.tag_of_mem_take_run hle u hu).symm ▸ hc)] at hd
  exact List.mem_singleton.1 hd ▸ hdelimiter

theorem Styled.of_children {u v : Lexer Cursor} {children : List Inline} {ending : InlineStop}
    {stop : Nat} (hs : s.Firm) (hu : s.Reads u) (hv : s.Onward v) (hfirm : v.Firm)
    (hrow : Inlines s.source u.nextOffset stop children)
    (htell : Inline.Tell s.source s.nextOffset v.nextOffset children)
    (hb : s.source.IsBoundary stop) (hstop : stop ≤ v.observer.lastEnd)
    (hlt : s.nextOffset < v.observer.lastEnd) (hended : ending = .over → Over F p v)
    (hk : v.Spare F (21 + n)) (hscans : p.mode ≠ .block → s.Scans v) :
    Styled F p n s v (.styled ⟨s.nextOffset, stop, p.indent⟩ style children) ending := by
  have hle := hrow.le
  have hopen := (hu.onward hs.toSteady).nextOffset_le hs.sound hu.sound
  refine ⟨hv, hfirm, ⟨⟨?_, hs.sound.isBoundary_nextOffset, hb⟩, ?_, Inline.allFit_iff.2 hrow.fits⟩,
    htell.styled, ?_, hstop, hlt, hended, hk, hscans⟩
  · simp only
    omega
  · have hlo : Inlines s.source s.nextOffset u.nextOffset [] := .nil hopen
    simpa using (hlo.append hrow).ordered
  · simp [Inline.span]

theorem ends_styled {inner : Parse (List Inline × InlineStop)} (hs : s.Firm)
    (hd : Delimits style s) (hk : s.Spare F k) (hk' : k < 96) (hn : n ≤ 7)
    (hinner : ∀ t, t.source = s.source → t.Firm → t.Spare F 0 →
      Ends F inner t (fun r u => Ended F p n (style :: stops) t r u) E) :
    Ends F (styled p.indent style inner) s (fun r t => Styled F p n s t r.1 r.2) E := by
  refine Ends.bind (Ends.peek (.refl hs.sound) (by decide) hk (by omega) fun t ht hkt _ => ?_)
  rw [hs.sound.start_ahead]
  have hdt : Delimits style t := by
    unfold Delimits
    rw [ht.pending]
    exact hd
  refine Ends.seq (ends_delimiters (hs.looks ht) hdt hkt (by omega)) ?_
  rintro - u ⟨hu, hku, hopen⟩
  have hsu : s.Reads u := by
    obtain ⟨ts, hne, hts, htook⟩ := hu
    exact ⟨ts, hne, hts, by simpa using ht.took.trans htook⟩
  have hlast := hsu.lastEnd_eq hs.toSteady
  have hlt := hsu.nextOffset_lt hs.toSteady
  have hopened : max u.observer.lastEnd s.nextOffset = u.nextOffset := by omega
  refine Ends.bind (Ends.endFrom (Ends.seq (hinner u hsu.source (hsu.firm hs) hku) ?_))
  rw [hopened]
  rintro ⟨children, ending⟩ v hv
  have hsv := (hsu.onward hs.toSteady).trans hv.onward
  have hle := hv.onward.lastEnd_le
  have hrow : Inlines s.source u.nextOffset v.observer.lastEnd children := by
    have := hv.row
    rwa [hsu.source, Nat.max_eq_right (by omega)] at this
  obtain ⟨hrow', hstop, hb⟩ := hrow.to_lastStop
  have hscans (hmode : p.mode ≠ .block) : s.Scans v := hsu.scans.trans (hv.scans hmode)
  have htell : Inline.Tell s.source s.nextOffset v.nextOffset children := by
    have hinside := hv.tell
    rw [hsu.source] at hinside
    rw [ht.source, ht.nextOffset_eq hs.sound] at hopen
    exact hopen.append hinside
  dsimp only
  split
  · next hclose =>
    subst hclose
    have hst : Stopped F p (style :: stops) v .close := hv.stopped
    cases hst with
    | close hhead hdv =>
      obtain rfl : style = _ := by simpa using hhead
      refine Ends.seq (ends_delimiters hv.firm hdv hv.spare (by omega)) ?_
      rintro - w ⟨hw, hkw, hclosing⟩
      have hvw := hw.onward hv.firm.toSteady
      have hle' := hvw.lastEnd_le
      have hfw := hw.firm hv.firm
      have hsw := hsv.trans hvw
      have hclosed : Inline.Tell s.source s.nextOffset w.nextOffset children := by
        rw [hsv.source] at hclosing
        simpa using htell.append hclosing
      exact Ends.bind (Ends.cursor (Ends.pure (.of_children hs hsu hsw hfw (hrow.mono hle') hclosed
        (hsw.source ▸ hfw.boundary) (Nat.le_refl _) (by omega) (by simp) (hkw.mono (by omega))
        fun hmode => (hscans hmode).trans hw.scans)))
  · refine Ends.pure (.of_children hs hsu hsv hv.firm hrow' htell (hb hsu.isBoundary) hstop
      (by omega) ?_ hv.spare hscans)
    rintro rfl
    have hst : Stopped F p (style :: stops) v .over := hv.stopped
    cases hst with
    | ran ho => exact ho

section

variable {inner : List Style → Parse (List Inline × InlineStop)} {c : InlineContent}
  {Q : Turn (List Inline × InlineStop) InlineContent → Lexer Cursor → Prop}

/-- Each kind of turn from `s` on gives what `Q` says. The turns are told apart by the token ahead,
which is looked at from a place with room for `k` looks. -/
structure InlineCases (F : Fault → Prop) (E : Empty → Lexer Cursor → Prop) (p : ParagraphContext)
    (stops : List Style) (inner : List Style → Parse (List Inline × InlineStop))
    (c : InlineContent) (k : Nat) (s : Lexer Cursor)
    (Q : Turn (List Inline × InlineStop) InlineContent → Lexer Cursor → Prop) : Prop where
  halt {t : Lexer Cursor} : s.Looks t → t.Spare F (k + 1) → (t.pending = [] → t.atEof = true) →
    Origin.Halts p (t.ahead 0).tag → Q (.done (c.flush p.indent, .over)) t
  stop {ending : InlineStop} {t : Lexer Cursor} : s.Looks t → t.Spare F (k + 1) → stops ≠ [] →
    ending ≠ .over → Stopped F p stops t ending → Q (.done (c.flush p.indent, ending)) t
  line {tok : Token} {rest : List Token} {t : Lexer Cursor} : s.Looks t → t.Spare F (k + 1) →
    t.pending = tok :: rest → tok.tag = .newline → stops.any Style.singleLine = false →
    p.mode = .block → Ends F (continueParagraph p) t (fun r u =>
      Q (r.elim (.done (c.flush p.indent, .over)) fun nl => .again (c.push nl ['\n'])) u) E
  literal {tok : Token} {rest : List Token} {t : Lexer Cursor} : s.Looks t → t.Spare F (k + 2) →
    t.pending = tok :: rest → tok.tag ≠ .backslash → tok.tag ≠ .newline →
    Ends F (literal c) t (fun c u => Q (.again c) u) E
  escape {tok : Token} {rest : List Token} {t : Lexer Cursor} : s.Looks t → t.Spare F (k + 1) →
    t.pending = tok :: rest → tok.tag = .backslash →
    Ends F (escape c) t (fun c u => Q (.again c) u) E
  styled {tok : Token} {rest : List Token} {style : Style} {t : Lexer Cursor} : s.Looks t →
    t.Spare F (k + 1) → t.pending = tok :: rest →
    Style.choose stops tok.tag (tok.run t.pending).length = some style → style ∉ stops →
    Delimits style t → Ends F (styled p.indent style (inner (style :: stops))) t (fun r u =>
      Q (if r.2 = .over then .done ((c.add p.indent r.1).nodes, .over)
        else .again (c.add p.indent r.1)) u) E
  raw {tok : Token} {rest : List Token} {t : Lexer Cursor} : s.Looks t → t.Spare F (k + 1) →
    t.pending = tok :: rest → tok.tag = .backtick →
    Ends F (rawInline p.indent tok) t (fun node u => Q (.again (c.add p.indent node)) u) E
  link {tok : Token} {rest : List Token} {t : Lexer Cursor} : s.Looks t → t.Spare F (k + 2) →
    t.pending = tok :: rest → tok.tag = .leftAngle →
    Ends F (link p.indent) t (fun node u => Q (.again (c.add p.indent node)) u) E
  tagRef {sign name : Token} {rest : List Token} {t : Lexer Cursor} : s.Looks t →
    t.Spare F (k + 2) → t.pending = sign :: name :: rest → sign.tag = .at →
    name.tag = .word ∨ name.tag = .number → isTagName name.text = true →
    Ends F (tagRef p.indent) t (fun node u => Q (.again (c.add p.indent node)) u) E

theorem ends_literal_of_cases (h : InlineCases F E p stops inner c k s Q) (ht : s.Looks t)
    (hk : t.Spare F (k + 2)) (hp : t.pending = tok :: rest) (hback : tok.tag ≠ .backslash)
    (hnl : tok.tag ≠ .newline) :
    Ends F (literal c >>= fun c => Pure.pure (Turn.again c)) t Q E :=
  Ends.seq (h.literal ht hk hp hback hnl) fun _ _ h => Ends.pure h

theorem ends_delimiters_of_cases (h : InlineCases F E p stops inner c k s Q) (ht : s.Looks t)
    (hk : t.Spare F (k + 1)) (hp : t.pending = tok :: rest)
    (hmark : tok.tag = .asterisk ∨ tok.tag = .tilde ∨ tok.tag = .caret) :
    Ends F (do
      match Style.choose stops tok.tag (← repeats tok) with
      | none => return .again (← literal c)
      | some style =>
        if stops.head? = some style then return .done (c.flush p.indent, .close)
        else if style ∈ stops then return .done (c.flush p.indent, .interrupt)
        else
          let (node, ending) ← styled p.indent style (inner (style :: stops))
          let c := c.add p.indent node
          return if ending = .over then .done (c.nodes, .over) else .again c) t Q E := by
  obtain ⟨c', hchar⟩ : ∃ c', tok.tag.char? = some c' := by
    rcases hmark with htag | htag | htag <;> exact ⟨_, by rw [htag, Tag.char?]⟩
  refine Ends.seq (Ends.repeats ht.sound hp hchar) ?_
  rintro m _ ⟨hsame, hm⟩
  rw [hsame, hm]
  split
  · refine ends_literal_of_cases h ht (hk.mono (by omega)) hp ?_ ?_ <;>
      rcases hmark with htag | htag | htag <;> simp [htag]
  · next style hchoose =>
    obtain ⟨hstyle, hle⟩ := Style.choose_spec hchoose
    have hd : Delimits style t := ⟨tok, rest, hp, hstyle.symm, hle⟩
    split
    · next hhead =>
      exact Ends.pure (h.stop ht hk (by rintro rfl; simp at hhead) (by simp) (.close hhead hd))
    · split
      · next hmem =>
        have hne := List.ne_nil_of_mem hmem
        exact Ends.pure (h.stop ht hk hne (by simp) (.interrupt hne))
      · next hmem =>
        exact Ends.seq (h.styled ht hk hp hchoose hmem hd) fun _ _ h => Ends.pure h

theorem ends_inlineTurn_of_cases (hs : s.Sound) (hk : s.Spare F k) (hk' : k < 96)
    (h : InlineCases F E p stops inner c k s Q) : Ends F (inlineTurn p stops inner c) s Q E := by
  refine Ends.bind (Ends.peek (.refl hs) (by decide) hk (by omega) fun t ht hkt hz => ?_)
  have hkt' : t.Spare F (k + 2) := hkt.mono (by omega)
  have heof (hp : t.pending = []) : t.atEof = true := (ht.sound.atEof_iff hz).2 hp
  rw [← ht.ahead]
  rcases ht.sound.tag_ahead_zero with ⟨htag, -⟩ | ⟨hne, hp⟩
  · simp only [htag]
    exact Ends.pure (h.halt ht hkt heof (.eof htag))
  generalize htok : t.ahead 0 = tok at hp hne ⊢
  split
  · next htag => exact absurd htag hne
  · next htag =>
    split
    · next hany =>
      have hstops : stops ≠ [] := by
        rintro rfl
        simp at hany
      exact Ends.pure (h.stop ht hkt hstops (by simp) (.lineEnd hstops))
    · next hany =>
      split
      · next hmode => exact Ends.pure (h.halt ht hkt heof (.line (htok ▸ htag) hmode))
      · next hmode =>
        refine Ends.seq (h.line ht hkt hp htag (by simpa using hany) (by simpa using hmode)) ?_
        rintro (- | newline) u hu
        · exact Ends.pure hu
        · exact Ends.pure hu
  · next htag =>
    split
    · next hmode => exact Ends.pure (h.halt ht hkt heof (.bar (htok ▸ htag) hmode))
    · exact ends_literal_of_cases h ht hkt' hp (by simp [htag]) (by simp [htag])
  · next htag => exact Ends.seq (h.escape ht hkt hp htag) fun _ _ h => Ends.pure h
  case h_5 htag | h_6 htag | h_7 htag =>
    exact ends_delimiters_of_cases h ht hkt hp (by simp [htag])
  case h_8 htag => exact Ends.seq (h.raw ht hkt hp htag) fun _ _ h => Ends.pure h
  case h_9 htag =>
    refine Ends.seq (ends_linkAhead ht.sound hkt (by omega)) ?_
    rintro found u ⟨hu, hku⟩
    have hpu := hu.pending.trans hp
    split
    · exact Ends.seq (h.link (ht.trans hu) hku hpu htag) fun _ _ h => Ends.pure h
    · exact ends_literal_of_cases h (ht.trans hu) hku hpu (by simp [htag]) (by simp [htag])
  case h_10 htag =>
    refine Ends.seq (ends_tagAhead ht.sound hkt (by omega)) ?_
    rintro found u ⟨hu, hku, hname⟩
    have hpu := hu.pending.trans hp
    split
    · next hfound =>
      obtain ⟨sign, name, rest, hpt, hword, hname⟩ := hname hfound
      obtain ⟨rfl, -⟩ := List.cons.inj (hp.symm.trans hpt)
      exact Ends.seq (h.tagRef (ht.trans hu) hku (hu.pending.trans hpt) htag hword hname)
        fun _ _ h => Ends.pure h
    · exact ends_literal_of_cases h (ht.trans hu) hku hpu (by simp [htag]) (by simp [htag])
  case h_11 hnl _ hback _ _ _ _ _ _ => exact ends_literal_of_cases h ht hkt' hp hback hnl

end

structure Midway (F : Fault → Prop) (p : ParagraphContext) (n : Nat) (s t : Lexer Cursor)
    (c : InlineContent) : Prop extends s.Gathers p.indent t c where
  went : Went p s t
  spare : t.Spare F (21 + n)

namespace Midway

variable {c c' : InlineContent} {node : Inline} {ending : InlineStop} {u v : Lexer Cursor} {m : Nat}

theorem start (hs : s.Firm) (hk : s.Spare F (21 + n)) : Midway F p n s s {} :=
  ⟨.start hs, .refl hs.sound, hk⟩

theorem ended (h : Midway F p n s t c) (hu : t.Looks u) (hk : u.Spare F (21 + n + 1))
    (hst : Stopped F p stops u ending)
    (hidle : p.mode = .block → stops = [] → (t.ahead 0).tag.isContent = false) :
    Ended F p (n + 1) stops s (c.flush p.indent, ending) u := by
  refine ⟨(h.toGathers.looks hu).toCollects, hst, hk,
    fun hmode => (h.went.scans hmode).trans (.of_looks hu), fun hmode hnil hcontent => ?_⟩
  rcases h.went.moved with hm | hm
  · rw [← hm.ahead, hidle hmode hnil] at hcontent
    exact absurd hcontent (by simp)
  · rwa [hu.observer]

theorem reads (h : Midway F p n s t c) (hs : s.Firm) (hu : t.Looks u) (hv : u.Reads v)
    (hc : s.Gathers p.indent v c') (hk : v.Spare F m) (hm : m ≤ 21 + n) :
    Midway F p n s v c' ∧ v.pending.length < t.pending.length := by
  have hfirm := h.firm.looks hu
  have hlt := hv.nextOffset_lt hfirm.toSteady
  have hle := (h.onward.trans hu.onward).nextOffset_le hs.sound hfirm.sound
  have hlen := hv.length_pending_lt
  rw [hu.pending] at hlen
  have hscans := (Lexer.Scans.of_looks hu).trans hv.scans
  exact ⟨⟨hc, ⟨.inr (by omega), fun hmode => (h.went.scans hmode).trans hscans⟩, hk.mono hm⟩, hlen⟩

theorem add (h : Midway F p n s t c) (hs : s.Firm) (hu : t.Looks u) (hv : Builds u v node)
    (hk : v.Spare F m) (hm : m ≤ 21 + n) :
    Midway F p n s v (c.add p.indent node) ∧ v.pending.length < t.pending.length := by
  have hcu := h.toGathers.looks hu
  exact h.reads hs hu hv.toReads (hcu.add hs.sound (hv.firm hcu.firm) (hv.onward hcu.firm.toSteady)
    (hcu.onward.source ▸ hv.fits) hv.start hv.stop (hcu.onward.source ▸ hv.tell)) hk hm

theorem styled (h : Midway F p n s t c) (hs : s.Firm) (hu : t.Looks u)
    (hv : Styled F p n u v node ending) :
    Turn.Gives (fun r => Ended F p (n + 1) stops s r v)
      (fun c => Midway F p n s v c ∧ v.pending.length < t.pending.length)
      (if ending = .over then .done ((c.add p.indent node).nodes, .over)
        else .again (c.add p.indent node)) := by
  have hcu := h.toGathers.looks hu
  have hle := hcu.onward.nextOffset_le hs.sound hcu.firm.sound
  have hlt := hv.nextOffset_lt
  have hstop := hv.firm.lastEnd_le
  have hcv := hcu.add hs.sound hv.firm hv.toOnward (hcu.onward.source ▸ hv.fits) hv.start hv.stop
    (hcu.onward.source ▸ hv.tell)
  have hscans (hmode : p.mode ≠ .block) : s.Scans v :=
    (h.went.scans hmode).trans ((Lexer.Scans.of_looks hu).trans (hv.scans hmode))
  split
  · next hover =>
    refine ⟨?_, .ran (hv.ended hover), hv.spare.mono (by omega), hscans, fun _ _ _ => by omega⟩
    simpa [InlineContent.flush, InlineContent.add] using hcv.toCollects
  · have hlen := hv.toOnward.length_pending_lt hcu.firm.sound hv.firm.sound (by omega)
    rw [hu.pending] at hlen
    exact ⟨⟨hcv, ⟨.inr (by omega), hscans⟩, hv.spare⟩, hlen⟩

theorem line {r : Option Token} (h : Midway F p n s t c) (hs : s.Firm) (hu : t.Looks u)
    (hp : u.pending = tok :: rest) (htag : tok.tag = .newline) (hmode : p.mode = .block)
    (hv : Continues F u tok r v) (hlen : v.pending.length < u.pending.length) :
    Turn.Gives (fun r => Ended F p (n + 1) stops s r v)
      (fun c => Midway F p n s v c ∧ v.pending.length < t.pending.length)
      (r.elim (.done (c.flush p.indent, .over)) fun nl => .again (c.push nl ['\n'])) := by
  have hcu := h.toGathers.looks hu
  have hsound := hcu.firm.sound
  have hstart := hsound.start_of_cons hp
  have hspell := hsound.spelled (t := tok) (by simp [hp])
  have hlt := hspell.start_lt_stop
  have hle := hcu.onward.nextOffset_le hs.sound hsound
  have hstop := hv.stop
  obtain ⟨ws, hws, hblank⟩ := hv.consumed
  rw [hu.pending] at hlen
  cases r with
  | none =>
    refine ⟨⟨hv.firm, hcu.onward.trans hv.toOnward, ?_, ?_⟩,
      .ran (.rests hmode hv.settled (hv.rests rfl)), hv.spare.mono (by omega),
      fun hne => absurd hmode hne, fun _ _ _ => by omega⟩
    · have := hv.toOnward.lastEnd_le
      exact hcu.row.mono (by omega)
    · have hwhite : Text.White ('\n' :: ws) := by
        simpa [Text.White] using Text.White.of_blank hblank
      have hgap := Lexer.tell_between hsound hv.firm.sound hv.source hws
        fun d hd => .inl (hwhite.of_mem hd)
      rw [hcu.onward.source] at hgap
      simpa using hcu.tell.append hgap
  | some nl =>
    obtain ⟨rfl, hcontent⟩ := hv.eaten nl rfl
    have hnl := hspell.newline htag
    have hcv : s.Gathers p.indent v (c.push nl ['\n']) := by
      refine hcu.push hs.sound hv.firm hv.toOnward hstart hlt hstop (by rw [hws, hnl]; rfl)
        hblank fun m _ => ?_
      exact ⟨_, .indent, hnl ▸ .newline m, .blanks hblank, (List.append_nil _).symm,
        by simp, fun _ => (Tag.isContent_iff.1 hcontent).1⟩
    exact ⟨⟨hcv, ⟨.inr (by omega), fun hne => absurd hmode hne⟩, hv.spare.mono (by omega)⟩, hlen⟩

theorem cases {inner : List Style → Parse (List Inline × InlineStop)}
    (h : Midway F p n s t c) (hr : p.level.ruler.Excused F 0 t) (hs : s.Firm) (hn : n ≤ 6)
    (hinner : ∀ style u, style ∉ stops → u.source = t.source → u.Firm → u.Spare F 0 →
      Ends F (inner (style :: stops)) u (fun r v => Ended F p n (style :: stops) u r v) E) :
    InlineCases F E p stops inner c (21 + n) t fun turn u => turn.Gives
      (fun r => Ended F p (n + 1) stops s r u)
      fun c => Midway F p n s u c ∧ u.pending.length < t.pending.length where
  halt hu hk heof hhalts := by
    refine h.ended hu hk (.ran ?_) fun hmode _ => ?_
    · cases hhalts with
      | eof htag =>
        have hp := (hu.sound.tag_ahead_zero.resolve_right fun h => h.1 htag).2
        exact .eof hp (heof hp)
      | line htag hmode => exact .line hmode htag
      | bar htag hmode => exact .bar hmode htag
    · rw [← hu.ahead]
      cases hhalts with
      | eof htag | line htag _ => simp [htag, Tag.isContent, Tag.endsLine]
      | bar _ hcell => simp [hmode] at hcell
  stop hu hk hstops _ hst := h.ended hu hk hst fun _ hnil => absurd hnil hstops
  line hu hk hp htag _ hmode :=
    (ends_continueParagraph (hr.line hu.source) (h.firm.looks hu) hp htag hk (by omega)).imp
      fun _ _ hv => h.line hs hu hp htag hmode hv.1 hv.2
  literal hu hk hp hback hnl :=
    (ends_literal hs (h.toGathers.looks hu) hp hback hnl hk (by omega)).imp
      fun _ _ hv => h.reads hs hu hv.1 hv.2.1 hv.2.2 (by omega)
  escape hu hk hp hback :=
    (ends_escape hs (h.toGathers.looks hu) hp hback hk (by omega)).imp
      fun _ _ hv => h.reads hs hu hv.1 hv.2.1 hv.2.2 (by omega)
  styled hu hk _ _ hmem hd :=
    (ends_styled (h.firm.looks hu) hd hk (by omega) (by omega) fun v hsrc hv hkv =>
      hinner _ v hmem (hsrc.trans hu.source) hv hkv).imp fun _ _ hv => h.styled hs hu hv
  raw hu hk hp htag :=
    (ends_rawInline (h.firm.looks hu) hp htag hk (by omega)).imp
      fun _ _ hv => h.add hs hu hv.1 hv.2 (by omega)
  link hu hk hp htag :=
    (ends_link (h.firm.looks hu) hp htag hk (by omega)).imp
      fun _ _ hv => h.add hs hu hv.1 hv.2 (by omega)
  tagRef hu hk hp htag hname _ :=
    (ends_tagRef (h.firm.looks hu) hp (by simp [htag])
      (by rcases hname with hname | hname <;> simp [hname]) hk (by omega)).imp
        fun _ _ hv => h.add hs hu hv.1 hv.2 (by omega)

end Midway

theorem ends_inlineTurn {inner : List Style → Parse (List Inline × InlineStop)}
    {c : InlineContent} (hr : p.level.ruler.Excused F 0 t) (hs : s.Firm) (hn : n ≤ 6)
    (hinner : ∀ style u, style ∉ stops → u.source = t.source → u.Firm → u.Spare F 0 →
      Ends F (inner (style :: stops)) u (fun r v => Ended F p n (style :: stops) u r v) E)
    (h : Midway F p n s t c) :
    Ends F (inlineTurn p stops inner c) t (fun turn u => turn.Gives
      (fun r => Ended F p (n + 1) stops s r u)
      fun c => Midway F p n s u c ∧ u.pending.length < t.pending.length) E :=
  ends_inlineTurn_of_cases h.firm.sound h.spare (by omega) (h.cases hr hs hn hinner)

theorem length_le_of_nodup (h : stops.Nodup) : stops.length ≤ Style.all.length :=
  (List.subperm_of_subset h fun style _ => style.mem_all).length_le

theorem ends_inlines (hr : p.level.ruler.Excused F 0 s) (hs : s.Firm) (hstops : stops.Nodup)
    (hn : stops.length + n = 7) (hk : s.Spare F (20 + n)) :
    Ends F (inlines p n stops) s (fun r t => Ended F p n stops s r t) E := by
  induction n generalizing stops s with
  | zero =>
    have hle := length_le_of_nodup hstops
    rw [show Style.all.length = 6 from rfl] at hle
    omega
  | succ n ih =>
    refine Ends.loop (fun c t => Midway F p n s t c) hs.sound (.start hs (hk.mono (by omega))) ?_
    intro c t h
    have hr := hr.line h.onward.source
    refine ends_inlineTurn hr hs (by omega) (fun style u hmem hsrc hu hku => ?_) h
    refine ih (hr.line hsrc) hu (List.nodup_cons.2 ⟨hmem, hstops⟩) ?_ (hku.mono (by omega))
    rw [List.length_cons]
    omega

structure Paragraphed (F : Fault → Prop) (p : ParagraphContext) (s : Lexer Cursor) (b : Block)
    (t : Lexer Cursor) : Prop extends s.Onward t where
  firm : t.Firm
  ended : Over F p t
  spare : t.Spare F 28
  faithful : b.Faithful s.source
  start : b.start = s.nextOffset
  stop : b.stop = max t.observer.lastEnd s.nextOffset
  scans : p.mode ≠ .block → s.Scans t
  busy : p.mode = .block → (s.ahead 0).tag.isContent = true → s.nextOffset < t.observer.lastEnd

theorem foldl_max_eq {α : Type} (stop : α → Nat) {cs : List α} {m : Nat}
    (h : ∀ c ∈ cs, stop c ≤ m) : cs.foldl (fun m c => max m (stop c)) m = m := by
  induction cs with
  | nil => rfl
  | cons c cs ih =>
    rw [List.foldl_cons, Nat.max_eq_left (h c (by simp))]
    exact ih fun d hd => h d (by simp [hd])

theorem le_foldl_max {α : Type} (stop : α → Nat) (cs : List α) (m : Nat) :
    m ≤ cs.foldl (fun m c => max m (stop c)) m := by
  induction cs generalizing m with
  | nil => exact Nat.le_refl m
  | cons c cs ih => exact Nat.le_trans (Nat.le_max_left ..) (ih _)

theorem tidy_endFrom {src : Source} {start indent : Nat} (h : t.Steady) (hsrc : t.source = src)
    (hb : src.IsBoundary start) :
    Span.Tidy src ⟨start, max t.observer.lastEnd start, indent⟩ := by
  subst hsrc
  rcases Nat.le_total t.observer.lastEnd start with hle | hle
  · rw [Nat.max_eq_right hle]
    refine ⟨⟨Nat.le_refl _, hb, hb⟩, ?_⟩
    obtain ⟨as, bs, hchars, rfl⟩ := hb
    have := Text.slice_append_append as [] bs
    simp only [List.append_nil] at this
    rw [Source.slice, hchars, this]
    exact Text.not_dangles_nil
  · rw [Nat.max_eq_left hle]
    exact .of_before ⟨hle, hb, h.boundary⟩ h.not_dangles

theorem ends_paragraph (hr : p.level.ruler.Excused F 0 s) (hs : s.Firm) (hk : s.Spare F 26) :
    Ends F (paragraph p) s (fun b t => Paragraphed F p s b t) E := by
  refine Ends.bind (Ends.peek (.refl hs.sound) (by decide) hk (by decide) fun t ht hkt _ => ?_)
  rw [hs.sound.start_ahead]
  refine Ends.seq (ends_inlines (hr.line ht.source) (hs.looks ht) List.nodup_nil rfl hkt) ?_
  rintro ⟨children, ending⟩ u hu
  have hnext : t.nextOffset = s.nextOffset :=
    ht.nextOffset_eq hs.sound
  have hrow : Inlines s.source s.nextOffset (max u.observer.lastEnd s.nextOffset) children := by
    have := hu.row
    rwa [ht.source, hnext, Nat.max_comm] at this
  have hsrc : u.source = s.source := hu.onward.source.trans ht.source
  refine Ends.bind (Ends.endFrom (Ends.pure ?_))
  rw [foldl_max_eq (fun c : Inline => c.span.stop) fun c hc => hrow.stop_le c hc]
  have htell : Inline.Tell s.source s.nextOffset (max u.observer.lastEnd s.nextOffset)
      children := by
    have hall := hu.tell
    rw [ht.source, hnext] at hall
    have hle := hu.firm.lastEnd_le
    have hle' := (ht.onward.trans hu.onward).nextOffset_le hs.sound hu.firm.sound
    exact hall.shrink (by omega)
  refine ⟨ht.onward.trans hu.onward, hu.firm, ?_, hu.spare,
    ⟨⟨?_, hrow.ordered, hrow.fits⟩, htell.renders hrow⟩, rfl, rfl,
    fun hmode => (Lexer.Scans.of_looks ht).trans (hu.scans hmode), fun hmode hcontent => ?_⟩
  · have hst : Stopped F p [] u ending := hu.stopped
    cases hst with
    | close hhead => simp at hhead
    | interrupt hne => exact absurd rfl hne
    | lineEnd hne => exact absurd rfl hne
    | ran ho => exact ho
  · exact tidy_endFrom hu.firm.toSteady hsrc hs.sound.isBoundary_nextOffset
  · have := hu.busy hmode rfl (by rw [ht.ahead]; exact hcontent)
    rwa [hnext] at this

end Parse

end TaskMarkup
