import TaskMarkup.Proofs.Grammar.Plain
import TaskMarkup.Proofs.Grammar.Paragraph
import TaskMarkup.Proofs.Token.Prose

namespace TaskMarkup

namespace Style

variable {stops : List Style} {style : Style}

theorem choose_of_shorter (h : ∀ s ∈ stops, s.mark.1 = style.mark.1 → style.length < s.length) :
    choose stops style.mark.1 style.length = some style := by
  have hopen : ∀ s ∈ stops.filter fun s => s.mark.1 = style.mark.1, style.length < s.length :=
    fun s hs => by
      simp only [List.mem_filter, decide_eq_true_eq] at hs
      exact h s hs.1 hs.2
  have hequal : (stops.filter fun s => s.mark.1 = style.mark.1).find?
      (·.length = style.length) = none :=
    List.find?_eq_none.2 fun s hs => by simpa using Nat.ne_of_gt (hopen s hs)
  have hless : (stops.filter fun s => s.mark.1 = style.mark.1).find?
      (·.length ≤ style.length) = none :=
    List.find?_eq_none.2 fun s hs => by simpa using hopen s hs
  rw [choose, hequal, hless]
  cases style <;> rfl

theorem choose_head (style : Style) (outer : List Style) :
    choose (style :: outer) style.mark.1 style.length = some style := by
  simp [choose]

theorem ne_word (style : Style) : style.mark.1 ≠ .word := by cases style <;> decide

variable {ds rest : List Token}

theorem Marks.length (h : style.Marks ds) : ds.length = style.length := by
  simpa using congrArg List.length h

theorem Marks.exists_cons (h : style.Marks ds) : ∃ tok ds', ds = tok :: ds' ∧
    tok.tag = style.mark.1 := by
  cases ds with
  | nil => exact absurd h.length (Nat.ne_of_lt style.length_pos)
  | cons tok ds' =>
    refine ⟨tok, ds', rfl, ?_⟩
    have hmem : tok.tag ∈ List.replicate style.length style.mark.1 := h ▸ by simp
    exact List.eq_of_mem_replicate hmem

theorem Marks.run {tok : Token} (h : style.Marks ds) (htok : tok.tag = style.mark.1)
    (hrest : Token.Quiet rest) : tok.run (ds ++ rest) = ds := by
  have hds : ∀ t ∈ ds, (t.tag == tok.tag) = true := fun t ht => by
    have hmem : t.tag ∈ List.replicate style.length style.mark.1 := h ▸ List.mem_map_of_mem ht
    rw [List.eq_of_mem_replicate hmem, htok, beq_self_eq_true]
  rw [Token.run, List.takeWhile_append_of_pos hds]
  cases rest with
  | nil => simp
  | cons t rest =>
    have hword : t.tag ≠ tok.tag := by
      rw [hrest t rfl, htok]
      exact style.ne_word.symm
    simp [hword]

end Style

theorem Prose.Written.exists_head {outer : List Style} {rest ts : List Token} {ps : List Prose}
    (h : Prose.Written outer rest ps ts) (hne : ps ≠ []) : ∃ tok ts', ts = tok :: ts' ∧
      (tok.tag = .word ∨ ∃ style : Style, tok.tag = style.mark.1) := by
  cases h with
  | nil => exact absurd rfl hne
  | text htok => exact ⟨_, _, rfl, .inl htok⟩
  | @styled _ _ _ _ _ _ style _ _ _ hopening =>
    obtain ⟨tok, opening, rfl, htok⟩ := hopening.exists_cons
    exact ⟨tok, _, rfl, .inr ⟨style, htok⟩⟩

inductive Prose.Stops : List Style → List Token → InlineStop → Prop
  | ended : Stops [] [] .over
  | close {style : Style} {outer : List Style} {closing after : List Token} :
      style.Marks closing → Token.Quiet after → Stops (style :: outer) (closing ++ after) .close

namespace Parse

open Rule

variable {F : Fault → Prop} {E : Empty → Lexer Cursor → Prop} {s t : Lexer Cursor} {k n : Nat}
  {p : ParagraphContext} {stops : List Style} {style : Style} {c : InlineContent} {tok : Token}
  {ds body rest after : List Token} {inner : List Style → Parse (List Inline × InlineStop)}

theorem ends_eatDelimiters (hs : s.Firm) (hds : style.Marks ds) (hp : s.pending = ds ++ rest)
    (hrest : Token.Quiet rest) (hk : s.Spare F k) (hk' : k < 97) :
    Ends F (eatMany style.length) s (fun _ t => s.Reads t ∧ t.pending = rest ∧
      t.nextOffset = s.nextOffset + style.length ∧ t.Spare F 0) E := by
  have hlen := hds.length
  have hpos := style.length_pos
  obtain ⟨tok, ds', rfl, htok⟩ := hds.exists_cons
  obtain ⟨⟨c, hc, -⟩, hnl⟩ := style.exists_char
  rw [← htok] at hc hnl
  have hrun := hds.run htok hrest
  rw [← hp] at hrun
  refine (Ends.eatMany_append hs.sound hp hlen hk (by omega)).imp ?_
  rintro - t ⟨ht, hpt, hkt⟩
  rw [if_neg (by omega)] at hkt
  have htake : s.pending.take style.length = tok :: ds' := by rw [hp, ← hlen, List.take_left]
  rw [← htake] at ht
  obtain ⟨hreads, hnext⟩ := ht.reads_run hs.sound hp (by rw [hrun, hlen]) hpos hc hnl
  exact ⟨hreads, hpt, hnext, hkt⟩

theorem ends_inlineTurn_delimiters {Q : Turn (List Inline × InlineStop) InlineContent →
      Lexer Cursor → Prop} {chosen : Style} (hs : s.Sound) (hds : style.Marks ds)
    (hp : s.pending = ds ++ rest) (hrest : Token.Quiet rest)
    (hchoose : Style.choose stops style.mark.1 style.length = some chosen)
    (hk : s.Spare F k) (hk' : k < 97)
    (h : ∀ t, s.Looks t → t.Spare F (k + 1) → Ends F (do
      if stops.head? = some chosen then return Turn.done (c.flush p.indent, .close)
      else if chosen ∈ stops then return Turn.done (c.flush p.indent, .interrupt)
      else
        let (node, ending) ← styled p.indent chosen (inner (chosen :: stops))
        let c := c.add p.indent node
        return if ending = .over then .done (c.nodes, .over) else .again c) t Q E) :
    Ends F (inlineTurn p stops inner c) s Q E := by
  obtain ⟨tok, ds', rfl, htok⟩ := hds.exists_cons
  obtain ⟨⟨char, hchar, -⟩, -⟩ := style.exists_char
  have hrun := hds.run htok hrest
  rw [← hp] at hrun
  refine Ends.bind (Ends.peek (.refl hs) (by decide) hk (by omega) fun t ht hkt _ => ?_)
  rw [Lexer.ahead_zero_of_cons hp]
  have hrepeats := Ends.repeats (F := F) (E := E) ht.sound (ht.pending.trans hp) (htok ▸ hchar)
  rw [ht.pending, hrun, hds.length] at hrepeats
  rw [← htok] at hchoose
  have hmark : tok.tag = .asterisk ∨ tok.tag = .tilde ∨ tok.tag = .caret := by
    rw [htok]
    cases style <;> simp [Style.mark]
  rcases hmark with htag | htag | htag
  all_goals
    rw [htag] at hchoose ⊢
    refine Ends.seq hrepeats ?_
    rintro _ _ ⟨rfl, rfl⟩
    rw [hchoose]
    exact h _ ht hkt

structure Reproduces (i : Nat) (s : Lexer Cursor) (ps : List Prose)
    (rest : List Token) (nodes : List Inline) (t : Lexer Cursor) : Prop where
  firm : t.Firm
  source : t.source = s.source
  lastEnd : t.observer.lastEnd = t.nextOffset
  nextOffset : t.nextOffset = s.nextOffset + Text.byteSize (Prose.renderAll ps)
  nodes : nodes = Prose.inlines i s.nextOffset ps
  pending : t.pending = rest

theorem ends_styled_prose {opening closing : List Token} {i : Nat}
    {inner : Parse (List Inline × InlineStop)} (cs : List Prose) (hs : s.Firm)
    (hp : s.pending = opening ++ body)
    (hopening : style.Marks opening) (hbody : Token.Quiet body) (hclosing : style.Marks closing)
    (hafter : Token.Quiet after) (hk : s.Spare F k) (hk' : k < 96)
    (hinner : ∀ t, t.Firm → t.source = s.source → t.observer.lastEnd = t.nextOffset →
      t.pending = body → t.Spare F 0 → Ends F inner t (fun r u => r.2 = .close ∧
        Reproduces i t cs (closing ++ after) r.1 u ∧ u.Spare F 31) E) :
    Ends F (styled i style inner) s (fun r t => r.2 = .close ∧
      Reproduces i s [.styled style cs] after [r.1] t ∧ t.Spare F 0) E := by
  refine Ends.bind (Ends.peek (.refl hs.sound) (by decide) hk (by omega) fun t ht hkt _ => ?_)
  rw [hs.sound.start_ahead]
  have hft := hs.looks ht
  have hnextt := ht.nextOffset_eq hs.sound
  refine Ends.seq (ends_eatDelimiters hft hopening (ht.pending.trans hp) hbody hkt (by omega)) ?_
  rintro - u ⟨hu, hpu, hnextu, hku⟩
  have hlastu := hu.lastEnd_eq hft.toSteady
  have hsrcu := hu.source.trans ht.source
  refine Ends.bind (Ends.endFrom (Ends.seq (hinner u (hu.firm hft) hsrcu hlastu hpu hku) ?_))
  rintro ⟨children, ending⟩ v ⟨hclose, hv, hkv⟩
  obtain rfl : ending = .close := hclose
  simp only [if_true]
  refine Ends.seq (ends_eatDelimiters hv.firm hclosing hv.pending hafter hkv (by decide)) ?_
  rintro - w ⟨hw, hpw, hnextw, hkw⟩
  have hlastw := hw.lastEnd_eq hv.firm.toSteady
  have hsize : w.nextOffset = s.nextOffset + Text.byteSize (Prose.render (.styled style cs)) := by
    have hnextv := hv.nextOffset
    simp only [Prose.render, Text.byteSize_append, Text.byteSize_delimiters]
    omega
  refine Ends.bind (Ends.cursor (Ends.pure ⟨rfl, ⟨hw.firm hv.firm, ?_, hlastw, ?_, ?_, hpw⟩, hkw⟩))
  · exact hw.source.trans (hv.source.trans hsrcu)
  · rw [hsize]
    simp [Prose.renderAll]
  · have hchildren : children = Prose.inlines i u.nextOffset cs := hv.nodes
    rw [hlastw, hsize, hchildren, hnextu, hnextt]
    rfl

structure Composes (F : Fault → Prop) (i : Nat) (s : Lexer Cursor) (outer : List Style)
    (done todo : List Prose) (rest : List Token) (c : InlineContent) (t : Lexer Cursor) : Prop where
  firm : t.Firm
  source : t.source = s.source
  lastEnd : t.observer.lastEnd = t.nextOffset
  spare : t.Spare F 30
  word : ∀ tok ∈ t.pending.head?, tok.tag = .word → c.pending = none
  flush : c.flush i = Prose.inlines i s.nextOffset done
  nextOffset : t.nextOffset = s.nextOffset + Text.byteSize (Prose.renderAll done)
  written : Prose.Written outer rest todo t.pending

namespace Composes

variable {outer : List Style} {done todo cs : List Prose} {ts : List Token} {u v : Lexer Cursor}
  {i : Nat} {node : Inline}

theorem reproduces (h : Composes F i s outer done [] rest c t) (hu : t.Looks u)
    (hp : t.pending = rest) : Reproduces i s done rest (c.flush i) u := by
  have hnext := hu.nextOffset_eq h.firm.sound
  exact ⟨h.firm.looks hu, hu.source.trans h.source, by rw [hu.observer, h.lastEnd, hnext],
    hnext.trans h.nextOffset, h.flush, hu.pending.trans hp⟩

theorem text (h : Composes F i s outer done (.text tok.text :: todo) rest c t)
    (htok : tok.tag = .word) (hts : ∀ u ∈ ts.head?, u.tag ≠ .word)
    (hrest : Prose.Written outer rest todo ts) (hu : t.Eats tok u) (hpu : u.pending = ts)
    (hk : u.Spare F 0) :
    Composes F i s outer (done ++ [.text tok.text]) todo rest (c.push tok tok.text) u := by
  have hreads := hu.reads (by simp [htok])
  have hstop := hu.stop_eq h.firm.sound
  have hstart := h.firm.sound.start_of_cons hu.pending
  have hfresh : c.pending = none := h.word tok (by simp [hu.pending]) htok
  refine ⟨hreads.firm h.firm, hu.source.trans h.source, hreads.lastEnd_eq h.firm.toSteady,
    hk.mono (by decide), ?_, ?_, ?_, hpu ▸ hrest⟩
  · intro next hnext hnextword
    exact absurd hnextword (hts next (hpu ▸ hnext))
  · have hpush : (c.push tok tok.text).flush i = c.flush i ++
        [.text ⟨tok.start, tok.stop, i⟩ (String.ofList tok.text)] := by
      simp [InlineContent.flush, InlineContent.push, hfresh, TextRun.extend, TextRun.toInline]
    rw [hpush, h.flush, Prose.inlines_concat, ← h.nextOffset, ← hstart]
    rfl
  · rw [← hstop, Token.stop, Token.size, hstart, h.nextOffset, Prose.renderAll_append,
      Text.byteSize_append]
    simp [Prose.renderAll, Prose.render, Nat.add_assoc]

theorem styled (h : Composes F i s outer done (.styled style cs :: todo) rest c t)
    (hrest : Prose.Written outer rest todo ts) (hu : t.Looks u)
    (hv : Reproduces i u [.styled style cs] ts [node] v) (hk : v.Spare F 0) :
    Composes F i s outer (done ++ [.styled style cs]) todo rest (c.add i node) v := by
  have hnext := hu.nextOffset_eq h.firm.sound
  refine ⟨hv.firm, hv.source.trans (hu.source.trans h.source), hv.lastEnd, hk.mono (by decide),
    fun _ _ _ => rfl, ?_, ?_, hv.pending ▸ hrest⟩
  · have hnode : [node] = Prose.inlines i u.nextOffset [.styled style cs] := hv.nodes
    rw [InlineContent.flush_add, h.flush, hnode, hnext, h.nextOffset, Prose.inlines_concat]
    rfl
  · rw [hv.nextOffset, hnext, h.nextOffset, Prose.renderAll_append, Text.byteSize_append,
      Nat.add_assoc]

end Composes

theorem ends_inlineTurn_composes {done todo : List Prose} {ending : InlineStop}
    (hinner : ∀ style cs rest toks t,
      (∀ s ∈ stops, s.mark.1 = style.mark.1 → style.length < s.length) →
      Prose.Stops (style :: stops) rest .close → Prose.Written (style :: stops) rest cs toks →
      t.Firm → t.source = s.source → t.observer.lastEnd = t.nextOffset → t.pending = toks →
      t.Spare F 0 → Ends F (inner (style :: stops)) t (fun r u => r.2 = .close ∧
        Reproduces p.indent t cs rest r.1 u ∧ u.Spare F 31) E)
    (hstops : Prose.Stops stops rest ending) (h : Composes F p.indent s stops done todo rest c t) :
    Ends F (inlineTurn p stops inner c) t (fun turn u => turn.Gives
      (fun r => r.2 = ending ∧ Reproduces p.indent s (done ++ todo) rest r.1 u ∧ u.Spare F 31)
      fun c' => (∃ done' todo', done ++ todo = done' ++ todo' ∧
        Composes F p.indent s stops done' todo' rest c' u) ∧
          u.pending.length < t.pending.length) E := by
  have hsound := h.firm.sound
  have hwritten := h.written
  obtain ⟨toks, hp⟩ : ∃ toks, t.pending = toks := ⟨_, rfl⟩
  rw [hp] at hwritten ⊢
  cases hwritten with
  | nil =>
    rw [List.append_nil]
    cases hstops with
    | ended =>
      refine Ends.bind (Ends.peek (.refl hsound) (by decide) h.spare (by decide)
        fun u hu hku _ => ?_)
      rw [Lexer.ahead_zero_of_nil hp]
      exact Ends.pure ⟨rfl, h.reproduces hu hp, hku⟩
    | @close style outer closing after hclosing hafter =>
      refine ends_inlineTurn_delimiters hsound hclosing hp hafter (style.choose_head outer) h.spare
        (by decide) fun u hu hku => ?_
      rw [List.head?_cons, if_pos rfl]
      exact Ends.pure ⟨rfl, h.reproduces hu hp, hku⟩
  | @text _ _ ts tok todo htok hts hrest =>
    refine (ends_inlineTurn_literal hsound hp (by rw [htok]; rfl) h.spare (by decide)).imp ?_
    rintro _ u ⟨rfl, hu, hpu, hku⟩
    refine ⟨⟨_, todo, by simp, h.text htok hts hrest hu hpu hku⟩, ?_⟩
    rw [hpu]
    exact Nat.lt_succ_self _
  | @styled _ _ body ts opening closing style cs todo hshort hopening hclosing hbody hts hcs
      hrest =>
    have hnew : style ∉ stops := fun hmem => Nat.lt_irrefl _ (hshort style hmem rfl)
    refine ends_inlineTurn_delimiters hsound hopening hp hbody (Style.choose_of_shorter hshort)
      h.spare (by decide) fun u hu hku => ?_
    rw [if_neg fun hhead => hnew (List.mem_of_head? hhead), if_neg hnew]
    refine Ends.seq (ends_styled_prose cs (h.firm.looks hu) (hu.pending.trans hp) hopening hbody
      hclosing hts hku (by decide) fun v hv hsrcv hlastv hpv hkv => ?_) ?_
    · exact hinner style cs _ body v hshort (.close hclosing hts) hcs hv
        (hsrcv.trans (hu.source.trans h.source)) hlastv hpv hkv
    · rintro ⟨node, stop⟩ v ⟨hclose, hv, hkv⟩
      obtain rfl : stop = .close := hclose
      refine Ends.pure ⟨⟨_, todo, by simp, h.styled hrest hu hv hkv⟩, ?_⟩
      have hle := hcs.suffix.length_le
      have hpos := style.length_pos
      have hlen := hopening.length
      rw [hv.pending, List.length_append]
      rw [List.length_append] at hle
      omega

theorem ends_inlines_prose {ps : List Prose} {ending : InlineStop} {toks : List Token}
    (hs : s.Firm) (hlast : s.observer.lastEnd = s.nextOffset) (hk : s.Spare F 30)
    (hnodup : stops.Nodup) (hn : stops.length + n = 7) (hstops : Prose.Stops stops rest ending)
    (hwritten : Prose.Written stops rest ps toks) (hp : s.pending = toks) :
    Ends F (inlines p n stops) s (fun r t => r.2 = ending ∧ Reproduces p.indent s ps rest r.1 t ∧
      t.Spare F 31) E := by
  -- By induction on the room for loops inside one another, of which each span takes one.
  induction n generalizing stops s ps ending rest toks with
  | zero =>
    have hle : stops.length ≤ 6 := length_le_of_nodup hnodup
    omega
  | succ n ih =>
    refine Ends.loop (fun c t => ∃ done todo, ps = done ++ todo ∧
      Composes F p.indent s stops done todo rest c t) hs.sound
      ⟨[], ps, rfl, hs, rfl, hlast, hk, fun _ _ _ => rfl, rfl, by simp [Prose.renderAll],
        hp ▸ hwritten⟩ ?_
    rintro c t ⟨done, todo, rfl, ht⟩
    refine ends_inlineTurn_composes (fun style cs rest toks u hshort hclose hcs hu hsrc hlast hpu
      hku => ?_) hstops ht
    have hnew : style ∉ stops := fun hmem => Nat.lt_irrefl _ (hshort style hmem rfl)
    exact ih hu hlast (hku.mono (by decide)) (List.nodup_cons.2 ⟨hnew, hnodup⟩)
      (by rw [List.length_cons]; omega) hclose hcs hpu

theorem ends_paragraph_prose {ps : List Prose} (hs : s.Firm)
    (hlast : s.observer.lastEnd = s.nextOffset) (hk : s.Spare F 29)
    (hwritten : Prose.Written [] [] ps s.pending) :
    Ends F (paragraph p) s (fun b t => ∃ stop,
      b = .paragraph ⟨s.nextOffset, stop, p.indent⟩ (Prose.inlines p.indent s.nextOffset ps) ∧
      t.pending = [] ∧ t.observer.lastEnd = t.nextOffset) E := by
  refine Ends.bind (Ends.peek (.refl hs.sound) (by decide) hk (by decide) fun t ht hkt _ => ?_)
  rw [hs.sound.start_ahead]
  have hnext := ht.nextOffset_eq hs.sound
  refine Ends.seq (ends_inlines_prose (hs.looks ht) (by rw [ht.observer, hlast, hnext]) hkt
    List.nodup_nil rfl .ended hwritten ht.pending) ?_
  rintro ⟨children, ending⟩ u ⟨-, hu, -⟩
  have hchildren : children = Prose.inlines p.indent t.nextOffset ps := hu.nodes
  rw [hnext] at hchildren
  exact Ends.bind (Ends.endFrom (Ends.pure ⟨_, by rw [hchildren], hu.pending, hu.lastEnd⟩))

end Parse

end TaskMarkup
