import TaskMarkup.Proofs.Document.Excerpts
import TaskMarkup.Proofs.Grammar.Plain
import TaskMarkup.Proofs.Token.Verbatim

namespace TaskMarkup

structure InlineContent.Holds (start : Nat) (text : List Char) (c : InlineContent)
    (t : Lexer Cursor) : Prop where
  nodes : c.nodes = []
  start : (c.pending.map TextRun.start).getD t.nextOffset = start
  text : (c.pending.map TextRun.text).getD [] = text
  stop : ∀ r ∈ c.pending, r.stop = t.nextOffset

namespace InlineContent.Holds

variable {s t : Lexer Cursor} {c : InlineContent} {start indent : Nat} {text : List Char} {tok : Token}

theorem empty (t : Lexer Cursor) : InlineContent.Holds t.nextOffset [] {} t :=
  ⟨rfl, rfl, rfl, by simp⟩

theorem push (h : c.Holds start text s) (hs : s.Sound) (ht : t.Sound)
    (hsrc : t.source = s.source) (hp : s.pending = tok :: t.pending) (more : List Char) :
    (c.push tok more).Holds start (text ++ more) t := by
  have hpending : (c.push tok more).pending = some ⟨start, tok.stop, text ++ more⟩ := by
    rw [InlineContent.push, TextRun.extend_eq, hs.start_of_cons hp, h.start, h.text]
  have hp' : s.pending = [] ++ tok :: t.pending := hp
  have hstop : tok.stop = t.nextOffset := Lexer.stop_of_pending hs ht hsrc hp'
  refine ⟨h.nodes, by rw [hpending]; rfl, by rw [hpending]; rfl, fun r hr => ?_⟩
  rw [hpending] at hr
  obtain rfl := Option.some.inj hr
  exact hstop

theorem flush (h : c.Holds start text t) (hne : text ≠ []) :
    c.flush indent = [.text ⟨start, t.nextOffset, indent⟩ (String.ofList text)] := by
  obtain ⟨nodes, pending⟩ := c
  obtain ⟨rfl, hstart, htext, hstop⟩ := h
  cases pending with
  | none => exact absurd htext.symm hne
  | some r =>
    obtain ⟨rstart, rstop, rtext⟩ := r
    obtain rfl : rstart = start := hstart
    obtain rfl : rtext = text := htext
    obtain rfl : rstop = t.nextOffset := hstop _ rfl
    rfl

end InlineContent.Holds

namespace Parse

open Rule

variable {F : Fault → Prop} {E : Empty → Lexer Cursor → Prop} {s : Lexer Cursor} {k : Nat}
  {p : ParagraphContext} {stops : List Style} {c : InlineContent} {tok : Token} {ts : List Token}
  {cs : List Char} {inner : List Style → Parse (List Inline × InlineStop)}

theorem classified_of_begins (hbegins : Token.Begins s.pending) (h : Token.Verbatim s.pending cs) :
    classified s = .paragraph := by
  obtain ⟨t, rest, hp, ht⟩ := hbegins
  have hahead : s.ahead 0 = t := Lexer.ahead_zero_of_cons hp
  simp only [classified, hahead]
  rcases ht with htag | htag | htag
  · simp [htag]
  · -- Behind a number there is no dot.
    have hdot : (s.ahead 1).tag ≠ .dot := by
      rw [hp] at h
      cases h with
      | bare _ hrest =>
        rw [Lexer.ahead, hp, List.getD_cons_succ]
        cases rest with
        | nil => exact Tag.noConfusion
        | cons u rest => exact hrest.head_ne_dot u rfl
      | escaped hback => simp [hback] at htag
      | newline hnl => simp [hnl] at htag
    simp [htag, hdot]
  · simp [htag]

theorem announced_of_begins (room : Nat) (hbegins : Token.Begins s.pending)
    (h : Token.Verbatim s.pending cs) : announced room s = .paragraph := by
  simp [announced, classified_of_begins hbegins h, Marker.opensBody]

theorem ends_inlineTurn_escaped {back : Token} (hs : s.Sound) (hp : s.pending = back :: tok :: ts)
    (hback : back.tag = .backslash) (hline : tok.tag.endsLine = false) (hk : s.Spare F k)
    (hk' : k < 97) :
    Ends F (inlineTurn p stops inner c) s (fun turn u =>
      turn = .again ((c.push back []).push tok tok.text) ∧
        (∃ t, s.Eats back t ∧ t.Eats tok u ∧ u.pending = ts) ∧ u.Spare F 0) E := by
  refine Ends.bind (Ends.peek (.refl hs) (by decide) hk (by omega) fun t ht hkt _ => ?_)
  rw [Lexer.ahead_zero_of_cons hp, hback]
  refine Ends.seq (Q := fun c' u => c' = (c.push back []).push tok tok.text ∧
    (∃ t, s.Eats back t ∧ t.Eats tok u ∧ u.pending = ts) ∧ u.Spare F 0) ?_ ?_
  · refine Ends.bind (Ends.eat ht hkt (by omega) hp fun u hu hpu hku => ?_)
    refine Ends.bind (Ends.peekTag (.refl hu.sound) (by decide) hku (by decide)
      fun v hv hkv _ => ?_)
    rw [Lexer.ahead_zero_of_cons hpu, hline]
    exact Ends.bind (Ends.eat hv hkv (by decide) hpu fun w hw hpw hkw =>
      Ends.pure ⟨rfl, ⟨u, hu, hw, hpw⟩, hkw⟩)
  · rintro _ u ⟨rfl, hu⟩
    exact Ends.pure ⟨rfl, hu⟩

theorem ends_continueParagraph_verbatim (hs : s.Sound) (hp : s.pending = tok :: ts)
    (hbegins : Token.Begins ts) (h : Token.Verbatim ts cs) (hindent : p.indent = 0)
    (hk : s.Spare F k) (hk' : k < 98) :
    Ends F (continueParagraph p) s (fun r t => r = some tok ∧ t.Sound ∧ t.source = s.source ∧
      t.pending = ts ∧ t.Spare F 5) E := by
  refine Ends.bind (Ends.eat (.refl hs) hk hk' hp fun t ht hpt hkt => ?_)
  obtain ⟨first, rest, rfl, hfirst⟩ := hbegins
  have hspace : first.tag.isInlineSpace = false := by
    rcases hfirst with htag | htag | htag <;> rw [htag] <;> rfl
  have hline : first.tag.endsLine = false := by
    rcases hfirst with htag | htag | htag <;> rw [htag] <;> rfl
  rw [← Lexer.ahead_zero_of_cons hpt] at hspace
  refine Ends.seq (ends_measureIndent_zero ht.sound hspace hkt (by decide)) ?_
  rintro _ u ⟨rfl, hu, hpu, -, hku⟩
  rw [hpt] at hpu
  refine Ends.bind (Ends.peekTag (.refl hu.sound) (by decide) hku (by decide) fun v hv hkv _ => ?_)
  rw [Lexer.ahead_zero_of_cons hpu, hline]
  refine Ends.bind (Ends.setLineIndent ?_)
  rw [hindent]
  refine Ends.seq (ends_announced hv.sound.onCursor hkv.onCursor (by decide)) ?_
  rintro _ w ⟨hw, hkw, rfl⟩
  have hpv : (v.onCursor (.onLine (some 0))).pending = first :: rest := hv.pending.trans hpu
  have hbegins : Token.Begins (v.onCursor (.onLine (some 0))).pending :=
    ⟨first, rest, hpv, hfirst⟩
  have hverb : Token.Verbatim (v.onCursor (.onLine (some 0))).pending cs := by rwa [hpv]
  rw [if_pos (announced_of_begins p.level.room hbegins hverb)]
  refine Ends.pure ⟨rfl, hw.sound, ?_, hw.pending.trans hpv, hkw⟩
  exact hw.source.trans (hv.source.trans (hu.source.trans ht.source))

structure Recounts (F : Fault → Prop) (src : Source) (start : Nat) (text : List Char)
    (c : InlineContent) (t : Lexer Cursor) : Prop where
  sound : t.Sound
  source : t.source = src
  spare : t.Spare F 30
  rest : ∃ done todo, text = done ++ todo ∧ c.Holds start done t ∧ Token.Verbatim t.pending todo

theorem ends_inlineTurn_recounts {src : Source} {start : Nat} {text : List Char}
    (hmode : p.mode = .block) (hindent : p.indent = 0) (h : Recounts F src start text c s) :
    Ends F (inlineTurn p [] inner c) s (fun turn t => turn.Gives
      (fun r => r.1 = c.flush p.indent ∧ c.Holds start text t ∧ t.Sound ∧ t.source = src ∧
        t.pending = [])
      fun c' => Recounts F src start text c' t ∧ t.pending.length < s.pending.length) E := by
  obtain ⟨hs, hsrc, hk, done, todo, rfl, hc, hverb⟩ := h
  -- What a turn leaves behind that has eaten these tokens for this text.
  have hmore (ts : List Token) (text : List Char) {us : List Token} {cs : List Char}
      {c' : InlineContent} {t : Lexer Cursor}
      (hp : s.pending = ts ++ us) (hts : ts ≠ []) (ht : t.Sound) (hst : t.source = s.source)
      (hpt : t.pending = us) (hkt : t.Spare F 5) (hrest : Token.Verbatim us cs)
      (hc' : c'.Holds start (done ++ text) t) : Recounts F src start (done ++ (text ++ cs)) c' t ∧
        t.pending.length < s.pending.length := by
    refine ⟨⟨ht, hst.trans hsrc, hkt.mono (by decide), _, cs, by rw [List.append_assoc], hc', ?_⟩, ?_⟩
    · rwa [hpt]
    · have := List.length_pos_of_ne_nil hts
      rw [hpt, hp, List.length_append]
      omega
  obtain ⟨ts, hp⟩ : ∃ ts, s.pending = ts := ⟨_, rfl⟩
  rw [hp] at hverb
  cases hverb with
  | nil =>
    refine Ends.bind (Ends.peek (.refl hs) (by decide) hk (by decide) fun t ht _ _ => ?_)
    rw [Lexer.ahead_zero_of_nil hp]
    refine Ends.pure ⟨rfl, ?_, ht.sound, ht.source.trans hsrc, ht.pending.trans hp⟩
    have hnext := ht.nextOffset_eq hs
    rw [List.append_nil]
    exact ⟨hc.nodes, by rw [hnext]; exact hc.start, hc.text, by rw [hnext]; exact hc.stop⟩
  | @bare tok us cs hbare hrest =>
    have hliteral : tok.tag.isLiteral p.mode = true := by
      revert hbare
      cases tok.tag <;> simp [Tag.isBare, Tag.isLiteral]
    refine (ends_inlineTurn_literal hs hp hliteral hk (by decide)).imp ?_
    rintro _ t ⟨rfl, ht, hpt, hkt⟩
    exact hmore [tok] tok.text hp (by simp) ht.sound ht.source hpt (hkt.mono (by decide)) hrest
      (hc.push hs ht.sound ht.source ht.pending _)
  | @escaped back tok us cs hback hline hrest =>
    refine (ends_inlineTurn_escaped hs hp hback hline hk (by decide)).imp ?_
    rintro _ u ⟨rfl, ⟨t, ht, hu, hpu⟩, hku⟩
    have hc' := (hc.push hs ht.sound ht.source ht.pending []).push ht.sound hu.sound hu.source
      hu.pending tok.text
    rw [List.append_nil] at hc'
    exact hmore [back, tok] tok.text hp (by simp) hu.sound (hu.source.trans ht.source) hpu
      (hku.mono (by decide)) hrest hc'
  | @newline nl us cs hnl hbegins hrest =>
    refine Ends.bind (Ends.peek (.refl hs) (by decide) hk (by decide) fun t ht hkt _ => ?_)
    rw [Lexer.ahead_zero_of_cons hp, hnl]
    simp only [List.any_nil, Bool.false_eq_true, if_false, hmode, ne_eq, not_true_eq_false]
    refine Ends.seq (ends_continueParagraph_verbatim ht.sound (ht.pending.trans hp) hbegins hrest
      hindent hkt (by decide)) ?_
    rintro _ u ⟨rfl, hu, hsu, hpu, hku⟩
    have hsu := hsu.trans ht.source
    have hpending : s.pending = nl :: u.pending := by rw [hp, hpu]
    exact Ends.pure (hmore [nl] ['\n'] hp (by simp) hu hsu hpu hku hrest
      (hc.push hs hu hsu hpending _))

theorem ends_paragraph_verbatim {text : List Char} (hmode : p.mode = .block)
    (hindent : p.indent = 0) (hs : s.Sound) (hk : s.Spare F 24)
    (hverb : Token.Verbatim s.pending text) (hne : text ≠ []) :
    Ends F (paragraph p) s (fun b t => t.pending = [] ∧
      b = .paragraph ⟨s.nextOffset, max (max t.observer.lastEnd s.nextOffset) s.source.size, 0⟩
        [.text ⟨s.nextOffset, s.source.size, 0⟩ (String.ofList text)]) E := by
  refine Ends.bind (Ends.peek (.refl hs) (by decide) hk (by decide) fun t ht hkt _ => ?_)
  rw [hs.start_ahead]
  have hnext := ht.nextOffset_eq hs
  refine Ends.seq (Q := fun r u => r.1 = [.text ⟨s.nextOffset, s.source.size, 0⟩
    (String.ofList text)] ∧ u.pending = []) ?_ ?_
  · refine Ends.loop (Recounts F s.source s.nextOffset text) ht.sound ?_ fun c u hu => ?_
    · refine ⟨ht.sound, ht.source, hkt.mono (by decide), [], text, rfl, ?_, ?_⟩
      · rw [← hnext]
        exact .empty t
      · rwa [ht.pending]
    · refine (ends_inlineTurn_recounts hmode hindent hu).imp fun turn v hv => ?_
      cases turn with
      | again c' => exact hv
      | done r =>
        obtain ⟨hr, hc, hv, hsrc, hpv⟩ := hv
        have hsize : v.nextOffset = s.source.size := by simp [hv.nextOffset_eq, hpv, hsrc]
        exact ⟨by rw [hr, hc.flush hne, hsize, hindent], hpv⟩
  · rintro r u ⟨hr, hpu⟩
    obtain ⟨nodes, ending⟩ := r
    obtain rfl := hr
    refine Ends.bind (Ends.endFrom (Ends.pure ⟨hpu, ?_⟩))
    rw [hindent]
    rfl

theorem ends_opened_verbatim (level : Level) (body : Nat → Parse (List Block)) {text : List Char}
    (hs : s.Sound) (hk : s.Spare F 21) (hbegins : Token.Begins s.pending)
    (hverb : Token.Verbatim s.pending text) (hne : text ≠ []) :
    Ends F (opened level body 0) s (fun b t => t.pending = [] ∧
      b = .paragraph ⟨s.nextOffset, max (max t.observer.lastEnd s.nextOffset) s.source.size, 0⟩
        [.text ⟨s.nextOffset, s.source.size, 0⟩ (String.ofList text)]) E := by
  refine ends_opened_announced level body 0 hs (announced_of_begins level.room hbegins hverb) hk
    (by decide) fun t ht hkt => ?_
  have hparagraph := ends_paragraph_verbatim (F := F) (E := E) (p := ⟨level, 0, .block⟩) rfl rfl
    ht.sound hkt (ht.pending_eq ▸ hverb) hne
  rwa [ht.nextOffset_eq hs, ht.source] at hparagraph

end Parse

namespace Document

variable {o : Options}

theorem blocks_verbatim {source text : List Char} (hpeeks : 100 ≤ o.maxPeeks)
    (hbegins : Token.Begins (tokenize source)) (hverb : Token.Verbatim (tokenize source) text) :
    blocks o (String.ofList source) = .ok [.paragraph ⟨0, Text.byteSize source, 0⟩
      [.text ⟨0, Text.byteSize source, 0⟩ (String.ofList text)]] := by
  obtain ⟨t, rest, htoks, ht⟩ := id hbegins
  have hne : text ≠ [] := hverb.ne_nil (fun _ ht => spelled_of_mem_tokenize ht) (by simp [htoks])
  have hcontent : ((tokenize source).head?.map Token.tag).any Tag.isContent = true := by
    rw [htoks]
    rcases ht with htag | htag | htag <;> simp [htag, Tag.isContent_iff, Tag.isInlineSpace,
      Tag.endsLine]
  let whole : Span := ⟨0, Text.byteSize source, 0⟩
  obtain ⟨f, b, g, ⟨stop, hle, rfl⟩, hspans, hsize, hblocks⟩ := Reader.exists_blocks
    (P := fun b _ => ∃ stop, Text.byteSize source ≤ stop ∧
      b = .paragraph ⟨0, stop, 0⟩ [.text whole (String.ofList text)]) hpeeks hcontent
    (fun _ => False.elim) fun f hf => by
    have hread := Parse.ends_opened_verbatim (F := fun _ => False) (E := fun e _ => e.elim) o.level
      (Parse.body o.level.ruler o.level.room) hf.steady.sound (.inr hf.spare)
      (hf.pending ▸ hbegins) (hf.pending ▸ hverb) hne
    rw [hf.nextOffset_eq_zero, f.source.size_eq, hf.source] at hread
    exact hread.imp fun b g hb => ⟨⟨_, Nat.le_max_right .., hb.2⟩, hb.1⟩
  have hstop : stop = g.observer.lastEnd := hspans.covers (by simp)
  have hlast := hspans.steady.lastEnd_le
  obtain rfl : stop = Text.byteSize source := by omega
  exact hblocks

/-- Escaped lines make one paragraph, and the only node in it is their text. -/
theorem blocks_escaped (o : Options) (lines : List String) (hpeeks : 100 ≤ o.maxPeeks)
    (hne : lines ≠ []) (hlines : ∀ line ∈ lines, line ≠ "" ∧ '\n' ∉ line.toList) :
    let source := "\n".intercalate
      (lines.map fun line => String.ofList (Text.escapeLine line.toList))
    let whole : Span := ⟨0, (Source.ofString source).size, 0⟩
    blocks o source = .ok [.paragraph whole [.text whole ("\n".intercalate lines)]] := by
  intro source whole
  let text := ['\n'].intercalate (lines.map String.toList)
  have htext : String.ofList text = "\n".intercalate lines := by
    rw [← String.ofList_toList (s := "\n".intercalate lines), String.toList_intercalate]
    rfl
  have hlines' : ∀ line ∈ lines.map String.toList, line ≠ [] ∧ '\n' ∉ line := by
    intro line hline
    obtain ⟨line, hmem, rfl⟩ := List.mem_map.1 hline
    obtain ⟨hempty, hnewline⟩ := hlines line hmem
    exact ⟨fun hnil => hempty (String.toList_eq_nil_iff.1 hnil), hnewline⟩
  have htexts : Token.texts (tokenize source.toList) =
      ['\n'].intercalate ((lines.map String.toList).map Text.escapeLine) := by
    rw [texts_tokenize, String.toList_intercalate, List.map_map, List.map_map]
    simp [Function.comp_def]
  obtain ⟨hverb, hbegins⟩ := Token.verbatim_lines (by simpa using hne) hlines'
    (fun t ht => spelled_of_mem_tokenize ht) htexts
  have hblocks := blocks_verbatim hpeeks hbegins hverb
  rw [String.ofList_toList, htext] at hblocks
  exact hblocks

theorem blocks_escaped_markup :
    let lines := [" - a", "1. *b*"]
    100 ≤ ({} : Options).maxPeeks ∧ lines ≠ [] ∧
      (∀ line ∈ lines, line ≠ "" ∧ '\n' ∉ line.toList) ∧
      "\n".intercalate (lines.map fun line => String.ofList (Text.escapeLine line.toList)) =
        "\\ \\- a\n1\\. \\*b\\*" ∧
      blocks {} "\\ \\- a\n1\\. \\*b\\*" = .ok [.paragraph ⟨0, 16, 0⟩
        [.text ⟨0, 16, 0⟩ " - a\n1. *b*"]] := by
  intro lines
  have hne : lines ≠ [] := List.cons_ne_nil _ _
  have hlines : ∀ line ∈ lines, line ≠ "" ∧ '\n' ∉ line.toList := by decide
  have hsource :
      "\n".intercalate (lines.map fun line => String.ofList (Text.escapeLine line.toList)) =
        "\\ \\- a\n1\\. \\*b\\*" := by decide +kernel
  refine ⟨Nat.le_refl _, hne, hlines, hsource, ?_⟩
  have hblocks := blocks_escaped {} lines (Nat.le_refl _) hne hlines
  rw [hsource] at hblocks
  exact hblocks

end Document

end TaskMarkup
