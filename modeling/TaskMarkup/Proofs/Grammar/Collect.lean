import TaskMarkup.Grammar.Inline
import TaskMarkup.Proofs.Lexer.Onward
import TaskMarkup.Proofs.Span.Leaves

namespace TaskMarkup

variable {src : Source} {lo mid hi : Nat} {indent : Nat} {node : Inline}

abbrev Inlines (src : Source) (lo hi : Nat) (nodes : List Inline) : Prop :=
  Row Inline.span (Inline.Fits src) lo hi nodes

structure Text.Mode.Precedes (m : Mode) (tag : Tag) : Prop where
  escape : m = .escape → tag.endsLine = true
  indent : m = .indent → tag.isInlineSpace = false

namespace Token.Spelled

variable {tok : Token} {m : Text.Mode}

theorem shows (h : tok.Spelled) (hb : tok.tag ≠ .backslash) (hn : tok.tag ≠ .newline)
    (hm : m.Precedes tok.tag) : Text.Shows m tok.text tok.text .line := by
  have hend := h.endsLine_eq_false (h.newline_not_mem hn)
  refine .plain ?_ h.text_ne_nil (fun hc => h.ne_of_mem rfl hb hc rfl) (h.newline_not_mem hn)
  cases m with
  | line => exact .inl rfl
  | escape => simp [hm.escape rfl] at hend
  | indent =>
    refine .inr ⟨rfl, fun c hc => ?_⟩
    have hsolid := h.solid (hm.indent rfl) hn c (List.mem_of_mem_head? hc)
    exact ⟨hsolid.1, hsolid.2.1⟩

theorem shows_escaped (h : tok.Spelled) (hn : tok.tag ≠ .newline) :
    Text.Shows .escape tok.text tok.text .line := by
  obtain ⟨c, cs, hcs⟩ := List.exists_cons_of_ne_nil h.text_ne_nil
  have hnl := h.newline_not_mem hn
  rw [hcs] at hnl ⊢
  refine .escaped ?_ (fun hb => ?_) fun hm => hnl (List.mem_cons_of_mem _ hm)
  · rintro rfl
    simp at hnl
  · by_cases htag : tok.tag = .backslash
    · rw [h.text_of_char? (c := '\\') (by rw [htag]; rfl), List.cons.injEq] at hcs
      simp [← hcs.2] at hb
    · exact h.ne_of_mem rfl htag (hcs ▸ List.mem_cons_of_mem _ hb) rfl

end Token.Spelled

namespace TextRun

@[simp] theorem toInline_span (r : TextRun) : (r.toInline indent).span = ⟨r.start, r.stop, indent⟩ := rfl

theorem extend_eq (run : Option TextRun) (tok : Token) (text : List Char) :
    extend run tok text =
      ⟨(run.map start).getD tok.start, tok.stop, (run.map TextRun.text).getD [] ++ text⟩ := by
  cases run <;> rfl

end TextRun

namespace InlineContent

variable {c : InlineContent}

theorem flush_add : (c.add indent node).flush indent = c.flush indent ++ [node] := by
  simp [flush, add]

theorem push_push {tok tok' : Token} {text text' : List Char} (h : tok'.start = tok.stop) :
    (c.push tok text).push tok' text' =
      c.push { tok with text := tok.text ++ tok'.text } (text ++ text') := by
  have hstop : Token.stop { tok with text := tok.text ++ tok'.text } = tok'.stop := by
    simp only [Token.stop, Token.size, Text.byteSize_append] at h ⊢
    omega
  simp [push, TextRun.extend_eq, hstop]

theorem row_push {tok : Token} {text : List Char} (h : Inlines src lo hi (c.flush indent))
    (hle : hi ≤ tok.start) (hlt : tok.start ≤ tok.stop) (hstart : src.IsBoundary tok.start)
    (hstop : src.IsBoundary tok.stop) :
    Inlines src lo tok.stop ((c.push tok text).flush indent) := by
  obtain ⟨nodes, pending⟩ := c
  cases pending with
  | none =>
    have h : Inlines src lo hi nodes := by simpa [flush] using h
    have hfit : (TextRun.toInline indent ⟨tok.start, tok.stop, text⟩).Fits src :=
      ⟨hlt, hstart, hstop⟩
    exact h.concat hfit hle hlt (Nat.le_refl _)
  | some r =>
    have h : Inlines src lo hi (nodes ++ [r.toInline indent]) := by simpa [flush] using h
    obtain ⟨mid, hn, hr⟩ := h.of_append
    obtain ⟨hmid, hrun, hend⟩ := hr.ordered
    have hr := (hr.fits (r.toInline indent) (by simp)).proper
    rw [TextRun.toInline_span] at hmid hrun hend hr
    simp only at hmid hrun
    have hend : r.stop ≤ hi := hend
    have hrs : r.start ≤ tok.stop := by omega
    have hfit : (TextRun.toInline indent { r with stop := tok.stop, text := r.text ++ text }).Fits
        src := ⟨hrs, hr.start, hstop⟩
    exact hn.concat hfit hmid hrs (Nat.le_refl _)

theorem tell_push {tok : Token} {text : List Char} (h : Inline.Tell src lo mid (c.flush indent))
    (hmid : tok.start = mid) (hold : ∀ r ∈ c.pending, r.start ≤ mid ∧ r.stop ≤ tok.stop)
    (hcites : (c.pending.map TextRun.text).getD [] ++ text = Text.shown .line
      (src.slice ((c.pending.map TextRun.start).getD tok.start) tok.stop)) :
    Inline.Tell src lo tok.stop ((c.push tok text).flush indent) := by
  obtain ⟨nodes, pending⟩ := c
  cases pending with
  | none =>
    have h : Inline.Tell src lo mid nodes := by simpa [flush] using h
    refine h.append (.leaf rfl ?_ (Nat.le_of_eq hmid) (Nat.le_refl _))
    simpa [TextRun.toInline, TextRun.extend, Inline.Cites] using hcites
  | some r =>
    have h : Inline.Tell src lo mid (nodes ++ [r.toInline indent]) := by simpa [flush] using h
    obtain ⟨hstart, hstop⟩ := hold r rfl
    let new : Inline := TextRun.toInline indent { r with stop := tok.stop, text := r.text ++ text }
    have hold : Inline.leavesOf (nodes ++ [r.toInline indent]) =
        Inline.leavesOf nodes ++ [r.toInline indent] := by
      simp [TextRun.toInline, Inline.leaves]
    have hnew : Inline.leavesOf (nodes ++ [new]) = Inline.leavesOf nodes ++ [new] := by
      simp [new, TextRun.toInline, Inline.leaves]
    have hlast : Inline.Covered src mid tok.stop [new] := .singleton hstart (Nat.le_refl _)
    refine ⟨fun leaf hleaf => ?_, ?_⟩
    · change leaf ∈ Inline.leavesOf (nodes ++ [new]) at hleaf
      rw [hnew] at hleaf
      rcases List.mem_append.1 hleaf with hleaf | hleaf
      · exact h.cites leaf (hold ▸ List.mem_append_left _ hleaf)
      · rw [List.mem_singleton.1 hleaf]
        simpa [new, TextRun.toInline, Inline.Cites] using hcites
    · change Inline.Covered src lo tok.stop (Inline.leavesOf (nodes ++ [new]))
      rw [hnew]
      refine (h.covered.append hlast).grow fun l hl => ?_
      rw [hold] at hl
      simp only [List.mem_append, List.mem_singleton] at hl
      rcases hl with (hl | rfl) | rfl
      · exact ⟨l, by simp [hl], Nat.le_refl _, Nat.le_refl _⟩
      · exact ⟨new, by simp, Nat.le_refl _, hstop⟩
      · exact ⟨new, by simp, Nat.le_refl _, Nat.le_refl _⟩

end InlineContent

def lastStop (lo : Nat) (nodes : List Inline) : Nat := (nodes.getLast?.map (·.span.stop)).getD lo

theorem Row.to_lastStop {nodes : List Inline} (h : Inlines src lo hi nodes) :
    Inlines src lo (lastStop lo nodes) nodes ∧ lastStop lo nodes ≤ hi ∧
      (src.IsBoundary lo → src.IsBoundary (lastStop lo nodes)) := by
  rcases List.eq_nil_or_concat nodes with rfl | ⟨init, last, rfl⟩
  · exact ⟨.nil (Nat.le_refl _), h.le, id⟩
  · rw [List.concat_eq_append] at h ⊢
    have hlast : lastStop lo (init ++ [last]) = last.span.stop := by simp [lastStop]
    rw [hlast]
    have hfit := h.fits last (by simp)
    obtain ⟨mid, hi', hl⟩ := h.of_append
    exact ⟨hi'.concat hfit hl.ordered.1 hl.ordered.2.1 (Nat.le_refl _), h.stop_le last (by simp),
      fun _ => hfit.proper.stop⟩

namespace Lexer

variable {s t u : Lexer Cursor} {nodes : List Inline} {ts : List Token}

theorem tell_between {cs : List Char} (hs : s.Sound) (ht : t.Sound) (hsrc : t.source = s.source)
    (hcs : t.consumed = s.consumed ++ cs) (hgap : ∀ c ∈ cs, Text.White [c] ∨ Text.Delimiter c) :
    Inline.Tell s.source s.nextOffset t.nextOffset [] := by
  have hpos := ht.position
  rw [hcs, hsrc] at hpos
  rw [← hpos.2.1, ← hs.position.2.1]
  exact .between hpos.1 hgap

structure Collects (s t : Lexer Cursor) (nodes : List Inline) : Prop where
  firm : t.Firm
  onward : s.Onward t
  row : Inlines s.source s.nextOffset (max s.nextOffset t.observer.lastEnd) nodes
  tell : Inline.Tell s.source s.nextOffset t.nextOffset nodes

/-- The text not yet made a node shows what was eaten since it began, but for a backslash that
nothing follows so far. -/
def Running (t : Lexer Cursor) (c : InlineContent) : Prop :=
  ∃ before cs text mode, t.consumed = before ++ cs ∧
    Text.byteSize before = (c.pending.map TextRun.start).getD t.nextOffset ∧
    Text.Shows .line cs text mode ∧
    (c.pending.map TextRun.text).getD [] = text ++ Text.shown mode [] ∧
    mode.Precedes (t.ahead 0).tag

structure Gathers (indent : Nat) (s t : Lexer Cursor) (c : InlineContent) : Prop
    extends s.Collects t (c.flush indent) where
  running : t.Running c

namespace Collects

theorem start (h : s.Firm) : s.Collects s [] :=
  ⟨h, .refl s, .nil (Nat.le_max_left ..), .nil (Nat.le_refl _)⟩

theorem looks (h : s.Collects t nodes) (hu : t.Looks u) : s.Collects u nodes where
  firm := h.firm.looks hu
  onward := h.onward.trans hu.onward
  row := by
    rw [hu.observer]
    exact h.row
  tell := by
    rw [hu.nextOffset_eq h.firm.sound]
    exact h.tell

theorem le_nextOffset (h : s.Collects t nodes) (hs : s.Sound) :
    max s.nextOffset t.observer.lastEnd ≤ t.nextOffset :=
  Nat.max_le.2 ⟨h.onward.nextOffset_le hs h.firm.sound, h.firm.lastEnd_le⟩

end Collects

theorem running_nil (hs : s.Sound) {nodes : List Inline} : s.Running ⟨nodes, none⟩ :=
  ⟨s.consumed, [], [], .line, by simp, hs.position.2.1, .nil _, rfl, by simp, by simp⟩

namespace Gathers

theorem start (h : s.Firm) : s.Gathers indent s {} := ⟨.start h, running_nil h.sound⟩

variable {c : InlineContent}

theorem looks (h : Gathers indent s t c) (hu : t.Looks u) : Gathers indent s u c where
  toCollects := h.toCollects.looks hu
  running := by
    unfold Running consumed
    rw [hu.nextOffset_eq h.firm.sound, hu.source, hu.ahead]
    exact h.running

theorem add (h : Gathers indent s t c) (hs : s.Sound) (hu : u.Firm) (ht : t.Onward u)
    (hfit : node.Fits s.source) (hstart : t.nextOffset ≤ node.span.start)
    (hstop : node.span.stop ≤ u.observer.lastEnd)
    (htell : Inline.Tell s.source t.nextOffset u.nextOffset [node]) :
    Gathers indent s u (c.add indent node) where
  firm := hu
  onward := h.onward.trans ht
  row := by
    rw [InlineContent.flush_add]
    refine h.row.concat hfit ?_ hfit.proper.le (Nat.le_trans hstop (Nat.le_max_right ..))
    exact Nat.le_trans (h.le_nextOffset hs) hstart
  tell := by
    rw [InlineContent.flush_add]
    exact h.tell.append htell
  running := running_nil hu.sound

theorem push {tok : Token} {text ws : List Char} (h : Gathers indent s t c) (hs : s.Sound)
    (hu : u.Firm) (ht : t.Onward u) (hstart : tok.start = t.nextOffset)
    (hlt : tok.start < tok.stop) (hstop : tok.stop = u.observer.lastEnd)
    (hcons : u.consumed = t.consumed ++ (tok.text ++ ws)) (hws : ∀ c ∈ ws, c = ' ' ∨ c = '\t')
    (hshows : ∀ m : Text.Mode, m.Precedes (t.ahead 0).tag → ∃ us n, Text.Shows m tok.text us n ∧
      Text.Shows n ws [] n ∧ Text.shown m [] ++ text = us ++ Text.shown n [] ∧
        n.Precedes (u.ahead 0).tag) :
    Gathers indent s u (c.push tok text) := by
  have hb := h.firm.sound.isBoundary_nextOffset
  have hb' := hu.boundary
  rw [h.onward.source] at hb
  rw [ht.source, h.onward.source] at hb'
  have hsrc : u.source = s.source := ht.source.trans h.onward.source
  have hchars := hu.sound.position.1
  have hsize := h.firm.sound.position.2.1
  obtain ⟨before, cs, shown, mode, hbefore, hbegin, hcs, hshown, hmode⟩ := h.running
  obtain ⟨us, n, htok, hskip, htext, hn⟩ := hshows mode hmode
  have hall : Text.Shows .line (cs ++ tok.text) (shown ++ us) n := hcs.trans htok
  have hcons' : u.consumed = before ++ (cs ++ tok.text) ++ ws := by
    rw [hcons, hbefore]
    simp only [List.append_assoc]
  have hlast : tok.stop = Text.byteSize (before ++ (cs ++ tok.text)) := by
    rw [← List.append_assoc, ← hbefore, Text.byteSize_append, hsize, ← hstart]
    rfl
  have hnew : (c.push tok text).pending = some ⟨Text.byteSize before, tok.stop,
      shown ++ us ++ Text.shown n []⟩ := by
    simp only [InlineContent.push, TextRun.extend_eq, hstart, hbegin, hshown, List.append_assoc,
      htext]
  refine ⟨⟨hu, h.onward.trans ht, ?_, ?_⟩, ?_⟩
  · rw [← hstop]
    refine (InlineContent.row_push h.row ?_ (Nat.le_of_lt hlt) (hstart ▸ hb)
      (hstop ▸ hb')).mono (Nat.le_max_right ..)
    rw [hstart]
    exact h.le_nextOffset hs
  · have hrun : ∀ r ∈ c.pending, r.start ≤ t.nextOffset ∧ r.stop ≤ tok.stop := by
      intro r hr
      obtain ⟨nodes, pending⟩ := c
      obtain rfl : pending = some r := hr
      have hle := h.row.stop_le (r.toInline indent) (by simp [InlineContent.flush])
      have hin := (h.row.fits (r.toInline indent) (by simp [InlineContent.flush])).proper.le
      have hle' := h.le_nextOffset hs
      simp only [TextRun.toInline_span] at hle hin
      omega
    have htold : Inline.Tell s.source s.nextOffset tok.stop ((c.push tok text).flush indent) := by
      apply InlineContent.tell_push h.tell hstart hrun
      rw [hstart, ← hbegin, hlast, hshown, ← hsrc, Source.slice, hchars, hcons',
        List.append_assoc _ ws, Text.slice_append_append, hall.shown_eq, List.append_assoc, htext,
        List.append_assoc]
    have hgap : Inline.Tell u.source tok.stop u.nextOffset [] := by
      rw [hlast, ← hu.sound.position.2.1, hcons']
      exact .between (hcons' ▸ hchars) fun c hc => .inl ((Text.White.of_blank hws).of_mem hc)
    rw [hsrc] at hgap
    simpa using htold.append hgap
  · refine ⟨before, cs ++ tok.text ++ ws, shown ++ us, n, by rw [hcons', List.append_assoc], ?_,
      by simpa using hall.trans hskip, ?_, hn⟩
    · rw [hnew]
      rfl
    · rw [hnew]
      rfl

end Gathers

end Lexer

end TaskMarkup
