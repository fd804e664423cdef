import TaskMarkup.Proofs.Node.Formed
import TaskMarkup.Proofs.Origin.Inline
import TaskMarkup.Proofs.Rule.Yields

namespace TaskMarkup

variable {src : Source} {limit i : Nat}

namespace Inline

structure Strand (src : Source) (limit i : Nat) (cs : List Inline) : Prop where
  formed : AllFormed cs
  apart : Apart cs
  levelled : Levelled src limit i (trees cs)

structure Sits (src : Source) (limit i : Nat) (c : Inline) : Prop where
  formed : c.Formed
  solid : c.isText = false
  levelled : Levelled src limit i [c.tree]

def Leads (cs : List Char) (nodes : List Inline) : Prop :=
  ∃ span text rest, nodes = .text span text :: rest ∧ cs <+: text.toList

variable {cs : List Char} {nodes ds : List Inline}

theorem Leads.append (h : Leads cs nodes) : Leads cs (nodes ++ ds) := by
  obtain ⟨span, text, rest, rfl, hcs⟩ := h
  exact ⟨span, text, rest ++ ds, rfl, hcs⟩

theorem levelled_text {start stop : Nat} {text : String} (hi : i ≤ limit) :
    Levelled src limit i [(Inline.text ⟨start, stop, i⟩ text).tree] :=
  levelled_node.2 ⟨Node.lies_inline rfl hi, levelled_nil⟩

end Inline

namespace TextRun

variable {r : TextRun}

theorem toInline_formed (h : r.text ≠ []) : (r.toInline i).Formed := by
  intro hempty
  have := congrArg String.toList hempty
  rw [String.toList_ofList] at this
  exact h this

end TextRun

namespace InlineContent

structure Sits (src : Source) (limit i : Nat) (c : InlineContent) : Prop where
  strand : Inline.Strand src limit i c.nodes
  last : ∀ d ∈ c.nodes.getLast?, d.isText = false
  pending : ∀ r ∈ c.pending, r.text ≠ []

structure Grows (src : Source) (limit i : Nat) (c c' : InlineContent) : Prop where
  sits : c'.Sits src limit i
  ne_nil : c'.flush i ≠ []
  leads : ∀ cs, Inline.Leads cs (c.flush i) → Inline.Leads cs (c'.flush i)

variable {c : InlineContent} {t u : Token} {text text' cs : List Char} {node : Inline}

theorem Sits.flush (h : c.Sits src limit i) (hi : i ≤ limit) :
    Inline.Strand src limit i (c.flush i) := by
  obtain ⟨nodes, pending⟩ := c
  cases pending with
  | none => simpa [InlineContent.flush] using h.strand
  | some r =>
    show Inline.Strand src limit i (nodes ++ [r.toInline i])
    refine ⟨Inline.allFormed_append.2 ⟨h.strand.formed, ?_, trivial⟩,
      Inline.apart_concat h.strand.apart fun d hd => ?_, ?_⟩
    · exact TextRun.toInline_formed (h.pending r rfl)
    · simp [h.last d hd]
    · rw [Inline.trees_append, levelled_append]
      exact ⟨h.strand.levelled, Inline.levelled_text hi⟩

theorem Sits.add (h : c.Sits src limit i) (hi : i ≤ limit) (hnode : node.Sits src limit i) :
    (c.add i node).Sits src limit i where
  strand := by
    have hflush := h.flush hi
    refine ⟨Inline.allFormed_append.2 ⟨hflush.formed, hnode.formed, trivial⟩,
      Inline.apart_concat hflush.apart fun d _ => ?_, ?_⟩
    · simp [hnode.solid]
    · show Levelled src limit i (Inline.trees (c.flush i ++ [node]))
      rw [Inline.trees_append, levelled_append]
      exact ⟨hflush.levelled, hnode.levelled⟩
  last d hd := by
    have : (c.add i node).nodes.getLast? = some node := List.getLast?_concat
    rw [this] at hd
    obtain rfl := Option.some.inj hd
    exact hnode.solid
  pending r hr := by simp [InlineContent.add] at hr

theorem leads_push (h : Inline.Leads cs (c.flush i)) :
    Inline.Leads cs ((c.push t text).flush i) := by
  obtain ⟨nodes, pending⟩ := c
  cases pending with
  | none =>
    have h : Inline.Leads cs nodes := by simpa [InlineContent.flush] using h
    exact h.append
  | some r =>
    obtain ⟨span, first, rest, hfirst, hcs⟩ := h
    have hfirst : nodes ++ [r.toInline i] = .text span first :: rest := hfirst
    let new : Inline := TextRun.toInline i { r with stop := t.stop, text := r.text ++ text }
    show Inline.Leads cs (nodes ++ [new])
    cases nodes with
    | nil =>
      obtain ⟨hnode, -⟩ := List.cons.inj hfirst
      obtain ⟨-, rfl⟩ := Inline.text.inj hnode
      rw [String.toList_ofList] at hcs
      exact ⟨_, _, [], rfl, by
        rw [String.toList_ofList]
        exact hcs.trans (List.prefix_append ..)⟩
    | cons d nodes =>
      obtain ⟨rfl, -⟩ := List.cons.inj hfirst
      exact ⟨span, first, _, rfl, hcs⟩

theorem Sits.grows_push (h : c.Sits src limit i) (hne : text ≠ []) :
    Grows src limit i c (c.push t text) where
  sits := ⟨h.strand, h.last, fun r hr => by
    obtain rfl := Option.some.inj hr
    simp [TextRun.extend_eq, hne]⟩
  ne_nil := by simp [InlineContent.flush, InlineContent.push]
  leads _ := leads_push

theorem Sits.grows_push_push (h : c.Sits src limit i) (hne : text' ≠ []) :
    Grows src limit i c ((c.push t text).push u text') where
  sits := ⟨h.strand, h.last, fun r hr => by
    obtain rfl := Option.some.inj hr
    simp [TextRun.extend_eq, hne]⟩
  ne_nil := by simp [InlineContent.flush, InlineContent.push]
  leads _ h := leads_push (leads_push h)

theorem flush_add_eq_nodes : (c.add i node).flush i = (c.add i node).nodes := by
  simp [flush, add]

theorem Sits.grows_add (h : c.Sits src limit i) (hi : i ≤ limit) (hnode : node.Sits src limit i) :
    Grows src limit i c (c.add i node) where
  sits := h.add hi hnode
  ne_nil := by simp [InlineContent.flush_add]
  leads cs h := by
    rw [InlineContent.flush_add]
    exact h.append

end InlineContent

namespace Parse

open Rule

variable {s t : Lexer Cursor} {p : ParagraphContext} {stops : List Style} {c : InlineContent}
  {tok : Token}

theorem yields_rawInline_run : Yields src (rawInline i tok) fun node => ∃ start stop monospace,
    ∃ run : Option TextRun, node = .raw ⟨start, stop, i⟩ monospace (run.map (·.toInline i)).toList ∧
      ∀ r ∈ run, r.text ≠ [] ∧ '\n' ∉ r.text := by
  refine .after (.repeats tok) fun n => ?_
  generalize (if 2 ≤ n then 2 else 1) = count
  refine .after (.eatMany count) fun _ => ?_
  let InLine (r : Nat × Option TextRun) : Prop := ∀ run ∈ r.2, run.text ≠ [] ∧ '\n' ∉ run.text
  refine .bind (P := InLine) (.loop InLine (by simp [InLine]) ?_) ?_
  · rintro ⟨stop, run⟩ hrun
    refine .of_ends (Advances.bind (.peek 0) fun next => ?_) fun s hs hsrc => ?_
    · split
      · exact .pure _
      · dsimp only
        split
        · refine .bind (.repeats _) fun m => ?_
          split
          · exact .bind (.eatMany _) fun _ => .pure _
          · exact .bind .eat fun _ => .pure _
        · exact .bind .eat fun _ => .pure _
    have hdone (a : Nat) (u : Lexer Cursor) : Ends (fun _ => True)
        (Pure.pure (Turn.done (a, run)) : Parse (Turn _ (Nat × Option TextRun))) u
        (fun turn _ => turn.Gives InLine InLine) fun _ _ => True := Ends.pure hrun
    refine Ends.bind (Ends.peek (.refl hs.sound) (by decide) (s.spare_true 0) (by decide)
      fun u hu _ _ => ?_)
    split
    · exact hdone _ _
    · next hline =>
      obtain ⟨-, hp⟩ := hs.sound.tag_ahead_zero.resolve_left fun h => by
        simp [h.1, Tag.endsLine] at hline
      have hmore (v : Lexer Cursor) (hv : s.Looks v) : Ends (fun _ => True)
          (Rule.eat >>= fun next => Pure.pure (Turn.again (next.stop,
            some (TextRun.extend run next next.text))) : Parse (Turn _ _)) v
          (fun turn _ => turn.Gives InLine InLine) fun _ _ => True := by
        refine Ends.bind (Ends.eat hv (v.spare_true 0) (by decide) hp fun w _ _ _ => Ends.pure ?_)
        intro r hr
        obtain rfl := Option.some.inj hr
        have hspell := hs.sound.spelled (t := s.ahead 0) (by rw [hp]; simp)
        have hnl := hspell.newline_not_mem fun hnl => by simp [hnl, Tag.endsLine] at hline
        have hold : '\n' ∉ (run.map TextRun.text).getD [] := by
          cases run with
          | none => simp
          | some r => exact (hrun r rfl).2
        simp [TextRun.extend_eq, hspell.text_ne_nil, hold, hnl]
      dsimp only
      split
      · next htick =>
        have hc : (s.ahead 0).tag.char? = some '\x60' := by rw [htick, Tag.char?]
        refine Ends.seq (Ends.repeats hu.sound (hu.pending.trans hp) hc) ?_
        rintro m _ ⟨hsame, -⟩
        rw [hsame]
        split
        · exact Ends.last fun _ v => hdone _ v
        · exact hmore u hu
      · exact hmore u hu
  · rintro ⟨stop, run⟩ hrun
    exact .pure ⟨_, _, _, run, rfl, hrun⟩

theorem yields_rawInline (hi : i ≤ limit) :
    Yields src (rawInline i tok) fun node => node.Sits src limit i := by
  refine yields_rawInline_run.imp ?_
  rintro _ ⟨start, stop, monospace, run, rfl, hrun⟩
  cases run with
  | none => exact ⟨.inl rfl, rfl, levelled_node.2 ⟨Node.lies_inline rfl hi, levelled_nil⟩⟩
  | some r =>
    exact ⟨.inr ⟨_, _, rfl, TextRun.toInline_formed (i := i) (hrun r rfl).1⟩, rfl,
      levelled_node.2 ⟨Node.lies_inline rfl hi, Inline.levelled_text hi⟩⟩

theorem yields_link (hi : i ≤ limit) :
    Yields src (link i) fun node => node.Sits src limit i := by
  have hrest (opening : Token) (target : List Char) (caption : Option String) :
      Yields src (do
        let _ ← eatIf .rightAngle
        let stop ← endFrom opening.start
        return .link ⟨opening.start, stop, i⟩ (String.ofList (Text.trimEnd target)) caption :
          Parse Inline) fun node => node.Sits src limit i :=
    .after (.eatIf _) fun _ => .after (.endFrom _) fun _ =>
      .pure ⟨trivial, rfl, levelled_node.2 ⟨Node.lies_inline rfl hi, levelled_nil⟩⟩
  refine .after .eat fun opening => .after (.readUntil _) fun target => .after (.eatIf _)
    fun semicolon => ?_
  split
  · refine .after .eatInlineSpace fun _ => .after (.readUntil _) fun text => ?_
    dsimp only
    split
    · exact hrest _ _ _
    · exact hrest _ _ _
  · exact hrest _ _ _

theorem yields_styled {style : Style} {inner : Parse (List Inline × InlineStop)} (hi : i ≤ limit)
    (h : Yields src inner fun r => Inline.Strand src limit i r.1) :
    Yields src (styled i style inner) fun r => r.1.Sits src limit i := by
  refine .after (.peek 0) fun first => .after (.eatMany _) fun _ => .after (.endFrom _)
    fun opened => .bind h ?_
  rintro ⟨children, ending⟩ hchildren
  have hnode (stop : Nat) :
      (Inline.styled ⟨first.start, stop, i⟩ style children).Sits src limit i :=
    ⟨⟨hchildren.apart, hchildren.formed⟩, rfl,
      levelled_node.2 ⟨Node.lies_inline rfl hi, hchildren.levelled⟩⟩
  dsimp only
  split
  · exact .after (.eatMany _) fun _ => .after .cursor fun _ => .pure (hnode _)
  · exact .pure (hnode _)

theorem ends_tagRef_sits {sign name : Token} {rest : List Token} (hi : i ≤ limit) (hs : s.Sound)
    (hp : s.pending = sign :: name :: rest) (hname : isTagName name.text = true) :
    Ends (fun _ => True) (tagRef i) s (fun node _ => node.Sits src limit i) fun _ _ => True := by
  refine Ends.bind (Ends.eat (.refl hs) (s.spare_true 0) (by decide) hp fun t ht hpt _ => ?_)
  refine Ends.bind (Ends.eat (.refl ht.sound) (t.spare_true 0) (by decide) hpt fun u _ _ _ =>
    Ends.pure ⟨⟨_, _, rfl, ?_⟩, rfl, ?_⟩)
  · rwa [String.toList_ofList]
  · exact levelled_node.2 ⟨Node.lies_inline rfl hi, Inline.levelled_text hi⟩

theorem ends_escape_pushed (hs : s.Placed) :
    Ends (fun _ => True) (escape c) s (fun c' _ => ∃ backslash, c' = c.push backslash ['\\'] ∨
      ∃ escaped : Token, escaped.Spelled ∧ escaped.tag ≠ .newline ∧
        c' = (c.push backslash []).push escaped escaped.text) fun _ _ => True := by
  refine Ends.seq (Yields.of_advances .eat s hs rfl) fun backslash t ht => ?_
  have hsound := ht.1.placed.sound
  refine Ends.bind (Ends.peekTag (.refl hsound) (by decide) (t.spare_true 0) (by decide)
    fun u hu _ _ => ?_)
  split
  · exact Ends.pure ⟨backslash, .inl rfl⟩
  · next hline =>
    obtain ⟨-, hp⟩ := hsound.tag_ahead_zero.resolve_left fun h => by
      simp [h.1, Tag.endsLine] at hline
    refine Ends.bind (Ends.eat hu (u.spare_true 0) (by decide) hp fun v _ _ _ => Ends.pure ?_)
    refine ⟨backslash, .inr ⟨_, hsound.spelled (by rw [hp]; simp), fun hnl => ?_, rfl⟩⟩
    simp [hnl, Tag.endsLine] at hline

theorem ends_escape_grows (hc : c.Sits src limit i) (hs : s.Placed) :
    Ends (fun _ => True) (escape c) s (fun c' _ => c.Grows src limit i c') fun _ _ => True := by
  refine (ends_escape_pushed hs).imp ?_
  rintro c' t ⟨backslash, rfl | ⟨escaped, hspell, -, rfl⟩⟩
  · exact hc.grows_push (by simp)
  · exact hc.grows_push_push hspell.text_ne_nil

def Fills (p : ParagraphContext) (stops : List Style) (c : InlineContent) (t : Lexer Cursor) :
    Prop :=
  c.flush p.indent ≠ [] ∨ stops = [] ∧ (t.ahead 0).tag.endsLine = false ∧
    (p.mode = .cellLine → (t.ahead 0).tag ≠ .pipe)

structure Gathered (src : Source) (limit : Nat) (p : ParagraphContext) (stops : List Style)
    (c : InlineContent) (s : Lexer Cursor) (nodes : List Inline) : Prop where
  strand : Inline.Strand src limit p.indent nodes
  ne_nil : Fills p stops c s → nodes ≠ []
  leads : ∀ cs, Inline.Leads cs (c.flush p.indent) → Inline.Leads cs nodes

theorem ends_inlineTurn_grows {inner : List Style → Parse (List Inline × InlineStop)}
    (hi : p.indent ≤ limit)
    (hinner : ∀ stops, Yields src (inner stops) fun r => Inline.Strand src limit p.indent r.1)
    (hs : s.Placed) (hsrc : s.source = src) (hc : c.Sits src limit p.indent) :
    Ends (fun _ => True) (inlineTurn p stops inner c) s (fun turn _ => turn.Gives
      (fun r => Gathered src limit p stops c s r.1) fun c' => c.Grows src limit p.indent c')
      fun _ _ => True := by
  have hlooks {u : Lexer Cursor} (hu : s.Looks u) : u.Placed ∧ u.source = src :=
    ⟨(hs.looks hu).placed, hu.source.trans hsrc⟩
  have hended (h : Fills p stops c s → c.flush p.indent ≠ []) :
      Gathered src limit p stops c s (c.flush p.indent) := ⟨hc.flush hi, h, fun _ h => h⟩
  refine (ends_inlineTurn_step hs.sound).imp fun turn t h => ?_
  cases h with
  | halt _ hhalts =>
    refine hended fun h => h.resolve_right fun hidle => ?_
    cases hhalts with
    | eof htag | line htag _ => simp [htag, Tag.endsLine] at hidle
    | bar htag hmode => exact hidle.2.2 hmode htag
  | stop _ hstops _ => exact hended fun h => h.resolve_right fun hidle => hstops hidle.1
  | part _ htag _ _ =>
    exact hended fun h => h.resolve_right fun hidle => by simp [htag, Tag.endsLine] at hidle
  | line => exact hc.grows_push (by simp)
  | literal ht _ =>
    exact hc.grows_push (hs.sound.spelled (ht.pending ▸ List.mem_cons_self ..)).text_ne_nil
  | escape hu hc' => exact (ends_escape_grows hc (hlooks hu).1).of_ok hc'
  | styled hu _ _ hnode =>
    have hsits := ((yields_styled hi (hinner _) _ (hlooks hu).1 (hlooks hu).2).of_ok hnode).2
    have hgrows := hc.grows_add hi hsits
    split
    · refine ⟨hgrows.sits.strand, fun _ => ?_, fun cs h => ?_⟩
      · exact InlineContent.flush_add_eq_nodes ▸ hgrows.ne_nil
      · exact InlineContent.flush_add_eq_nodes ▸ hgrows.leads cs h
    · exact hgrows
  | raw hu hnode =>
    exact hc.grows_add hi ((yields_rawInline hi _ (hlooks hu).1 (hlooks hu).2).of_ok hnode).2
  | link hu hnode =>
    exact hc.grows_add hi ((yields_link hi _ (hlooks hu).1 (hlooks hu).2).of_ok hnode).2
  | tagRef hu hp hname hnode =>
    exact hc.grows_add hi
      ((ends_tagRef_sits hi hu.sound (hu.pending.trans hp) hname).of_ok hnode)

end Parse

end TaskMarkup
