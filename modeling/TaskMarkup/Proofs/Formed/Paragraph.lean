import TaskMarkup.Proofs.Formed.Inline
import TaskMarkup.Proofs.Grammar.Body
import TaskMarkup.Proofs.Grammar.Plain

namespace TaskMarkup

theorem Marker.isLiteral_of_mem_heads {marker : Marker} (h : marker.opensBody = true) {tag : Tag}
    (ht : tag ∈ marker.heads) {mode : ParagraphMode} (hbar : mode = .cellLine → marker ≠ .table) :
    tag.isLiteral mode = true := by
  cases marker <;> simp [opensBody, heads] at h ht
  · subst ht
    rfl
  · subst ht
    rfl
  · rcases ht with rfl | rfl <;> rfl
  · subst ht
    simpa [Tag.isLiteral] using hbar

theorem Marker.heads_ne_nil {marker : Marker} (h : marker.opensBody = true) :
    marker.heads ≠ [] := by
  cases marker <;> simp [opensBody, heads] at h ⊢

namespace Parse

open Rule

variable {src : Source} {limit n : Nat} {s t : Lexer Cursor} {p : ParagraphContext}
  {stops : List Style} {c : InlineContent} {pre : List Token}

theorem sits_nil {i : Nat} : InlineContent.Sits src limit i {} :=
  ⟨⟨trivial, .nil, levelled_nil⟩, by simp, by simp⟩

theorem yields_inlines (hi : p.indent ≤ limit) (n : Nat) (stops : List Style) :
    Yields src (inlines p n stops) fun r => Inline.Strand src limit p.indent r.1 := by
  induction n generalizing stops with
  | zero => exact .throw _
  | succ n ih =>
    refine .loop (fun c => c.Sits src limit p.indent) sits_nil fun c hc => ?_
    refine .of_ends (advances_inlineTurn (advances_inlines n) c) fun s hs hsrc => ?_
    refine (ends_inlineTurn_grows hi ih hs hsrc hc).imp fun turn _ h => ?_
    cases turn with
    | done r => exact h.strand
    | again c => exact h.sits

theorem ends_inlineTurn_moves (hi : p.indent ≤ limit) (n : Nat) (stops : List Style)
    (hs : s.Moves t) (hsrc : s.source = src) (hc : c.Sits src limit p.indent) :
    Ends (fun _ => True) (inlineTurn p stops (inlines p n) c) t (fun turn u => s.Moves u ∧
      turn.Gives (fun r => Gathered src limit p stops c t r.1)
        fun c' => c.Grows src limit p.indent c') fun _ _ => True :=
  ((ends_inlineTurn_grows hi (yields_inlines hi n) hs.placed (hs.source.trans hsrc) hc).and
    (advances_inlineTurn (advances_inlines n) c t hs.placed)).mono
    (fun _ _ h => ⟨hs.trans h.2, h.1⟩) fun _ _ _ => trivial

theorem ends_inlines_ne_nil (hi : p.indent ≤ limit) (hs : s.Placed) (hsrc : s.source = src)
    (hfills : Fills p [] {} s) : Ends (fun _ => True) (inlines p n []) s (fun r _ => r.1 ≠ [])
      fun _ _ => True := by
  cases n with
  | zero => exact Ends.throw trivial
  | succ n =>
    refine Ends.loop_true (fun c t => s.Moves t ∧ c.Sits src limit p.indent ∧ Fills p [] c t)
      ⟨.refl hs, sits_nil, hfills⟩ ?_
    rintro c t ⟨ht, hc, hfills⟩
    refine (ends_inlineTurn_moves hi n [] ht hsrc hc).imp fun turn u ⟨hu, hturn⟩ => ?_
    cases turn with
    | done r => exact hturn.ne_nil hfills
    | again c => exact ⟨hu, hturn.sits, .inl hturn.ne_nil⟩

structure Recites (pre : List Token) (c : InlineContent) (t : Lexer Cursor) : Prop where
  nodes : c.nodes = []
  text : ∃ done todo rest, pre = done ++ todo ∧ todo ≠ [] ∧
    (c.pending.map TextRun.text).getD [] = Token.texts done ∧ t.pending = todo ++ rest

theorem ends_inlines_leads (hi : p.indent ≤ limit) (stops : List Style) (hs : s.Placed) (hsrc : s.source = src)
    (hpre : pre <+: s.pending) (hne : pre ≠ [])
    (hlit : ∀ tok ∈ pre, tok.tag.isLiteral p.mode = true) :
    Ends (fun _ => True) (inlines p n stops) s (fun r _ => Inline.Leads (Token.texts pre) r.1)
      fun _ _ => True := by
  cases n with
  | zero => exact Ends.throw trivial
  | succ n =>
  obtain ⟨rest, hrest⟩ := hpre
  refine Ends.loop_true (fun c t => s.Moves t ∧ c.Sits src limit p.indent ∧
    (Inline.Leads (Token.texts pre) (c.flush p.indent) ∨ Recites pre c t)) ?_ ?_
  · exact ⟨.refl hs, sits_nil, .inr ⟨rfl, [], pre, rest, rfl, hne, rfl, hrest.symm⟩⟩
  · rintro c t ⟨ht, hc, hrecites⟩
    have hmoves := ends_inlineTurn_moves hi n stops ht hsrc hc
    rcases hrecites with hleads | ⟨hnodes, done, todo, rest, rfl, hne, htext, hp⟩
    · refine hmoves.imp fun turn u ⟨hu, hturn⟩ => ?_
      cases turn with
      | done r => exact hturn.leads _ hleads
      | again c => exact ⟨hu, hturn.sits, .inl (hturn.leads _ hleads)⟩
    · obtain ⟨tok, todo, rfl⟩ := List.exists_cons_of_ne_nil hne
      refine ((ends_inlineTurn_literal (F := fun _ => True) (E := fun _ _ => True) (k := 0)
        ht.placed.sound hp (hlit tok (by simp)) (t.spare_true 0) (by decide)).and hmoves).mono
          (fun turn u hu => ?_) fun _ _ _ => trivial
      obtain ⟨⟨rfl, -, hpu, -⟩, hu, hturn⟩ := hu
      refine ⟨hu, hturn.sits, ?_⟩
      have hpend : (c.push tok tok.text).pending = some
          ⟨(c.pending.map TextRun.start).getD tok.start, tok.stop,
            Token.texts (done ++ [tok])⟩ := by
        simp [InlineContent.push, TextRun.extend_eq, htext]
      cases todo with
      | nil =>
        have hflush : (c.push tok tok.text).flush p.indent =
            [TextRun.toInline p.indent ⟨(c.pending.map TextRun.start).getD tok.start, tok.stop,
              Token.texts (done ++ [tok])⟩] := by
          have hnodes : (c.push tok tok.text).nodes = [] := hnodes
          simp [InlineContent.flush, hpend, hnodes]
        exact .inl ⟨_, _, [], hflush, by simp⟩
      | cons next todo =>
        exact .inr ⟨hnodes, done ++ [tok], next :: todo, rest, by simp, by simp,
          by rw [hpend]; rfl, hpu⟩

structure Written (src : Source) (limit i : Nat) (b : Block) : Prop where
  paragraph : ∃ span cs, b = .paragraph span cs ∧ Inline.Apart cs ∧ Inline.AllFormed cs
  levelled : Levelled src limit i [b.tree]

theorem ends_paragraph_written (hi : p.indent ≤ limit) (hs : s.Placed) (hsrc : s.source = src)
    (hbar : p.mode = .cellLine → (s.ahead 0).tag ≠ .pipe) :
    Ends (fun _ => True) (paragraph p) s (fun b _ => Written src limit p.indent b ∧
      ((s.ahead 0).tag.endsLine = false → b.Formed)) fun _ _ => True := by
  refine Ends.bind (Ends.peek (.refl hs.sound) (by decide) (s.spare_true 0) (by decide)
    fun t ht _ _ => ?_)
  have hpt := (hs.looks ht).placed
  have hsrct := ht.source.trans hsrc
  rw [hs.sound.start_ahead]
  let heads := s.pending.take (classified s).heads.length
  have hstrand := yields_inlines hi (Style.all.length + 1) [] t hpt hsrct
  have hne := Ends.given (C := (s.ahead 0).tag.endsLine = false) fun hline =>
    ends_inlines_ne_nil (n := Style.all.length + 1) hi hpt hsrct
      (.inr ⟨rfl, by rw [ht.ahead]; exact hline, by rw [ht.ahead]; exact hbar⟩)
  have hmarker := announces_classified hs.sound
  have htags : heads.map Token.tag = (classified s).heads := hmarker.map_tag_take
  have hleads := Ends.given (C := (classified s).opensBody = true) fun hopens => by
    have hprefix : heads <+: t.pending := by
      rw [ht.pending]
      exact List.take_prefix ..
    refine ends_inlines_leads (n := Style.all.length + 1) hi [] hpt hsrct hprefix (fun hnil => ?_)
      fun tok htok => ?_
    · rw [hnil] at htags
      exact Marker.heads_ne_nil hopens htags.symm
    · refine Marker.isLiteral_of_mem_heads hopens (htags ▸ List.mem_map_of_mem htok)
        fun hmode htable => hbar hmode ?_
      rw [htable] at hmarker
      exact (hmarker.cons rfl).2
  refine Ends.seq ((hstrand.and hne).and hleads |>.mono (fun _ _ h => h) fun _ _ _ => trivial) ?_
  rintro ⟨children, ending⟩ u ⟨⟨⟨-, hstrand⟩, hne⟩, hleads⟩
  refine Ends.bind (Ends.endFrom (Ends.pure ⟨⟨⟨_, _, rfl, hstrand.apart, hstrand.formed⟩, ?_⟩,
    fun hline => ⟨hne hline, hstrand.apart, hstrand.formed⟩⟩))
  refine levelled_node.2 ⟨⟨rfl, hi, fun _ => rfl, fun _ b hb => ?_⟩, hstrand.levelled⟩
  obtain rfl := Node.block.inj hb
  intro x hx hxsrc hnext hopens
  have hpx := hs.sound.pending_unique hx (hxsrc.trans hsrc.symm) hnext
  rw [classified_congr hpx (hxsrc.trans hsrc.symm)] at hopens ⊢
  obtain ⟨span, text, rest, rfl, htext⟩ := hleads hopens
  exact ⟨_, span, text, rest, rfl, by rw [hpx]; exact htext⟩

end Parse

end TaskMarkup
