import TaskMarkup.Proofs.Seam.Line

namespace TaskMarkup.Parse

open Rule

variable {E : Empty → Lexer Cursor → Prop} {x : Seam} {p : ParagraphContext} {n : Nat}
  {stops : List Style} {style : Style} {s t : Lexer Cursor}

def Remains (x : Seam) (p : ParagraphContext) (ending : InlineStop) (t : Lexer Cursor) : Prop :=
  x.Before t ∨ p.mode = .block ∧ ending = .over ∧ x.Upto t

theorem keeps_styled {inner : Parse (List Inline × InlineStop)} (hs : s.Firm)
    (hd : Delimits style s) (h : x.Before s)
    (hinner : ∀ t, t.Firm → x.Before t → Ends (fun _ => True) inner t
      (fun r u => Ended (fun _ => True) p n (style :: stops) t r u ∧ Remains x p r.2 u) E) :
    Ends (fun _ => True) (styled p.indent style inner) s (fun r t => Remains x p r.2 t) E := by
  apply Ends.bind
  apply Ends.peek (.refl hs.sound) (by decide) (s.spare_true 0) (by decide)
  intro t ht _ _
  have hdt : Delimits style t := by
    unfold Delimits
    rw [ht.pending]
    exact hd
  apply Ends.seq (ends_delimiters (hs.looks ht) hdt (t.spare_true 0) (by decide))
  rintro - u ⟨hu, -⟩
  apply Ends.bind
  apply Ends.endFrom
  apply Ends.seq (hinner u (hu.firm (hs.looks ht)) ((h.looks ht).reads hu))
  rintro ⟨children, ending⟩ v ⟨hv, hremains⟩
  dsimp only
  split
  · next hclose =>
    subst hclose
    have hst : Stopped (fun _ => True) p (style :: stops) v .close := hv.stopped
    cases hst with
    | close hhead hdv =>
      obtain rfl : style = _ := by simpa using hhead
      apply Ends.seq (ends_delimiters hv.firm hdv (v.spare_true 0) (by decide))
      rintro - w ⟨hw, -⟩
      apply Ends.bind
      apply Ends.cursor
      have hbefore : x.Before v := hremains.resolve_right fun h => by simp at h
      exact Ends.pure (.inl (hbefore.reads hw))
  · exact Ends.pure hremains

theorem cases_keeps {inner : List Style → Parse (List Inline × InlineStop)} {c : InlineContent}
    (hx : x.Flat p.level.ruler) (hs : s.Firm)
    (hinner : ∀ style t, style ∉ stops → t.Firm → x.Before t →
      Ends (fun _ => True) (inner (style :: stops)) t (fun r u =>
        Ended (fun _ => True) p n (style :: stops) t r u ∧ Remains x p r.2 u) E)
    (hc : s.Gathers p.indent t c) (h : x.Before t) :
    InlineCases (fun _ => True) E p stops inner c 0 t fun turn u =>
      turn.Gives (fun r => Remains x p r.2 u) fun _ => x.Before u where
  halt hu _ _ _ := .inl (h.looks hu)
  stop hu _ _ _ _ := .inl (h.looks hu)
  line hu _ hp htag _ hmode := by
    refine (keeps_continueParagraph hx (hc.firm.looks hu) (h.looks hu) hp htag).imp ?_
    rintro (- | newline) v hv
    · exact hv.imp id fun hv => ⟨hmode, rfl, hv.2⟩
    · exact hv.resolve_right fun hv => by simp at hv
  literal hu hk hp hback hnl :=
    (ends_literal hs (hc.looks hu) hp hback hnl hk (by decide)).imp
      fun _ _ hv => (h.looks hu).reads hv.1
  escape hu hk hp hback :=
    (ends_escape hs (hc.looks hu) hp hback hk (by decide)).imp
      fun _ _ hv => (h.looks hu).reads hv.1
  styled hu _ _ _ hnew hd := by
    refine (keeps_styled (hc.firm.looks hu) hd (h.looks hu)
      fun v hv => hinner _ v hnew hv).imp ?_
    rintro ⟨node, ending⟩ v hv
    dsimp only
    split
    · exact hv.imp id fun hv => ⟨hv.1, rfl, hv.2.2⟩
    · next hover => exact hv.resolve_right fun hv => hover hv.2.1
  raw hu hk hp htag :=
    (ends_rawInline (hc.firm.looks hu) hp htag hk (by decide)).imp
      fun _ _ hv => (h.looks hu).reads hv.1.toReads
  link hu hk hp htag :=
    (ends_link (hc.firm.looks hu) hp htag hk (by decide)).imp
      fun _ _ hv => (h.looks hu).reads hv.1.toReads
  tagRef hu hk hp htag hname _ :=
    (ends_tagRef (hc.firm.looks hu) hp (by simp [htag])
      (by rcases hname with hname | hname <;> simp [hname]) hk (by decide)).imp
        fun _ _ hv => (h.looks hu).reads hv.1.toReads

theorem keeps_inlines (hx : x.Flat p.level.ruler) (hs : s.Firm) (hstops : stops.Nodup)
    (hn : stops.length + n = 7) (h : x.Before s) :
    Ends (fun _ => True) (inlines p n stops) s (fun r t =>
      Ended (fun _ => True) p n stops s r t ∧ Remains x p r.2 t) E := by
  -- By induction on the room for loops inside one another.
  induction n generalizing stops s with
  | zero => exact Ends.throw trivial
  | succ n ih =>
    have hdeeper {style : Style} (hmem : style ∉ stops) :
        (style :: stops).Nodup ∧ (style :: stops).length + n = 7 := by
      refine ⟨List.nodup_cons.2 ⟨hmem, hstops⟩, ?_⟩
      rw [List.length_cons]
      omega
    have hkeeps : Ends (fun _ => True) (inlines p (n + 1) stops) s
        (fun r t => Remains x p r.2 t) E := by
      apply Ends.loop_true (fun c t => Midway (fun _ => True) p n s t c ∧ x.Before t)
        ⟨.start hs (s.spare_true _), h⟩
      rintro c t ⟨hc, ht⟩
      have hends := ends_inlineTurn (E := E) (excused_true _) hs (by omega)
        (fun style u hmem _ hu _ => ends_inlines (excused_true _) hu (hdeeper hmem).1
          (hdeeper hmem).2 (u.spare_true _)) hc
      have hkeeps := ends_inlineTurn_of_cases hc.firm.sound (t.spare_true 0) (by decide) <|
        cases_keeps (E := E) hx hs (fun style u hmem hu hbefore =>
          ih hu (hdeeper hmem).1 (hdeeper hmem).2 hbefore) hc.toGathers ht
      refine (hends.also hkeeps).imp ?_
      rintro turn u ⟨hends, hkeeps⟩
      cases turn with
      | done r => exact hkeeps
      | again c => exact ⟨hends.1, hkeeps⟩
    exact (ends_inlines (excused_true _) hs hstops hn (s.spare_true _)).also hkeeps

theorem keeps_paragraph (hx : x.Flat p.level.ruler) (hs : s.Firm) (h : x.Before s) :
    Ends (fun _ => True) (paragraph p) s (fun _ t => x.Before t ∨ p.mode = .block ∧ x.Upto t) E := by
  apply Ends.bind
  apply Ends.peek (.refl hs.sound) (by decide) (s.spare_true 0) (by decide)
  intro t ht _ _
  apply Ends.seq (keeps_inlines hx (hs.looks ht) List.nodup_nil rfl (h.looks ht))
  rintro ⟨children, ending⟩ u ⟨-, hremains⟩
  apply Ends.bind
  apply Ends.endFrom
  exact Ends.pure (hremains.imp id fun h => ⟨h.1, h.2.2⟩)

end TaskMarkup.Parse
