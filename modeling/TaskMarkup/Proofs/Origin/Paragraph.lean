import TaskMarkup.Proofs.Origin.Block
import TaskMarkup.Proofs.Origin.Inline

namespace TaskMarkup

def Source.BlankBetween (src : Source) (lo hi : Nat) : Prop :=
  ∃ before ws after, src.chars = before ++ '\n' :: (ws ++ '\n' :: after) ∧
    (∀ c ∈ ws, c = ' ' ∨ c = '\t') ∧ lo ≤ Text.byteSize before + 1 ∧
    Text.byteSize before + 1 + Text.byteSize ws + 1 ≤ hi

theorem Source.BlankBetween.mono {src : Source} {lo lo' hi hi' : Nat}
    (h : src.BlankBetween lo hi) (hlo : lo' ≤ lo) (hhi : hi ≤ hi') : src.BlankBetween lo' hi' := by
  obtain ⟨before, ws, after, hchars, hws, hle, hle'⟩ := h
  exact ⟨before, ws, after, hchars, hws, Nat.le_trans hlo hle, Nat.le_trans hle' hhi⟩

theorem Lexer.Eats.blankBetween {s t u : Lexer Cursor} {nl : Token} {ts : List Token}
    (h : s.Eats nl t) (hs : s.Sound) (hnl : nl.tag = .newline) (hu : u.Sound)
    (hsrc : u.source = t.source) (hp : t.pending = ts ++ u.pending)
    (hts : ∀ v ∈ ts, v.tag.isInlineSpace = true) (hnext : (u.ahead 0).tag = .newline) :
    u.source.BlankBetween t.nextOffset (u.nextOffset + 1) := by
  obtain ⟨-, hcons⟩ := hu.tag_ahead_zero.resolve_left fun h => by simp [h.1] at hnext
  have hnl := (hs.spelled (t := nl) (by simp [h.pending])).newline hnl
  have hnext := (hu.spelled (hcons ▸ List.mem_cons_self ..)).newline hnext
  have hws := Token.blank_texts
    (fun v hv => h.sound.spelled (hp ▸ List.mem_append_left _ hv)) hts
  have hone : Char.utf8Size '\n' = 1 := rfl
  have ht := h.took.consumed hs
  have hline := Lexer.consumed_of_pending h.sound hu hsrc hp
  have hsizet := h.sound.position.2.1
  obtain ⟨hchars, hsizeu, -⟩ := hu.position
  rw [Token.texts_cons, Token.texts_nil, List.append_nil, hnl] at ht
  rw [ht] at hsizet
  rw [ht, List.append_assoc, List.singleton_append] at hline
  rw [hline] at hsizeu
  rw [hline, hcons, Token.texts_cons, hnext, List.append_assoc, List.cons_append,
    List.singleton_append] at hchars
  simp only [Text.byteSize_append, Text.byteSize_cons, Text.byteSize_nil, hone] at hsizet hsizeu
  exact ⟨_, _, _, hchars, hws, by omega, by omega⟩

open Parse Rule

inductive Origin.Parted (level : Level) (i : Nat) (t : Lexer Cursor) : Prop
  | ended : t.pending = [] → Parted level i t
  | blank : (t.ahead 0).tag = .newline →
      t.source.BlankBetween t.observer.lastEnd (t.nextOffset + 1) → Parted level i t
  | known : Declines level i (fun m => m = .paragraph) t → Parted level i t

namespace Parse

open Origin

variable {level : Level} {i n : Nat} {p : ParagraphContext} {stops : List Style} {style : Style}
  {inner : Parse (List Inline × InlineStop)} {s t : Lexer Cursor} {b : Block}

theorem ends_continueParagraph_parted (hs : s.Placed) (hnl : (s.ahead 0).tag = .newline) :
    Ends (fun _ => True) (continueParagraph p) s
      (fun r t => r = none → Parted p.level p.indent t) fun _ _ => True := by
  obtain ⟨-, hp⟩ := hs.sound.tag_ahead_zero.resolve_left fun h => by simp [h.1] at hnl
  refine Ends.bind (Ends.eat (.refl hs.sound) (s.spare_true 0) (by decide) hp
    fun t ht hpt _ => ?_)
  have hlast := (hs.took ht.took).placed.lastEnd_le
  refine Ends.seq (ends_measureIndent (excused_true _) ht.sound (t.spare_true 0) (by decide)) ?_
  rintro measured u ⟨columns, -, hu⟩
  refine Ends.bind (Ends.peekTag (.refl hu.sound) (by decide) (u.spare_true 0) (by decide)
    fun v hv _ _ => ?_)
  have htv := hu.toSkips.looks hv
  split
  · next hends =>
    refine Ends.pure fun _ => ?_
    rcases hu.sound.tag_ahead_zero with ⟨-, hnil⟩ | ⟨hne, hcons⟩
    · exact .ended (hv.pending.trans hnil)
    · have hnext : (u.ahead 0).tag = .newline := by simpa [Tag.endsLine, hne] using hends
      obtain ⟨ts, hts, hblank, -⟩ := hu.blank
      have hline := ht.blankBetween hs.sound hnl hv.sound htv.source (by rw [hts, hv.pending])
        hblank (by rw [hv.ahead, hnext])
      exact .blank (by rw [hv.ahead, hnext]) (hline.mono (by rwa [htv.lastEnd]) (Nat.le_refl _))
  · next hends =>
    have hcontent : (v.ahead 0).tag.isContent = true := by
      rw [hv.ahead, Tag.isContent_iff]
      exact ⟨hu.next, by simpa using hends⟩
    refine Ends.bind (Ends.setLineIndent ?_)
    split
    · next hlt =>
      exact Ends.pure fun _ => .known (declines_of_measured hv.sound.onCursor rfl hcontent
        fun hle => by omega)
    · refine Ends.seq (ends_announced hv.sound.onCursor (Lexer.spare_true _ 0) (by decide)) ?_
      rintro _ w ⟨hw, -, rfl⟩
      split
      · exact Ends.pure (by simp)
      · next hne =>
        refine Ends.pure fun _ => .known (declines_of_measured hw.sound
          (by rw [hw.observer]; rfl) (by rw [hw.ahead]; exact hcontent) fun _ => ?_)
        rw [announced_looks hw]
        simpa using hne

theorem ends_styled_parted (level : Level) (i : Nat) (hs : s.Placed)
    (h : ∀ t, t.Placed → Ends (fun _ => True) inner t
      (fun r u => r.2 = .over → Parted level i u) fun _ _ => True) :
    Ends (fun _ => True) (styled n style inner) s (fun r t => r.2 = .over → Parted level i t)
      fun _ _ => True := by
  refine Ends.seq ((Advances.peek 0 s hs).mono (fun _ _ h => h) fun _ _ _ => trivial) ?_
  intro first t ht
  refine Ends.seq ((Advances.eatMany style.length t ht.placed).mono (fun _ _ h => h)
    fun _ _ _ => trivial) ?_
  intro _ u hu
  refine Ends.bind (Ends.endFrom (Ends.seq (h u hu.placed) ?_))
  rintro ⟨children, ending⟩ v hv
  dsimp only
  split
  · next hclose =>
    exact Ends.last fun _ _ => Ends.last fun _ _ => Ends.pure fun hover => by simp [hclose] at hover
  · exact Ends.pure hv

theorem ends_inlines_parted (hmode : p.mode = .block) (hs : s.Placed) :
    Ends (fun _ => True) (inlines p n stops) s
      (fun r t => Parted p.level p.indent t ∨ stops ≠ [] ∧ r.2 ≠ .over) fun _ _ => True := by
  -- By induction on the room for loops inside one another.
  induction n generalizing stops s with
  | zero => exact Ends.throw trivial
  | succ n ih =>
    refine Ends.loop_true (fun _ t => t.Placed) hs ?_
    intro c t ht
    refine ((ends_inlineTurn_step ht.sound).and
      (advances_inlineTurn (advances_inlines n) c t ht)).mono ?_ fun _ _ _ => trivial
    rintro turn u ⟨hstep, hu⟩
    cases hstep with
    | halt hlooks hhalts =>
      refine .inl ?_
      cases hhalts with
      | eof htag =>
        rcases ht.sound.tag_ahead_zero with ⟨-, hnil⟩ | ⟨hne, -⟩
        · exact .ended (hlooks.pending.trans hnil)
        · exact absurd htag hne
      | line _ hne => exact absurd hmode hne
      | bar _ hcell => simp [hmode] at hcell
    | stop _ hstops hne => exact .inr ⟨hstops, hne⟩
    | part hlooks htag _ hnone =>
      have hplaced := (ht.looks hlooks).placed
      exact .inl ((ends_continueParagraph_parted hplaced (by rw [hlooks.ahead, htag])).of_ok hnone
        rfl)
    | @styled style _ _ _ _ hlooks _ _ hnode =>
      have hparted := (ends_styled_parted p.level p.indent (ht.looks hlooks).placed fun v hv =>
        (ih hv).imp fun r w hr hover => hr.resolve_right fun h => h.2 hover).of_ok hnode
      split
      · next hover => exact .inl (hparted hover)
      · exact hu.placed
    | line | literal | escape | raw | link | tagRef => exact hu.placed

theorem ends_paragraph_parted (hs : s.Placed) :
    Ends (fun _ => True) (paragraph ⟨level, i, .block⟩) s (fun _ t => Parted level i t)
      fun _ _ => True := by
  refine Ends.seq ((Advances.peek 0 s hs).mono (fun _ _ h => h) fun _ _ _ => trivial) ?_
  intro first t ht
  refine Ends.seq (ends_inlines_parted (p := ⟨level, i, .block⟩) rfl ht.placed) ?_
  rintro ⟨children, ending⟩ u hu
  refine Ends.bind (Ends.endFrom (Ends.pure ?_))
  exact hu.resolve_right fun h => h.1 rfl

end Parse

end TaskMarkup
