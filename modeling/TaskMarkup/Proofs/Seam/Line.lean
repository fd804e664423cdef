import TaskMarkup.Proofs.Seam.Standing

namespace TaskMarkup

theorem Ruler.columns_moved (ruler : Ruler) (k : Nat) (ts : List Token) :
    ruler.columns (ts.map (Token.moved k)) = ruler.columns ts := by
  induction ts with
  | nil => rfl
  | cons t ts ih => exact congrArg (_ + ·) ih

def Seam.Flat (x : Seam) (ruler : Ruler) : Prop :=
  ∀ ws, ws <:+ x.blank → (∀ u ∈ ws, u.tag.isInlineSpace = true) →
    ruler.columns ws / ruler.width = 0

def Token.WholeLines (ts : List Token) : Prop :=
  ts = [] ∨ ts.getLast?.map Token.tag = some .newline

namespace Parse

open Rule

variable {E : Empty → Lexer Cursor → Prop} {x : Seam} {ruler : Ruler} {s t : Lexer Cursor}
  {tok : Token} {rest : List Token} {i : Nat} {level : Level}

theorem ends_lineStart_columns (hs : s.Sound) (hline : s.observer.lineIndent = none) :
    Ends (fun _ => True) (lineStart ruler) s (fun r t => ∀ m, r = some m → ∃ us ws,
      s.pending = us ++ (ws ++ t.pending) ∧ Token.WholeLines us ∧
        (∀ u ∈ ws, u.tag.isInlineSpace = true) ∧ m = ruler.columns ws / ruler.width) E := by
  apply Ends.loop_true (fun _ t => (t.Sound ∧ t.observer.lineIndent = none) ∧
    ∃ us, s.pending = us ++ t.pending ∧ Token.WholeLines us) ⟨⟨hs, hline⟩, [], rfl, .inl rfl⟩
  rintro - t ⟨⟨ht, hline⟩, us, hus, hlines⟩
  apply Ends.bind
  apply Ends.get
  split
  · refine Ends.pure ?_
    rintro _ ⟨⟩
  · apply Ends.bind
    apply Ends.cursor
    rw [hline]
    apply Ends.seq (ends_measureIndent (excused_true ruler) ht (t.spare_true 0) (by decide))
    rintro m u ⟨n, hm, hu⟩
    obtain ⟨ws, hws, hspace, rfl⟩ := hu.blank
    apply Ends.bind
    apply Ends.peekTag (.refl hu.sound) (by decide) hu.spare (by decide)
    intro v hv hkv _
    split
    · refine Ends.pure ?_
      rintro _ ⟨⟩
    · next hnl =>
      have hp := (hu.sound.tag_ahead_zero.resolve_left fun h => by simp [h.1] at hnl).2
      apply Ends.bind
      apply Ends.paused
      apply Ends.eat (.refl hv.sound.onCursor) hkv.onCursor (by decide) (hv.pending.trans hp)
      refine fun w hw hr _ => ⟨_, hw.took, by simp [hnl], fun _ => Ends.pure
        ⟨⟨hw.sound.onCursor, ?_⟩, us ++ ws ++ [u.ahead 0], ?_, .inr (by simp [hnl])⟩⟩
      · simp [hw.observer, Observer.onEat, Cursor.onEat, Cursor.note, hnl]
      · rw [Lexer.pending_onCursor, hr, hus, hws, hp]
        simp
    · apply Ends.bind
      apply Ends.setLineIndent
      refine Ends.pure ?_
      rintro _ ⟨⟩
      exact ⟨us, ws, by rw [hus, hws, Lexer.pending_onCursor, hv.pending], hlines, hspace, hm⟩

structure Crosses (x : Seam) (ruler : Ruler) (s : Lexer Cursor) (n : Nat) (t : Lexer Cursor) : Prop
    extends Measured (fun _ => True) ruler 0 s n t where
  upto : x.Before t ∨ x.Inside t
  zero : x.Inside t → (t.ahead 0).tag.isContent = true → n / ruler.width = 0

theorem keeps_indentColumns (hx : x.Flat ruler) (hs : s.Sound) (h : x.Before s ∨ x.Inside s) :
    Ends (fun _ => True) (indentColumns ruler) s (fun n t => Crosses x ruler s n t) E := by
  apply (ends_indentColumns (excused_true ruler) hs (s.spare_true 0) (by decide)).imp
  intro _ t ht
  obtain ⟨ts, hts, hspace, rfl⟩ := ht.blank
  have hnl : ∀ u ∈ ts, u.tag ≠ .newline := fun u hu => Tag.ne_newline_of_isInlineSpace (hspace u hu)
  refine ⟨ht, h.imp (fun h => h.drop hts hnl) fun h => h.skips ht.toSkips, ?_⟩
  intro hin hcontent
  have hpt := (hin.reached hcontent).pending
  rcases h with h | h
  · exact absurd hin (h.drop hts hnl).not_inside
  · obtain ⟨ws, hws, hp⟩ := h.pending
    rw [hts, hpt] at hp
    obtain rfl := List.append_cancel_right hp
    apply hx ts _ hspace
    rcases List.suffix_cons_iff.1 hws with rfl | hws
    · exact absurd x.newline (hnl _ (by simp))
    · exact hws

theorem keeps_measureIndent (hx : x.Flat ruler) (hs : s.Sound) (h : x.Before s ∨ x.Inside s) :
    Ends (fun _ => True) (measureIndent ruler) s (fun m t => ∃ n, m = n / ruler.width ∧
      Crosses x ruler s n t) E :=
  Ends.seq (keeps_indentColumns hx hs h) fun n _ h => Ends.pure ⟨n, rfl, h⟩

/-- The next line is one before the seam, or the one behind it, which is not indented. -/
inductive Lands (x : Seam) (r : Option Nat) (t : Lexer Cursor) : Prop
  | before : x.Before t → Lands x r t
  | reached : x.Reached t → r = some 0 → t.observer.lineIndent = some 0 → Lands x r t

theorem Lands.upto {r : Option Nat} (h : Lands x r t) : x.Upto t := by
  cases h with
  | before h => exact .before h
  | reached h _ hm => exact .inside h.inside (by simp [hm])

theorem keeps_lineTurn (hx : x.Flat ruler) (hs : s.Steady) (hi : Rests (fun _ => True) i s)
    (h : x.Upto s) :
    Ends (fun _ => True) (lineTurn ruler) s (fun turn t =>
      turn.Gives (fun r => Lands x r t) fun _ => x.Upto t) E := by
  have hne (he : s.atEof = true) : False := h.ne_nil (hs.sound.pending_of_atEof he)
  apply Ends.bind
  apply Ends.get
  split
  · next he => exact (hne he).elim
  · apply Ends.bind
    apply Ends.cursor
    cases hi with
    | found hfound =>
      cases hfound with
      | ended _ he _ => exact (hne he).elim
      | line hm hc _ _ =>
        rw [hm]
        apply Ends.pure
        cases h with
        | before h => exact .before h
        | inside h hzero =>
          obtain rfl := hzero _ hm
          exact .reached (h.reached hc) rfl hm
    | fresh hm hset _ =>
      rw [hm]
      apply Ends.seq (keeps_measureIndent hx hs.sound h.or)
      rintro m u ⟨n, hm, hu⟩
      have hne := hu.upto.elim Seam.Before.ne_nil Seam.Inside.ne_nil
      have hsu := hs.skips hset.done hu.toSkips
      apply Ends.bind
      apply Ends.peekTag (.refl hu.sound) (by decide) hu.spare (by decide)
      intro v hv hkv _
      have hupto : x.Before v ∨ x.Inside v := hu.upto.imp (·.looks hv) (·.looks hv)
      split
      · next heof => exact absurd (hu.sound.tag_ahead_zero.resolve_right fun h => h.1 heof).2 hne
      · next hnl =>
        have hp := (hu.sound.tag_ahead_zero.resolve_left fun h => by simp [h.1] at hnl).2
        apply Ends.bind
        apply Ends.paused
        apply Ends.eat (.refl hv.sound.onCursor) hkv.onCursor (by decide) (hv.pending.trans hp)
        refine fun w hw _ _ => ⟨_, hw.took, by simp [hnl], fun hskip => Ends.pure ?_⟩
        refine .of_fresh (hupto.elim (·.skips (hsu.looks hv) hskip) fun h => .inr (h.skips hskip)) ?_
        simp [hw.observer, Observer.onEat, Cursor.onEat, Cursor.note, hnl]
      · next heof hnl =>
        have hcontent : (u.ahead 0).tag.isContent = true := by
          rw [Tag.isContent_iff]
          exact ⟨hu.next, by simpa [Tag.endsLine] using ⟨hnl, heof⟩⟩
        apply Ends.bind
        apply Ends.setLineIndent
        apply Ends.pure
        rcases hu.upto with h | h
        · exact .before ((h.looks hv).of_pending rfl)
        · obtain rfl := hm.trans (hu.zero h hcontent)
          have hreached := (h.reached hcontent).looks hv
          exact .reached ⟨hreached.pending, hreached.lastEnd_le⟩ rfl rfl

theorem keeps_lineStart (hx : x.Flat ruler) (hs : s.Steady) (hi : Rests (fun _ => True) i s)
    (h : x.Upto s) : Ends (fun _ => True) (lineStart ruler) s (fun r t => Lands x r t) E := by
  apply Ends.loop_true (fun _ t => t.Steady ∧ Rests (fun _ => True) i t ∧ x.Upto t) ⟨hs, hi, h⟩
  rintro - t ⟨ht, hit, h⟩
  apply ((ends_lineTurn (excused_true ruler) ht hit).also (keeps_lineTurn (E := E) hx ht hit h)).imp
  rintro turn u ⟨⟨⟨-, hu⟩, hgives⟩, hkeeps⟩
  cases turn with
  | done r => exact hkeeps
  | again => exact ⟨hu, hgives.1, hkeeps⟩

theorem keeps_nextTurn {α : Type} {continues : Marker → Bool} {a : α} (hx : x.Flat level.ruler)
    (hs : s.Steady) (hi : Rests (fun _ => True) (i + 1) s) (h : x.Upto s)
    (hstop : i = 0 → ∀ t : Lexer Cursor, t.pending = x.rest →
      continues (announced level.room t) = false) :
    Ends (fun _ => True) (nextTurn level i continues a) s (fun turn t =>
      turn.Gives (fun _ => x.Upto t) fun _ => x.Before t) E := by
  apply Ends.seq ((ends_lineStart (excused_true level.ruler) hs hi).also
    (keeps_lineStart (E := E) hx hs hi h))
  rintro r t ⟨⟨-, ht, -⟩, hlands⟩
  split
  · exact Ends.pure hlands.upto
  · next measured =>
    split
    · exact Ends.pure hlands.upto
    · next hm =>
      obtain rfl : measured = i := by simpa using hm
      apply Ends.seq (ends_announced ht.sound (t.spare_true 0) (by decide))
      rintro _ u ⟨hu, -, rfl⟩
      apply Ends.pure
      split
      · next hc =>
        cases hlands with
        | before h => exact h.looks hu
        | reached h hzero _ =>
          have := hstop (Option.some.inj hzero) t h.pending
          simp [this] at hc
      · exact hlands.upto.looks hu

theorem keeps_continueParagraph {p : ParagraphContext} (hx : x.Flat p.level.ruler) (hs : s.Firm)
    (h : x.Before s) (hp : s.pending = tok :: rest) (htok : tok.tag = .newline) :
    Ends (fun _ => True) (continueParagraph p) s (fun r t =>
      x.Before t ∨ r = none ∧ x.Upto t) E := by
  apply Ends.bind
  apply Ends.eat (.refl hs.sound) (s.spare_true 0) (by decide) hp
  intro t ht _ _
  have hline : t.observer.lineIndent = none := by
    simp [ht.observer, Observer.onEat, Cursor.onEat, Cursor.note, htok]
  have hback := h.newline hs.toSteady ht
  apply Ends.seq (keeps_measureIndent hx ht.sound (hback.imp id And.left))
  rintro m u ⟨n, -, hu⟩
  apply Ends.bind
  apply Ends.peekTag (.refl hu.sound) (by decide) hu.spare (by decide)
  intro v hv _ _
  split
  · refine Ends.pure (.inr ⟨rfl, .of_fresh (hu.upto.imp (·.looks hv) (·.looks hv)) ?_⟩)
    rw [hv.observer, hu.lineIndent, hline]
  · next hends =>
    -- Behind the last line before the seam a blank line is next.
    have hbefore : x.Before u := by
      obtain ⟨ts, hts, hspace, -⟩ := hu.blank
      rcases hback with h | ⟨-, hpt⟩
      · exact h.drop hts fun w hw => Tag.ne_newline_of_isInlineSpace (hspace w hw)
      · rw [hpt, Seam.ahead] at hts
        cases ts with
        | nil =>
          rw [Lexer.ahead_zero_of_cons hts.symm, x.newline] at hends
          exact absurd rfl hends
        | cons w ts =>
          obtain ⟨rfl, -⟩ := List.cons.inj hts
          exact absurd x.newline (Tag.ne_newline_of_isInlineSpace (hspace _ (by simp)))
    have hbefore : x.Before (v.onCursor (.onLine (some m))) := (hbefore.looks hv).of_pending rfl
    apply Ends.bind
    apply Ends.setLineIndent
    split
    · exact Ends.pure (.inl hbefore)
    · apply Ends.seq (ends_dispatch hv.sound.onCursor (Lexer.spare_true _ 0) (by decide))
      rintro marker w ⟨hw, -⟩
      split
      · exact Ends.pure (.inl (hbefore.looks hw))
      · exact Ends.pure (.inl (hbefore.looks hw))

end Parse

end TaskMarkup
