import TaskMarkup.Proofs.Lexer.Reading
import TaskMarkup.Proofs.Lexer.Position

namespace TaskMarkup

def Tag.isContent (t : Tag) : Bool := !(t.isInlineSpace || t.endsLine)

theorem Tag.isContent_iff {t : Tag} : t.isContent = true ↔
    t.isInlineSpace = false ∧ t.endsLine = false := by
  simp [isContent]

theorem Tag.ne_newline_of_isInlineSpace {t : Tag} (h : t.isInlineSpace = true) : t ≠ .newline := by
  rintro rfl
  simp [isInlineSpace] at h

namespace Lexer

variable {s t u : Lexer Cursor} {ts : List Token} {F : Fault → Prop} {i k : Nat}

theorem isContent_ahead_iff : (s.ahead 0).tag.isContent = true ↔
    (s.pending.head?.map Token.tag).any Tag.isContent = true := by
  cases hp : s.pending with
  | nil => simp [ahead, hp, Token.eof, Tag.isContent, Tag.endsLine]
  | cons tok rest => simp [ahead, hp]

structure Onward (s t : Lexer Cursor) : Prop where
  source : t.source = s.source
  suffix : t.pending <:+ s.pending
  lastEnd_le : s.observer.lastEnd ≤ t.observer.lastEnd

namespace Onward

theorem refl (s : Lexer Cursor) : s.Onward s := ⟨rfl, List.suffix_refl _, Nat.le_refl _⟩

theorem trans (h : s.Onward t) (h' : t.Onward u) : s.Onward u where
  source := h'.source.trans h.source
  suffix := h'.suffix.trans h.suffix
  lastEnd_le := Nat.le_trans h.lastEnd_le h'.lastEnd_le

theorem nextOffset_le (h : s.Onward t) (hs : s.Sound) (ht : t.Sound) :
    s.nextOffset ≤ t.nextOffset := by
  obtain ⟨ts, hp⟩ := h.suffix
  rw [nextOffset_of_pending hs ht h.source hp.symm]
  omega

theorem pending_nil (h : s.Onward t) (hp : s.pending = []) : t.pending = [] := by
  have hsuffix := h.suffix
  rwa [hp, List.suffix_nil] at hsuffix

theorem length_pending_lt (h : s.Onward t) (hs : s.Sound) (ht : t.Sound)
    (hlt : s.nextOffset < t.nextOffset) : t.pending.length < s.pending.length := by
  obtain ⟨ts, hp⟩ := h.suffix
  rw [nextOffset_of_pending hs ht h.source hp.symm] at hlt
  cases ts with
  | nil => simp at hlt
  | cons tok ts =>
    rw [← hp, List.cons_append, List.length_cons, List.length_append]
    omega

end Onward

theorem Looks.nextOffset_eq (h : s.Looks t) (hs : s.Sound) : t.nextOffset = s.nextOffset :=
  have hp : s.pending = [] ++ t.pending := h.pending.symm
  nextOffset_of_pending hs h.sound h.source hp

theorem Sound.start_ahead (h : s.Sound) : (s.ahead 0).start = s.nextOffset := by
  rw [h.nextOffset_eq, ahead]
  cases s.pending <;> simp [Token.eof]

theorem Looks.onward (h : s.Looks t) : s.Onward t where
  source := h.source
  suffix := h.pending ▸ List.suffix_refl _
  lastEnd_le := by rw [h.observer]

theorem Steady.looks (h : s.Steady) (ht : s.Looks t) : t.Steady := h.took_nil ht.took

theorem Firm.looks (h : s.Firm) (ht : s.Looks t) : t.Firm := h.took ht.took (by simp)

theorem Steady.onward (h : s.Steady) (ht : s.Took ts t) : s.Onward t where
  source := ht.source
  suffix := ⟨ts, ht.pending.symm⟩
  lastEnd_le := by
    cases ts with
    | nil =>
      rw [ht.lastEnd h.sound h.unpaused]
      exact Nat.le_refl _
    | cons tok ts =>
      rw [ht.lastEnd_eq h.sound h.unpaused (by simp)]
      exact Nat.le_trans h.lastEnd_le (ht.nextOffset_le h.sound)

theorem Steady.nextOffset_lt (h : s.Steady) (ht : s.Took ts t) (hts : ts ≠ []) :
    s.nextOffset < t.observer.lastEnd := by
  rw [ht.lastEnd_eq h.sound h.unpaused hts,
    nextOffset_of_pending h.sound ht.sound ht.source ht.pending]
  cases ts with
  | nil => exact absurd rfl hts
  | cons tok ts =>
    have := (h.sound.spelled (t := tok) (by simp [ht.pending])).size_pos
    simp only [Token.size] at this
    simp only [Token.texts_cons, Text.byteSize_append]
    omega

theorem eq_of_white {us vs ts ts' : List Token}
    (hus : ∀ u ∈ us, (u.tag.isInlineSpace || u.tag == .newline) = true)
    (hvs : ∀ v ∈ vs, (v.tag.isInlineSpace || v.tag == .newline) = true)
    (hts : (ts.head?.map Token.tag).any Tag.isContent = true)
    (hts' : (ts'.head?.map Token.tag).any Tag.isContent = true) (h : us ++ ts = vs ++ ts') :
    ts = ts' := by
  have hnil {ws ts : List Token} (hws : ∀ w ∈ ws, (w.tag.isInlineSpace || w.tag == .newline) = true)
      (hc : ((ws ++ ts).head?.map Token.tag).any Tag.isContent = true) : ws = [] := by
    cases ws with
    | nil => rfl
    | cons w ws =>
      have hw := hws w (by simp)
      obtain ⟨hspace, hline⟩ := Tag.isContent_iff.1 (by simpa using hc)
      simp only [hspace, Bool.false_or, beq_iff_eq] at hw
      simp [hw, Tag.endsLine] at hline
  rcases List.append_eq_append_iff.1 h with ⟨ws, rfl, rfl⟩ | ⟨ws, rfl, rfl⟩
  · rw [hnil (fun w hw => hvs w (List.mem_append_right _ hw)) hts, List.nil_append]
  · rw [hnil (fun w hw => hus w (List.mem_append_right _ hw)) hts', List.nil_append]

structure Skips (s t : Lexer Cursor) : Prop extends Onward s t where
  white : ∃ ts, s.pending = ts ++ t.pending ∧
    ∀ u ∈ ts, (u.tag.isInlineSpace || u.tag == .newline) = true
  sound : t.Sound
  unpaused : t.observer.paused = false
  lastEnd : t.observer.lastEnd = s.observer.lastEnd
  wordStart : t.pending = s.pending ∧ t.observer.wordStart = s.observer.wordStart ∨
    t.observer.wordStart = true

namespace Skips

theorem refl (h : s.Sound) (hp : s.observer.paused = false) : s.Skips s :=
  ⟨.refl s, ⟨[], rfl, by simp⟩, h, hp, rfl, .inl ⟨rfl, rfl⟩⟩

theorem trans (h : s.Skips t) (h' : t.Skips u) : s.Skips u where
  toOnward := h.toOnward.trans h'.toOnward
  white := by
    obtain ⟨ts, hp, hts⟩ := h.white
    obtain ⟨us, hp', hus⟩ := h'.white
    exact ⟨ts ++ us, by rw [hp, hp', List.append_assoc],
      fun v hv => (List.mem_append.1 hv).elim (hts v) (hus v)⟩
  sound := h'.sound
  unpaused := h'.unpaused
  lastEnd := h'.lastEnd.trans h.lastEnd
  wordStart := by
    rcases h'.wordStart with ⟨hp, hw⟩ | hw
    · rw [hp, hw]
      exact h.wordStart
    · exact .inr hw

theorem looks (h : s.Skips t) (h' : t.Looks u) : s.Skips u where
  toOnward := h.toOnward.trans h'.onward
  white := by
    rw [h'.pending]
    exact h.white
  sound := h'.sound
  unpaused := by rw [h'.observer, h.unpaused]
  lastEnd := by rw [h'.observer, h.lastEnd]
  wordStart := by
    rw [h'.observer, h'.pending]
    exact h.wordStart

end Skips

def LineDone (s : Lexer Cursor) : Prop :=
  s.source.EndsLine s.observer.lastEnd ∨ s.observer.lastEnd = 0

theorem LineDone.skips (h : s.LineDone) (ht : s.Skips t) : t.LineDone := by
  unfold LineDone
  rw [ht.source, ht.lastEnd]
  exact h

/-- A place at the end of a line or behind it. What stands next there starts a word. -/
structure Settled (s : Lexer Cursor) : Prop where
  done : s.LineDone
  wordStart : (s.ahead 0).tag.isContent = true → s.observer.wordStart = true

theorem Settled.skips (h : s.Settled) (ht : s.Skips t) : t.Settled where
  done := h.done.skips ht
  wordStart hc := by
    rcases ht.wordStart with ⟨hp, hw⟩ | hw
    · rw [hw]
      apply h.wordStart
      rwa [ahead, hp, ht.source] at hc
    · exact hw

theorem Settled.opensLine (h : s.Settled) (hs : s.Steady) (hpos : s.observer.lastEnd ≠ 0)
    (hc : (s.ahead 0).tag.isContent = true) : Text.OpensLine s.consumed := by
  rw [Tag.isContent_iff] at hc
  obtain ⟨-, hp⟩ := hs.sound.tag_ahead_zero.resolve_left fun h => by simp [h.1, Tag.endsLine] at hc
  have hspell := hs.sound.spelled (t := s.ahead 0) (hp ▸ List.mem_cons_self ..)
  have hnl : (s.ahead 0).tag ≠ .newline := fun h => by simp [h, Tag.endsLine] at hc
  obtain ⟨c, cs, htext⟩ := List.exists_cons_of_ne_nil hspell.text_ne_nil
  have hsolid := hspell.solid hc.1 hnl c (by simp [htext])
  obtain ⟨ws, hws, hwhite⟩ := hs.gap
  obtain ⟨as, bs, hchars, hsize, hends⟩ := h.done.resolve_right hpos
  have hbs := hs.sound.position.1
  rw [hws, ← hsize, Source.before_of_append hchars, hchars, List.append_assoc,
    List.append_cancel_left_eq, hp, Token.texts_cons, htext] at hbs
  rw [hws, ← hsize, Source.before_of_append hchars]
  rcases hends with hnl | hnil | hnl
  · obtain ⟨init, rfl⟩ := List.getLast?_eq_some_iff.1 hnl
    rw [List.append_assoc]
    exact .of_white (Text.White.append (by simp [Text.White]) hwhite) (by simp)
  · simp [hnil] at hbs
  · cases ws with
    | nil =>
      rw [hbs] at hnl
      exact absurd (by simpa using hnl) hsolid.2.2
    | cons w ws =>
      rw [hbs] at hnl
      exact .of_white hwhite (by simp [show w = '\n' by simpa using hnl])

theorem Steady.settled (h : s.Steady) (hp : s.pending = []) : s.Settled where
  done := by
    rcases h.rests with hr | hr
    · refine .inl ⟨_, _, h.sound.position.1, ?_, .inr (.inl ?_)⟩
      · rw [h.sound.position.2.1, hr]
      · rw [hp, Token.texts_nil]
    · exact hr
  wordStart hc := by
    rw [Tag.isContent_iff, ahead_zero_of_nil hp] at hc
    simp [Tag.endsLine] at hc

theorem Steady.settled_of_newline {nl : Token} (h : s.Steady) (ht : s.Eats nl t)
    (hn : nl.tag = .newline) : t.Settled where
  done := .inl (h.eats_newline ht hn).2
  wordStart _ := ht.took.wordStart (by simp) (by simp [hn])

theorem Skips.consumed (h : s.Skips t) (hs : s.Sound) :
    ∃ ws, t.consumed = s.consumed ++ ws ∧ Text.White ws := by
  obtain ⟨ts, hp, hts⟩ := h.white
  refine ⟨Token.texts ts, consumed_of_pending hs h.sound h.source hp, Token.white_texts ?_ hts⟩
  exact fun u hu => hs.spelled (hp ▸ List.mem_append_left _ hu)

theorem Steady.skips (h : s.Steady) (hd : s.LineDone) (ht : s.Skips t) : t.Steady where
  sound := ht.sound
  unpaused := ht.unpaused
  boundary := by
    rw [ht.source, ht.lastEnd]
    exact h.boundary
  lastEnd_le := by
    rw [ht.lastEnd]
    exact Nat.le_trans h.lastEnd_le (ht.toOnward.nextOffset_le h.sound ht.sound)
  not_dangles := by
    rw [ht.source, ht.lastEnd]
    exact h.not_dangles
  rests := .inr (hd.skips ht)
  gap := by
    obtain ⟨ws, hws, hwhite⟩ := h.gap
    obtain ⟨vs, hvs, hwhite'⟩ := ht.consumed h.sound
    rw [ht.source, ht.lastEnd]
    exact ⟨ws ++ vs, by rw [hvs, hws, List.append_assoc], hwhite.append hwhite'⟩

theorem Steady.firm (h : s.Steady) (hc : (s.ahead 0).tag.isInlineSpace = false) : s.Firm :=
  ⟨h, .inr hc⟩

end Lexer

end TaskMarkup
