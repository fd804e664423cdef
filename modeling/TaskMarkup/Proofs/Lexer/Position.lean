import TaskMarkup.Proofs.Lexer.Took
import TaskMarkup.Proofs.Span.Offsets

namespace TaskMarkup

namespace Token.Spelled

variable {t : Token}

theorem blank (h : t.Spelled) (ht : t.tag.isInlineSpace = true) :
    ∀ c ∈ t.text, c = ' ' ∨ c = '\t' := by
  intro c hc
  simp only [Tag.isInlineSpace, Bool.or_eq_true, beq_iff_eq] at ht
  rcases ht with ht | ht
  · cases h with
    | reserved hd _ => simp [Tag.ofChar?_eq_some_iff, ht, Tag.char?] at hd
    | spaces _ _ hs => exact .inl (hs c hc)
    | plain hp _ _ _ => simp [ht] at hp
  · have := h.text_of_char? (c := '\t') (by simp [ht, Tag.char?])
    simp only [this, List.mem_singleton] at hc
    exact .inr hc

theorem newline (h : t.Spelled) (ht : t.tag = .newline) : t.text = ['\n'] :=
  h.text_of_char? (by simp [ht, Tag.char?])

theorem white (h : t.Spelled) (ht : (t.tag.isInlineSpace || t.tag == .newline) = true) :
    Text.White t.text := by
  intro c hc
  simp only [Bool.or_eq_true, beq_iff_eq] at ht
  rcases ht with ht | ht
  · exact (h.blank ht c hc).imp_right .inl
  · rw [h.newline ht, List.mem_singleton] at hc
    exact .inr (.inr hc)

theorem solid (h : t.Spelled) (ht : t.tag.isInlineSpace = false) (hn : t.tag ≠ .newline) :
    ∀ c ∈ t.text, c ≠ ' ' ∧ c ≠ '\t' ∧ c ≠ '\n' := by
  intro c hc
  simp only [Tag.isInlineSpace, Bool.or_eq_false_iff, beq_eq_false_iff_ne] at ht
  cases h with
  | reserved hd hx =>
    simp only [hx, List.mem_singleton] at hc
    subst hc
    refine ⟨?_, ?_, ?_⟩
    · rintro rfl
      simp [Text.ofChar?_space] at hd
    · rintro rfl
      exact ht.2 (Option.some.inj (hd.symm.trans (by decide)))
    · rintro rfl
      exact hn (Option.some.inj (hd.symm.trans (by decide)))
  | spaces hs _ _ => exact absurd hs ht.1
  | plain _ _ hp _ =>
    have := hp c hc
    refine ⟨?_, ?_, ?_⟩ <;>
    · rintro rfl
      revert this
      decide

end Token.Spelled

theorem Token.white_texts {ts : List Token} (hs : ∀ t ∈ ts, t.Spelled)
    (hts : ∀ t ∈ ts, (t.tag.isInlineSpace || t.tag == .newline) = true) :
    Text.White (Token.texts ts) := by
  induction ts with
  | nil => exact Text.white_nil
  | cons t ts ih =>
    exact ((hs t (by simp)).white (hts t (by simp))).append
      (ih (fun u hu => hs u (by simp [hu])) fun u hu => hts u (by simp [hu]))

theorem Token.blank_texts {ts : List Token} (hs : ∀ t ∈ ts, t.Spelled)
    (hts : ∀ t ∈ ts, t.tag.isInlineSpace = true) : ∀ c ∈ Token.texts ts, c = ' ' ∨ c = '\t' := by
  induction ts with
  | nil => simp
  | cons t ts ih =>
    intro c hc
    rcases List.mem_append.1 hc with hc | hc
    · exact (hs t (by simp)).blank (hts t (by simp)) c hc
    · exact ih (fun u hu => hs u (by simp [hu])) (fun u hu => hts u (by simp [hu])) c hc

def Source.EndsLine (s : Source) (offset : Nat) : Prop :=
  ∃ as bs, s.chars = as ++ bs ∧ Text.byteSize as = offset ∧
    (as.getLast? = some '\n' ∨ bs = [] ∨ bs.head? = some '\n')

namespace Lexer

section

variable {σ : Type} {s t : Lexer σ} {ts : List Token}

def consumed (s : Lexer σ) : List Char := s.source.before s.nextOffset

theorem Sound.position (h : s.Sound) : s.source.chars = s.consumed ++ Token.texts s.pending ∧
    Text.byteSize s.consumed = s.nextOffset ∧
      tokenize s.source.chars = tokenize s.consumed ++ s.pending := by
  obtain ⟨past, hp⟩ := h.pending
  obtain ⟨hchars, hpast, -⟩ := tokenize_eq_append hp
  have hoff : s.nextOffset = Text.byteSize (Token.texts past) := by
    rw [h.nextOffset_eq]
    cases hq : s.pending with
    | nil => simp [s.source.size_eq, hchars, hq]
    | cons tok rest =>
      rw [hq] at hp
      simp [start_of_tokenize_eq_append hp]
  have hcons : s.consumed = Token.texts past := by
    rw [consumed, hoff, Source.before_of_append hchars]
  rw [hcons, hoff, hpast]
  exact ⟨hchars, rfl, hp⟩

@[simp] theorem consumed_start (source : Source) (limit : Nat) (observer : σ) :
    (start source limit observer).consumed = [] := by
  have h := (start_sound source limit observer).position.1
  rw [pending_start, texts_tokenize] at h
  exact List.append_left_eq_self.1 h.symm

theorem Sound.start_of_cons (h : s.Sound) {tok : Token} {rest : List Token}
    (hp : s.pending = tok :: rest) : tok.start = s.nextOffset := by
  simp [h.nextOffset_eq, hp]

theorem Sound.fromOffset_nextOffset (h : s.Sound) :
    s.source.fromOffset s.nextOffset = Token.texts s.pending := by
  obtain ⟨hchars, hsize, -⟩ := h.position
  rw [← hsize, Source.fromOffset_of_append hchars]

theorem Sound.isBoundary_nextOffset (h : s.Sound) : s.source.IsBoundary s.nextOffset :=
  ⟨_, _, h.position.1, h.position.2.1⟩

theorem consumed_of_pending (hs : s.Sound) (ht : t.Sound) (hsrc : t.source = s.source)
    (hp : s.pending = ts ++ t.pending) : t.consumed = s.consumed ++ Token.texts ts := by
  have h := ht.position.1
  rw [hsrc, hs.position.1, hp, Token.texts_append, ← List.append_assoc] at h
  exact (List.append_cancel_right h).symm

theorem nextOffset_of_pending (hs : s.Sound) (ht : t.Sound) (hsrc : t.source = s.source)
    (hp : s.pending = ts ++ t.pending) :
    t.nextOffset = s.nextOffset + Text.byteSize (Token.texts ts) := by
  rw [← ht.position.2.1, ← hs.position.2.1, consumed_of_pending hs ht hsrc hp,
    Text.byteSize_append]

theorem stop_of_pending (hs : s.Sound) (ht : t.Sound) (hsrc : t.source = s.source) {tok : Token}
    (hp : s.pending = ts ++ tok :: t.pending) : tok.stop = t.nextOffset := by
  have h := hs.position.2.2
  rw [hp, ← List.append_assoc] at h
  have hp' : s.pending = (ts ++ [tok]) ++ t.pending := by rw [hp]; simp
  rw [stop_of_tokenize_eq_append h, ← ht.position.2.1, consumed_of_pending hs ht hsrc hp']
  simp

end

variable {s t : Lexer Cursor} {ts : List Token}

namespace Took

theorem nextOffset_eq (h : s.Took [] t) (hs : s.Sound) : t.nextOffset = s.nextOffset :=
  nextOffset_of_pending hs h.sound h.source h.pending

theorem consumed (h : s.Took ts t) (hs : s.Sound) : t.consumed = s.consumed ++ Token.texts ts :=
  consumed_of_pending hs h.sound h.source h.pending

theorem nextOffset_le (h : s.Took ts t) (hs : s.Sound) : s.nextOffset ≤ t.nextOffset := by
  rw [nextOffset_of_pending hs h.sound h.source h.pending]
  omega

theorem stop_le_nextOffset {tok : Token} (h : s.Took (tok :: ts) t) (hs : s.Sound) :
    tok.stop ≤ t.nextOffset := by
  rw [nextOffset_of_pending hs h.sound h.source h.pending, ← hs.start_of_cons h.pending,
    Token.texts_cons, Text.byteSize_append, Token.stop, Token.size]
  omega

theorem lastEnd_eq (h : s.Took ts t) (hs : s.Sound) (hp : s.observer.paused = false)
    (hts : ts ≠ []) : t.observer.lastEnd = t.nextOffset := by
  obtain ⟨us, tok, rfl⟩ := (List.eq_nil_or_concat ts).resolve_left hts
  rw [h.lastEnd hs hp, List.concat_eq_append, List.getLast?_concat]
  have := h.pending
  rw [List.concat_eq_append, List.append_assoc] at this
  exact stop_of_pending hs h.sound h.source this

end Took

/-- The cursor is not paused, and the last end that counts is a place where a block may end: the
place reached, or the end of a line. Only white space was eaten behind it. -/
structure Steady (s : Lexer Cursor) : Prop where
  sound : s.Sound
  unpaused : s.observer.paused = false
  boundary : s.source.IsBoundary s.observer.lastEnd
  lastEnd_le : s.observer.lastEnd ≤ s.nextOffset
  not_dangles : ¬ Text.Dangles (s.source.before s.observer.lastEnd)
  rests : s.observer.lastEnd = s.nextOffset ∨ s.source.EndsLine s.observer.lastEnd ∨
    s.observer.lastEnd = 0
  gap : ∃ ws, s.consumed = s.source.before s.observer.lastEnd ++ ws ∧ Text.White ws

structure Firm (s : Lexer Cursor) : Prop extends s.Steady where
  firm : ¬ Text.OpensLine s.consumed ∨ (s.ahead 0).tag.isInlineSpace = false

theorem not_opensLine_append {cs : List Char} (hts : ∀ u ∈ ts, u.Spelled)
    (hn : ∀ u ∈ ts, u.tag ≠ .newline) (hne : ts ≠ [])
    (h : ¬ Text.OpensLine cs ∨ ∀ u ∈ ts.head?, u.tag.isInlineSpace = false) :
    ¬ Text.OpensLine (cs ++ Token.texts ts) := by
  induction ts using List.reverseRecOn with
  | nil => exact absurd rfl hne
  | append_singleton us u ih =>
    have hu := hts u (by simp)
    rw [Token.texts_append, ← List.append_assoc]
    simp only [Token.texts_cons, Token.texts_nil, List.append_nil]
    cases hb : u.tag.isInlineSpace with
    | false =>
      obtain ⟨init, c, hc⟩ := (List.eq_nil_or_concat u.text).resolve_left hu.text_ne_nil
      have hsolid := hu.solid hb (hn u (by simp)) c (by simp [hc])
      rw [hc, List.concat_eq_append, ← List.append_assoc]
      exact Text.not_opensLine_concat hsolid.1 hsolid.2.1 hsolid.2.2
    | true =>
      intro ho
      have ho := ho.of_append (hu.blank hb)
      cases us with
      | nil =>
        rcases h with h | h
        · exact h (by simpa using ho)
        · have := h u (by simp)
          simp [hb] at this
      | cons v us =>
        refine ih (fun w hw => hts w ?_) (fun w hw => hn w ?_) (by simp) ?_ ho
        · exact List.mem_append_left _ hw
        · exact List.mem_append_left _ hw
        · simpa using h

namespace Steady

theorem took_nil (h : s.Steady) (ht : s.Took [] t) : t.Steady := by
  have hlast : t.observer.lastEnd = s.observer.lastEnd := by
    rw [ht.lastEnd h.sound h.unpaused]
    rfl
  have hnext : t.nextOffset = s.nextOffset := by
    rw [nextOffset_of_pending h.sound ht.sound ht.source ht.pending]
    rfl
  refine ⟨ht.sound, ht.paused.trans h.unpaused, ?_, ?_, ?_, ?_, ?_⟩
  all_goals rw [hlast]
  · rw [ht.source]
    exact h.boundary
  · rw [hnext]
    exact h.lastEnd_le
  · rw [ht.source]
    exact h.not_dangles
  · rw [ht.source, hnext]
    exact h.rests
  · rw [ht.consumed h.sound, ht.source, Token.texts_nil, List.append_nil]
    exact h.gap

theorem of_took (h : s.Steady) (ht : s.Took ts t) (hts : ts ≠ [])
    (hd : ¬ Text.Dangles t.consumed) : t.Steady := by
  have hlast := ht.lastEnd_eq h.sound h.unpaused hts
  refine ⟨ht.sound, ht.paused.trans h.unpaused, ?_, ?_, ?_, ?_, ?_⟩
  all_goals rw [hlast]
  · exact ht.sound.isBoundary_nextOffset
  · exact hd
  · exact .inl rfl
  · exact ⟨[], (List.append_nil _).symm, Text.white_nil⟩

theorem took_newline (h : s.Steady) {nl : Token} (ht : s.Took (ts ++ [nl]) t)
    (hn : nl.tag = .newline) : t.Steady ∧ t.source.EndsLine t.observer.lastEnd := by
  have hmem : nl ∈ s.pending := by simp [ht.pending]
  have hcons : t.consumed = s.consumed ++ Token.texts ts ++ ['\n'] := by
    rw [ht.consumed h.sound, Token.texts_append, ← List.append_assoc]
    simp [(h.sound.spelled hmem).newline hn]
  refine ⟨h.of_took ht (by simp) (by rw [hcons]; exact Text.not_dangles_newline _), ?_⟩
  rw [ht.lastEnd_eq h.sound h.unpaused (by simp)]
  exact ⟨_, _, ht.sound.position.1, ht.sound.position.2.1, .inl (by simp [hcons])⟩

theorem eats_newline {nl : Token} (h : s.Steady) (ht : s.Eats nl t) (hn : nl.tag = .newline) :
    t.Steady ∧ t.source.EndsLine t.observer.lastEnd :=
  have htook : s.Took ([] ++ [nl]) t := ht.took
  h.took_newline htook hn

end Steady

theorem Firm.took (h : s.Firm) (ht : s.Took ts t) (hn : ∀ u ∈ ts, u.tag ≠ .newline) : t.Firm := by
  have hspell : ∀ u ∈ ts, u.Spelled := fun u hu =>
    h.sound.spelled (by rw [ht.pending]; exact List.mem_append_left _ hu)
  by_cases hts : ts = []
  · subst hts
    refine ⟨h.toSteady.took_nil ht, ?_⟩
    have hp : t.pending = s.pending := ht.pending.symm
    rw [ht.consumed h.sound]
    simpa [ahead, hp, ht.source] using h.firm
  · have ho : ¬ Text.OpensLine t.consumed := by
      rw [ht.consumed h.sound]
      refine not_opensLine_append hspell hn hts (h.firm.imp id fun hh u hu => ?_)
      have : s.ahead 0 = u := by
        obtain ⟨vs, rfl⟩ := List.head?_eq_some_iff.1 hu
        simp [ahead, ht.pending]
      rw [← this]
      exact hh
    exact ⟨h.toSteady.of_took ht hts fun hd => ho hd.opensLine, .inl ho⟩

end Lexer

end TaskMarkup
