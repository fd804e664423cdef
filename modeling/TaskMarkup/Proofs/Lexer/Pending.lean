import TaskMarkup.Lexer
import TaskMarkup.Proofs.Token.Tiling

namespace TaskMarkup.Lexer

variable {σ : Type}

def pending (s : Lexer σ) : List Token :=
  s.ready.toList.filter (fun t => t.tag ≠ .eof) ++ s.upcoming

def ahead (s : Lexer σ) (n : Nat) : Token := s.pending.getD n (Token.eof s.source.size)

/-- The state of a lexer that handed out the tokens of its source in order. -/
structure Sound (s : Lexer σ) : Prop where
  pending : ∃ past, tokenize s.source.chars = past ++ s.pending
  ready : ∃ ahead k, s.ready.toList = ahead ++ List.replicate k (Token.eof s.source.size) ∧
    (∀ t ∈ ahead, t.tag ≠ .eof) ∧ (k = 0 ∨ s.upcoming = [])

theorem filter_tag_ne_eof {ts : List Token} (h : ∀ t ∈ ts, t.tag ≠ .eof) (k offset : Nat) :
    (ts ++ List.replicate k (Token.eof offset)).filter (fun t => t.tag ≠ .eof) = ts := by
  rw [List.filter_append, List.filter_eq_self.2 (by simpa using h)]
  simp [Token.eof]

theorem start_sound (source : Source) (limit : Nat) (observer : σ) :
    (start source limit observer).Sound where
  pending := ⟨[], by simp [start, Lexer.pending]⟩
  ready := ⟨[], 0, by simp [start]⟩

@[simp] theorem pending_start (source : Source) (limit : Nat) (observer : σ) :
    (start source limit observer).pending = tokenize source.chars := by
  simp [start, pending]

namespace Sound

variable {s : Lexer σ}

theorem spelled (h : s.Sound) {t : Token} (ht : t ∈ s.pending) : t.Spelled := by
  obtain ⟨past, hp⟩ := h.pending
  exact spelled_of_mem_tokenize (hp ▸ List.mem_append_right past ht)

theorem length_pending_le (h : s.Sound) : s.pending.length ≤ s.source.size := by
  obtain ⟨past, hp⟩ := h.pending
  have hlen : ∀ ts : List Token, (∀ t ∈ ts, t.Spelled) →
      ts.length ≤ Text.byteSize (Token.texts ts) := by
    intro ts hts
    induction ts with
    | nil => simp
    | cons t ts ih =>
      have hpos := (hts t (by simp)).size_pos
      have := ih fun u hu => hts u (by simp [hu])
      simp only [Token.size] at hpos
      simp only [List.length_cons, Token.texts_cons, Text.byteSize_append]
      omega
  have hs := hlen _ fun t ht => h.spelled ht
  have hc := texts_tokenize s.source.chars
  rw [hp, Token.texts_append] at hc
  have := s.source.size_eq
  rw [← hc, Text.byteSize_append] at this
  omega

theorem toList_ready_eq (h : s.Sound) : ∃ k, s.ready.toList =
    s.ready.toList.filter (fun t => t.tag ≠ .eof) ++
      List.replicate k (Token.eof s.source.size) ∧ (k = 0 ∨ s.upcoming = []) := by
  obtain ⟨ahead, k, hr, ha, hk⟩ := h.ready
  exact ⟨k, by rw [hr, filter_tag_ne_eof ha], hk⟩

theorem get_ready (h : s.Sound) {n : Nat} (hn : n < s.ready.size) : s.ready.get n = s.ahead n := by
  obtain ⟨k, hr, hk⟩ := h.toList_ready_eq
  have hget : s.ready.toList[n]? = some (s.ready.get n) := by
    rw [Lookahead.getElem?_toList, if_pos hn]
  generalize hf : s.ready.toList.filter (fun t => t.tag ≠ .eof) = ts at hr
  have hp : s.pending = ts ++ s.upcoming := by rw [Lexer.pending, hf]
  rw [hr, List.getElem?_append] at hget
  simp only [ahead, hp, List.getD_eq_getElem?_getD, List.getElem?_append]
  split at hget
  · next hlt => rw [if_pos hlt, hget, Option.getD_some]
  · next hlt =>
    rw [if_neg hlt]
    rw [List.getElem?_replicate] at hget
    split at hget
    · next hk' =>
      have hu : s.upcoming = [] := by
        rcases hk with rfl | hu
        · omega
        · exact hu
      simpa [hu] using hget.symm
    · simp at hget

theorem atEof_iff (h : s.Sound) (hs : 0 < s.ready.size) : s.atEof = true ↔ s.pending = [] := by
  have h0 := h.get_ready hs
  simp only [atEof, hs, decide_true, Bool.true_and, beq_iff_eq, h0, ahead]
  cases hp : s.pending with
  | nil => simp [Token.eof]
  | cons t ts =>
    have := (h.spelled (t := t) (by simp [hp])).tag_ne_eof
    simpa using this

theorem pending_of_atEof (h : s.Sound) (he : s.atEof = true) : s.pending = [] := by
  have hs : 0 < s.ready.size := by
    simp only [atEof, Bool.and_eq_true, decide_eq_true_eq] at he
    exact he.1
  exact (h.atEof_iff hs).1 he

theorem nextOffset_eq (h : s.Sound) :
    s.nextOffset = (s.pending.head?.map Token.start).getD s.source.size := by
  unfold nextOffset
  split
  · next hs =>
    rw [h.get_ready hs, ahead]
    cases s.pending <;> simp [Token.eof]
  · next hs =>
    have hr : s.ready.toList = [] := by
      rw [← List.length_eq_zero_iff, Lookahead.length_toList]
      omega
    simp only [Lexer.pending, hr, List.filter_nil, List.nil_append]
    cases s.upcoming <;> simp

end Sound

theorem pull_source (s : Lexer σ) : s.pull.source = s.source := by
  unfold pull
  split <;> rfl

theorem pull_limit (s : Lexer σ) : s.pull.limit = s.limit := by
  unfold pull
  split <;> rfl

theorem pull_peeks (s : Lexer σ) : s.pull.peeks = s.peeks := by
  unfold pull
  split <;> rfl

theorem pull_observer (s : Lexer σ) : s.pull.observer = s.observer := by
  unfold pull
  split <;> rfl

theorem pull_size {s : Lexer σ} (hs : s.ready.size < lookaheadSize) :
    s.pull.ready.size = s.ready.size + 1 := by
  unfold pull
  split <;> exact Lookahead.size_push _ hs

theorem pull_pending {s : Lexer σ} (h : s.Sound) (hs : s.ready.size < lookaheadSize) :
    s.pull.pending = s.pending := by
  unfold pull
  split
  · next hu => simp [Lexer.pending, Lookahead.toList_push _ hs, hu, Token.eof]
  · next t rest hu =>
    have ht : t.tag ≠ .eof := (h.spelled (t := t) (by simp [Lexer.pending, hu])).tag_ne_eof
    simp [Lexer.pending, Lookahead.toList_push _ hs, hu, ht]

theorem pull_sound {s : Lexer σ} (h : s.Sound) (hs : s.ready.size < lookaheadSize) :
    s.pull.Sound where
  pending := by rw [pull_source, pull_pending h hs]; exact h.pending
  ready := by
    obtain ⟨ahead, k, hr, ha, hk⟩ := h.ready
    rw [pull_source]
    unfold pull
    split
    · next hu =>
      refine ⟨ahead, k + 1, ?_, ha, .inr hu⟩
      simp [Lookahead.toList_push _ hs, hr, List.replicate_succ']
    · next t rest hu =>
      have ht : t.tag ≠ .eof := (h.spelled (t := t) (by simp [Lexer.pending, hu])).tag_ne_eof
      obtain rfl : k = 0 := by simpa [hu] using hk
      refine ⟨ahead ++ [t], 0, ?_, ?_, .inl rfl⟩
      · simp [Lookahead.toList_push _ hs, hr]
      · intro u hu
        rcases List.mem_append.1 hu with hu | hu
        · exact ha u hu
        · simp only [List.mem_singleton] at hu
          exact hu ▸ ht

/-- The lexer `t` differs from `s` only in how often and how far it has looked. -/
structure Looks (s t : Lexer σ) : Prop where
  source : t.source = s.source
  limit : t.limit = s.limit
  observer : t.observer = s.observer
  pending : t.pending = s.pending
  sound : t.Sound
  size : s.ready.size ≤ t.ready.size

namespace Looks

variable {s t u : Lexer σ}

theorem refl (h : s.Sound) : Looks s s := ⟨rfl, rfl, rfl, rfl, h, Nat.le_refl _⟩

theorem trans (h : Looks s t) (h' : Looks t u) : Looks s u where
  source := h'.source.trans h.source
  limit := h'.limit.trans h.limit
  observer := h'.observer.trans h.observer
  pending := h'.pending.trans h.pending
  sound := h'.sound
  size := Nat.le_trans h.size h'.size

theorem ahead (h : Looks s t) (n : Nat) : t.ahead n = s.ahead n := by
  simp [Lexer.ahead, h.pending, h.source]

theorem atEof (h : Looks s t) (hs : s.Sound) (he : s.atEof = true) : t.atEof = true := by
  have hpos : 0 < s.ready.size := by
    simp only [Lexer.atEof, Bool.and_eq_true, decide_eq_true_eq] at he
    exact he.1
  rw [h.sound.atEof_iff (Nat.lt_of_lt_of_le hpos h.size), h.pending]
  exact hs.pending_of_atEof he

end Looks

theorem pullMany_looks {n : Nat} {s : Lexer σ} (h : s.Sound)
    (hn : s.ready.size + n ≤ lookaheadSize) :
    Looks s (s.pullMany n) ∧ (s.pullMany n).peeks = s.peeks ∧
      (s.pullMany n).ready.size = s.ready.size + n := by
  induction n generalizing s with
  | zero => exact ⟨.refl h, rfl, rfl⟩
  | succ n ih =>
    have hs : s.ready.size < lookaheadSize := by omega
    have hsize := pull_size hs
    obtain ⟨hl, hp, hz⟩ := ih (pull_sound h hs) (by omega)
    refine ⟨?_, ?_, ?_⟩
    · exact .trans ⟨pull_source s, pull_limit s, pull_observer s, pull_pending h hs,
        pull_sound h hs, by omega⟩ hl
    · exact hp.trans (pull_peeks s)
    · simp only [pullMany, hz, hsize]
      omega

theorem fill_looks {n : Nat} {s : Lexer σ} (h : s.Sound) (hn : n ≤ lookaheadSize) :
    Looks s (s.fill n) ∧ (s.fill n).peeks = s.peeks ∧ n ≤ (s.fill n).ready.size := by
  have hle := s.ready.size_le
  obtain ⟨hl, hp, hz⟩ := pullMany_looks (n := n - s.ready.size) h (by omega)
  refine ⟨hl, hp, ?_⟩
  simp only [fill, hz]
  omega

structure Eats [Observer σ] (s : Lexer σ) (tok : Token) (t : Lexer σ) : Prop where
  source : t.source = s.source
  limit : t.limit = s.limit
  observer : t.observer = Observer.onEat tok s.observer
  pending : s.pending = tok :: t.pending
  sound : t.Sound
  peeks : t.peeks = 0

theorem advance_eats [Observer σ] {s : Lexer σ} (h : s.Sound) (hs : 0 < s.ready.size) {tok : Token}
    {rest : List Token} (hp : s.pending = tok :: rest) : Eats s tok (s.advance tok) := by
  have htok : tok.tag ≠ .eof := (h.spelled (t := tok) (by simp [hp])).tag_ne_eof
  obtain ⟨ahead, k, hr, ha, hk⟩ := h.ready
  have hfilter : s.ready.toList.filter (fun t => t.tag ≠ .eof) = ahead := by
    rw [hr, filter_tag_ne_eof ha]
  have hpend : s.pending = ahead ++ s.upcoming := by rw [Lexer.pending, hfilter]
  -- The ring is not empty, so unless only sentinels are in it the next token is.
  cases ahead with
  | nil =>
    have hk0 : k ≠ 0 := by
      rintro rfl
      have := congrArg List.length hr
      simp at this
      omega
    have hu : s.upcoming = [] := by simpa [hk0] using hk
    simp [hpend, hu] at hp
  | cons a ahead =>
    simp only [hpend, List.cons_append, List.cons.injEq] at hp
    obtain ⟨rfl, hrest⟩ := hp
    have hpop : (s.advance a).ready.toList =
        ahead ++ List.replicate k (Token.eof s.source.size) := by
      simp [advance, Lookahead.toList_pop, hr]
    have hpend' : (s.advance a).pending = ahead ++ s.upcoming := by
      rw [Lexer.pending, hpop, filter_tag_ne_eof fun t ht => ha t (List.mem_cons_of_mem _ ht)]
      rfl
    refine ⟨rfl, rfl, rfl, ?_, ⟨?_, ?_⟩, ?_⟩
    · rw [hpend, hpend', List.cons_append]
    · obtain ⟨past, hpast⟩ := h.pending
      refine ⟨past ++ [a], ?_⟩
      rw [hpend', List.append_assoc]
      exact hpast.trans (by rw [hpend]; rfl)
    · exact ⟨ahead, k, hpop, fun t ht => ha t (List.mem_cons_of_mem _ ht), hk⟩
    · simp [advance, htok]

end TaskMarkup.Lexer
