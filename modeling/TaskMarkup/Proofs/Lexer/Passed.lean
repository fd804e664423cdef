import TaskMarkup.Proofs.Rule.Ends
import Mathlib.Data.List.TakeWhile

namespace TaskMarkup

variable {ε σ : Type} {F : Fault → Prop} {E : ε → Lexer σ → Prop} {s t u : Lexer σ}
  {ts us : List Token} {tok : Token} {k : Nat}

namespace Lexer

theorem ahead_zero_of_cons (h : s.pending = tok :: ts) : s.ahead 0 = tok := by
  simp [ahead, h]

theorem ahead_zero_of_nil (h : s.pending = []) : (s.ahead 0).tag = .eof := by
  simp [ahead, h, Token.eof]

theorem Sound.tag_ahead_zero (h : s.Sound) :
    (s.ahead 0).tag = .eof ∧ s.pending = [] ∨
      (s.ahead 0).tag ≠ .eof ∧ s.pending = s.ahead 0 :: s.pending.tail := by
  cases hp : s.pending with
  | nil => exact .inl ⟨ahead_zero_of_nil hp, rfl⟩
  | cons tok rest =>
    rw [ahead_zero_of_cons hp]
    exact .inr ⟨(h.spelled (by simp [hp])).tag_ne_eof, rfl⟩

variable [Observer σ]

structure Passed (s : Lexer σ) (ts : List Token) (t : Lexer σ) : Prop where
  source : t.source = s.source
  limit : t.limit = s.limit
  observer : t.observer = ts.foldl (fun o u => Observer.onEat u o) s.observer
  pending : s.pending = ts ++ t.pending
  sound : t.Sound

theorem Looks.passed (h : Looks s t) : s.Passed [] t :=
  ⟨h.source, h.limit, h.observer, h.pending.symm, h.sound⟩

theorem Eats.passed (h : Eats s tok t) : s.Passed [tok] t :=
  ⟨h.source, h.limit, h.observer, h.pending, h.sound⟩

namespace Passed

theorem refl (h : s.Sound) : s.Passed [] s := (Looks.refl h).passed

theorem trans (h : s.Passed ts t) (h' : t.Passed us u) : s.Passed (ts ++ us) u where
  source := h'.source.trans h.source
  limit := h'.limit.trans h.limit
  observer := by rw [h'.observer, h.observer, List.foldl_append]
  pending := by rw [h.pending, h'.pending, List.append_assoc]
  sound := h'.sound

theorem looks (h : s.Passed ts t) (h' : Looks t u) : s.Passed ts u := by
  simpa using h.trans h'.passed

theorem eats (h : s.Passed ts t) (h' : Eats t tok u) : s.Passed (ts ++ [tok]) u :=
  h.trans h'.passed

theorem pending_infix (h : s.Passed ts t) : t.pending <:+: s.pending := ⟨ts, [], by rw [h.pending]; simp⟩

theorem length_le (h : s.Passed ts t) : t.pending.length ≤ s.pending.length := by
  rw [h.pending, List.length_append]
  exact Nat.le_add_left ..

theorem pending_of_takeWhile {p : Token → Bool} (h : s.Passed (s.pending.takeWhile p) t) :
    t.pending = s.pending.dropWhile p :=
  List.append_cancel_left (h.pending.symm.trans List.takeWhile_append_dropWhile.symm)

end Passed

end Lexer

namespace Rule.Ends

theorem peekIf {tag : Tag} {n : Nat} (hs : s.Sound) (hn : n < lookaheadSize) (hk : s.Spare F k)
    (hk' : k < 98) :
    Ends F (Rule.peekIf tag n) s (fun r t => s.Looks t ∧ t.Spare F (k + 1) ∧ 0 < t.ready.size ∧
      r = if (s.ahead n).tag = tag then some (s.ahead n) else none) E :=
  bind (peek (.refl hs) hn hk hk' fun _ ht hkt hz => pure ⟨ht, hkt, hz, rfl⟩)

variable [Observer σ]

theorem eatIf {tag : Tag} (hs : s.Sound) (htag : tag ≠ .eof) (hk : s.Spare F k) (hk' : k < 97) :
    Ends F (Rule.eatIf tag) s (fun r t =>
      (r = none ∧ (s.ahead 0).tag ≠ tag ∧ s.Looks t ∧ t.Spare F (k + 1) ∧ 0 < t.ready.size) ∨
      (∃ tok, r = some tok ∧ tok.tag = tag ∧ s.Eats tok t ∧ t.Spare F 0)) E := by
  refine seq (peekIf hs (by decide) hk (by omega)) ?_
  rintro r t ⟨ht, hkt, hz, rfl⟩
  split
  · next hr =>
    refine pure (.inl ⟨rfl, ?_, ht, hkt, hz⟩)
    intro hc
    simp [hc] at hr
  · next hr =>
    have hc : (s.ahead 0).tag = tag := by
      by_contra hc
      simp [hc] at hr
    rcases hs.tag_ahead_zero with ⟨he, -⟩ | ⟨-, hp⟩
    · exact absurd (hc.symm.trans he) htag
    · exact bind (eat ht hkt (by omega) hp fun u hu _ hku =>
        pure (.inr ⟨_, rfl, hc, hu, hku⟩))

theorem eatIf_of_tag {tag : Tag} {rest : List Token} (hs : s.Sound) (hk : s.Spare F k)
    (hk' : k < 97) (hp : s.pending = tok :: rest) (htok : tok.tag = tag) :
    Ends F (Rule.eatIf tag) s (fun r t => r = some tok ∧ s.Eats tok t ∧ t.pending = rest ∧
      t.Spare F 0) E := by
  have htag : tag ≠ .eof := htok ▸ (hs.spelled (by simp [hp])).tag_ne_eof
  refine (eatIf hs htag hk hk').imp ?_
  rintro r t (⟨-, hne, -⟩ | ⟨tok', rfl, -, ht, hkt⟩)
  · rw [Lexer.ahead_zero_of_cons hp] at hne
    exact absurd htok hne
  · have hcons := ht.pending
    rw [hp] at hcons
    obtain ⟨rfl, hrest⟩ := List.cons.inj hcons
    exact ⟨rfl, ht, hrest.symm, hkt⟩

theorem passUntil {stop : Token → Bool} (hs : s.Sound) (hk : s.Spare F k) (hk' : k < 97) :
    Ends F (Rule.eatUntil stop) s (fun _ t => s.Passed (s.pending.takeWhile fun u => !stop u) t ∧
      t.Spare F (if s.pending.takeWhile (fun u => !stop u) = [] then k + 1 else 1) ∧
        0 < t.ready.size) E := by
  -- What was eaten so far passed the test, so it starts the longest run that does.
  refine loop (fun _ t => ∃ ts, s.Passed ts t ∧ (∀ u ∈ ts, stop u = false) ∧
    t.Spare F (if ts = [] then k else 0)) hs ⟨[], .refl hs, by simp, by simpa using hk⟩ ?_
  rintro - t ⟨ts, ht, hts, hkt⟩
  have hall : ∀ u ∈ ts, (!stop u) = true := by simpa using hts
  refine bind (peek (.refl ht.sound) (by decide) hkt (by split <;> omega) fun u hu hku hz => ?_)
  have hku' : u.Spare F (if ts = [] then k + 1 else 1) := hku.mono (by split <;> omega)
  rcases ht.sound.tag_ahead_zero with ⟨htag, hp⟩ | ⟨htag, hp⟩
  · rw [if_pos (by simp [htag])]
    refine pure ?_
    rw [ht.pending, hp, List.append_nil, List.takeWhile_eq_self_iff.2 hall]
    exact ⟨ht.looks hu, hku', hz⟩
  · split
    · next hc =>
      have hstop : stop (t.ahead 0) = true := by simpa [htag] using hc
      refine pure ?_
      rw [ht.pending, hp, List.takeWhile_append_of_pos hall]
      simpa [hstop] using ⟨ht.looks hu, hku', hz⟩
    · next hc =>
      have hstop : stop (t.ahead 0) = false := by simpa [htag] using hc
      refine bind (eat hu hku (by split <;> omega) hp fun v hv hr hkv =>
        pure ⟨⟨_, ht.eats hv, ?_, ?_⟩, ?_⟩)
      · intro w hw
        rcases List.mem_append.1 hw with hw | hw
        · exact hts w hw
        · rw [List.mem_singleton.1 hw, hstop]
      · exact hkv.mono (by omega)
      · rw [hv.pending, hr]
        simp

theorem passMany {rest : List Token} (hs : s.Sound) (hp : s.pending = ts ++ rest)
    (hroom : (∀ peeks offset, F (.stalled peeks offset)) ∨ s.peeks + 1 < s.limit) :
    Ends F (Rule.eatMany ts.length) s
      (fun _ t => s.Passed ts t ∧ t.peeks = if ts = [] then s.peeks else 0) E := by
  induction ts generalizing s with
  | nil => exact pure ⟨.refl hs, rfl⟩
  | cons tok ts ih =>
    have hstall : s.limit ≤ s.peeks + 1 → ∀ offset, F (.stalled (s.peeks + 1) offset) :=
      fun hle offset => hroom.elim (fun hF => hF ..) fun hlt => by omega
    refine bind (bind (count hs (by decide) hstall fun u hu _ hz hlt => ?_))
    rw [Lexer.ahead_zero_of_cons hp]
    have heats := hu.eats (Lexer.advance_eats hu.sound hz (hu.pending.trans hp))
    refine bind (modify (pure ?_))
    have hpending : (u.advance tok).pending = ts ++ rest := by simpa [hp] using heats.pending.symm
    have hroom' : (u.advance tok).peeks + 1 < (u.advance tok).limit := by
      rw [heats.peeks, heats.limit]
      omega
    refine (ih heats.sound hpending (.inr hroom')).imp fun _ v ⟨hv, hpeeks⟩ => ?_
    exact ⟨heats.passed.trans hv, by simpa [heats.peeks] using hpeeks⟩

theorem passInlineSpace (hs : s.Sound) (hk : s.Spare F k) (hk' : k < 97) :
    Ends F Rule.eatInlineSpace s (fun _ t =>
      s.Passed (s.pending.takeWhile fun u => u.tag.isInlineSpace) t ∧ t.Spare F (k + 1) ∧
        0 < t.ready.size) E := by
  refine (passUntil hs hk hk').imp fun _ t ⟨ht, hkt, hz⟩ => ?_
  exact ⟨by simpa using ht, hkt.mono (by split <;> omega), hz⟩

end Rule.Ends

end TaskMarkup
