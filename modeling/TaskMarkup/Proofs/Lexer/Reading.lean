import TaskMarkup.Proofs.Lexer.Took

namespace TaskMarkup

variable {ε : Type} {F : Fault → Prop} {E : ε → Lexer Cursor → Prop} {s t : Lexer Cursor} {k : Nat}

theorem Lexer.Took.pending_of_takeWhile {p : Token → Bool}
    (h : s.Took (s.pending.takeWhile p) t) : t.pending = s.pending.dropWhile p :=
  List.append_cancel_left (h.pending.symm.trans List.takeWhile_append_dropWhile.symm)

theorem Lexer.Took.ahead_of_takeWhile {p : Token → Bool}
    (h : s.Took (s.pending.takeWhile p) t) (ht : t.pending ≠ []) : p (t.ahead 0) = false := by
  have hp := h.pending_of_takeWhile
  cases hd : t.pending with
  | nil => exact absurd hd ht
  | cons tok rest =>
    rw [Lexer.ahead_zero_of_cons hd]
    have := List.head?_dropWhile_not p s.pending
    rw [← hp, hd] at this
    simpa using this

namespace Rule.Ends

theorem eatUntil {stop : Token → Bool} (hs : s.Sound) (hk : s.Spare F k) (hk' : k < 97) :
    Ends F (Rule.eatUntil stop) s (fun _ t => s.Took (s.pending.takeWhile fun u => !stop u) t ∧
      t.Spare F (if s.pending.takeWhile (fun u => !stop u) = [] then k + 1 else 1) ∧
        0 < t.ready.size) E := by
  refine (passUntil hs hk hk').imp fun _ t ⟨ht, hkt, hz⟩ => ?_
  exact ⟨ht.took, hkt, hz⟩

theorem eatInlineSpace (hs : s.Sound) (hk : s.Spare F k) (hk' : k < 97) :
    Ends F Rule.eatInlineSpace s (fun _ t =>
      s.Took (s.pending.takeWhile fun u => u.tag.isInlineSpace) t ∧ t.Spare F (k + 1) ∧
        0 < t.ready.size) E := by
  refine (passInlineSpace hs hk hk').imp fun _ t ⟨ht, hkt, hz⟩ => ?_
  exact ⟨ht.took, hkt, hz⟩

theorem readUntil {stop : Tag → Bool} (hs : s.Sound) (hk : s.Spare F k) (hk' : k < 97) :
    Ends F (Rule.readUntil stop) s (fun text t =>
      s.Took (s.pending.takeWhile fun u => !(u.tag.endsLine || stop u.tag)) t ∧
        text = Token.texts (s.pending.takeWhile fun u => !(u.tag.endsLine || stop u.tag)) ∧
        t.Spare F (k + 1) ∧ 0 < t.ready.size) E := by
  refine loop (fun text t => ∃ ts, s.Took ts t ∧ text = Token.texts ts ∧
    (∀ u ∈ ts, (u.tag.endsLine || stop u.tag) = false) ∧ t.Spare F k) hs
    ⟨[], .refl hs, rfl, by simp, hk⟩ ?_
  rintro text t ⟨ts, ht, rfl, hts, hkt⟩
  have hall : ∀ u ∈ ts, (!(u.tag.endsLine || stop u.tag)) = true := by
    intro u hu
    simp [hts u hu]
  refine bind (peek (.refl ht.sound) (by decide) hkt (by omega) fun u hu hku hz => ?_)
  split
  · next hc =>
    have hlist : s.pending.takeWhile (fun u => !(u.tag.endsLine || stop u.tag)) = ts := by
      rw [ht.pending, List.takeWhile_append_of_pos hall]
      rcases ht.sound.tag_ahead_zero with ⟨-, hp⟩ | ⟨-, hp⟩
      · simp [hp]
      · rw [hp, List.takeWhile_cons_of_neg (by simp [hc]), List.append_nil]
    exact pure ⟨by rw [hlist]; exact ht.looks hu, by rw [hlist], hku, hz⟩
  · next hc =>
    rcases ht.sound.tag_ahead_zero with ⟨htag, -⟩ | ⟨-, hp⟩
    · simp [htag, Tag.endsLine] at hc
    · refine bind (eat hu hku (by omega) hp fun v hv hr hkv =>
        pure ⟨⟨_, ht.eats hv, by simp, ?_, ?_⟩, ?_⟩)
      · intro w hw
        rcases List.mem_append.1 hw with hw | hw
        · exact hts w hw
        · rw [List.mem_singleton.1 hw]
          simpa using hc
      · exact hkv.mono (by omega)
      · rw [hv.pending, hr]
        simp

theorem eatLine (hs : s.Sound) (hk : s.Spare F k) (hk' : k < 96) :
    Ends F Rule.eatLine s (fun _ t => ∃ u, s.Took (s.pending.takeWhile fun v =>
      !(v.tag == .newline)) u ∧ t.Spare F (k + 2) ∧
        (u.Looks t ∧ t.pending = [] ∧ t.atEof = true ∨
          ∃ nl, nl.tag = .newline ∧ u.Eats nl t)) E := by
  refine seq (eatUntil hs hk (by omega)) ?_
  rintro - t ⟨ht, hkt, -⟩
  have hkt : t.Spare F (k + 1) := hkt.mono (by split <;> omega)
  refine seq (eatIf ht.sound (by decide) hkt (by omega)) ?_
  rintro r u (⟨-, htag, hu, hku, hz⟩ | ⟨nl, -, hnl, hu, hku⟩)
  · refine pure ⟨t, ht, hku, .inl ⟨hu, ?_⟩⟩
    have hp : t.pending = [] := by
      by_contra hp
      have := ht.ahead_of_takeWhile hp
      simp [htag] at this
    have hpu : u.pending = [] := hu.pending.trans hp
    exact ⟨hpu, (hu.sound.atEof_iff hz).2 hpu⟩
  · exact pure ⟨t, ht, hku.mono (by omega), .inr ⟨nl, hnl, hu⟩⟩

theorem eatMany {n : Nat} (hs : s.Sound) (hn : n ≤ s.pending.length) (hk : s.Spare F k)
    (hk' : k < 98) :
    Ends F (Rule.eatMany n) s (fun _ t => s.Took (s.pending.take n) t ∧
      t.Spare F (if n = 0 then k else 0)) E := by
  have hroom : (∀ peeks offset, F (.stalled peeks offset)) ∨ s.peeks + 1 < s.limit := by
    refine hk.imp id fun hk => ?_
    simp only [Lexer.defaultLimit] at hk
    omega
  have hlen : (s.pending.take n).length = n := List.length_take_of_le hn
  have hnil : s.pending.take n = [] ↔ n = 0 := by rw [← List.length_eq_zero_iff, hlen]
  have hpass := passMany (E := E) hs (List.take_append_drop n s.pending).symm hroom
  rw [hlen] at hpass
  refine hpass.imp fun _ t ht => ⟨ht.1.took, hk.imp id fun hk => ⟨ht.1.limit ▸ hk.1, ?_⟩⟩
  rw [ht.2]
  simp only [hnil]
  split <;> omega

theorem eatMany_append {n : Nat} {ts rest : List Token} (hs : s.Sound)
    (hp : s.pending = ts ++ rest) (hn : ts.length = n) (hk : s.Spare F k) (hk' : k < 98) :
    Ends F (Rule.eatMany n) s (fun _ t => s.Took ts t ∧ t.pending = rest ∧
      t.Spare F (if n = 0 then k else 0)) E := by
  have hlen : n ≤ s.pending.length := by
    rw [hp, List.length_append]
    omega
  refine (eatMany hs hlen hk hk').imp fun _ t ⟨ht, hkt⟩ => ?_
  rw [hp, ← hn, List.take_left] at ht
  exact ⟨ht, List.append_cancel_left (ht.pending.symm.trans hp), hkt⟩

end Rule.Ends

end TaskMarkup
