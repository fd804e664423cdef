import TaskMarkup.Proofs.Lexer.Onward
import TaskMarkup.Proofs.Lexer.Repeats

namespace TaskMarkup

theorem Token.tag_of_mem_take_run {t : Token} {ts : List Token} {n : Nat}
    (hn : n ≤ (t.run ts).length) : ∀ u ∈ ts.take n, u.tag = t.tag := by
  intro u hu
  have hpre : ts.take n <+: t.run ts :=
    List.prefix_of_prefix_length_le (List.take_prefix ..) (List.takeWhile_prefix _)
      (Nat.le_trans (List.length_take_le ..) hn)
  simpa using List.mem_takeWhile_imp (hpre.subset hu)

variable {s t u : Lexer Cursor} {tok : Token} {rest : List Token}

namespace Lexer

theorem tag_ahead_run {tok : Token} {i : Nat} (hi : i < (tok.run s.pending).length) :
    (s.ahead i).tag = tok.tag := by
  have hpre : tok.run s.pending <+: s.pending := List.takeWhile_prefix _
  have htag := List.mem_takeWhile_imp (List.getElem_mem hi)
  rw [beq_iff_eq] at htag
  have hget : s.pending[i]? = some (tok.run s.pending)[i] := by
    rw [← List.prefix_iff_getElem?.1 hpre i hi]
  rw [ahead, List.getD_eq_getElem?_getD, hget]
  exact htag

def Scans (s t : Lexer Cursor) : Prop :=
  ∃ ts, (∀ u ∈ ts, u.tag ≠ .newline) ∧ s.Took ts t

namespace Scans

theorem refl (h : s.Sound) : s.Scans s := ⟨[], by simp, .refl h⟩

theorem sound (h : s.Scans t) : t.Sound := by
  obtain ⟨ts, -, ht⟩ := h
  exact ht.sound

theorem trans (h : s.Scans t) (h' : t.Scans u) : s.Scans u := by
  obtain ⟨ts, hts, ht⟩ := h
  obtain ⟨us, hus, hu⟩ := h'
  refine ⟨ts ++ us, fun v hv => ?_, ht.trans hu⟩
  rcases List.mem_append.1 hv with hv | hv
  · exact hts v hv
  · exact hus v hv

theorem of_looks (h : s.Looks t) : s.Scans t := ⟨[], by simp, h.took⟩

theorem of_takeWhile {p : Token → Bool} (h : s.Took (s.pending.takeWhile p) t)
    (hp : ∀ v, p v = true → v.tag ≠ .newline) : s.Scans t :=
  ⟨_, fun v hv => hp v (List.mem_takeWhile_imp hv), h⟩

theorem firm (h : s.Scans t) (hs : s.Firm) : t.Firm := by
  obtain ⟨ts, hn, ht⟩ := h
  exact hs.took ht hn

theorem onward (h : s.Scans t) (hs : s.Steady) : s.Onward t := by
  obtain ⟨ts, -, ht⟩ := h
  exact hs.onward ht

end Scans

structure Reads (s t : Lexer Cursor) : Prop where
  took : ∃ ts, ts ≠ [] ∧ (∀ u ∈ ts, u.tag ≠ .newline) ∧ s.Took ts t

namespace Reads

theorem scans (h : s.Reads t) : s.Scans t := by
  obtain ⟨ts, -, hts, ht⟩ := h
  exact ⟨ts, hts, ht⟩

theorem scan (h : s.Reads t) (h' : t.Scans u) : s.Reads u := by
  obtain ⟨ts, hne, hts, ht⟩ := h
  obtain ⟨us, hus, hu⟩ := h'
  refine ⟨ts ++ us, by simp [hne], fun v hv => ?_, ht.trans hu⟩
  rcases List.mem_append.1 hv with hv | hv
  · exact hts v hv
  · exact hus v hv

theorem trans (h : s.Reads t) (h' : t.Reads u) : s.Reads u := h.scan h'.scans

theorem looks (h : s.Reads t) (hu : t.Looks u) : s.Reads u := h.scan (.of_looks hu)

theorem sound (h : s.Reads t) : t.Sound := by
  obtain ⟨ts, -, -, ht⟩ := h
  exact ht.sound

theorem source (h : s.Reads t) : t.source = s.source := by
  obtain ⟨ts, -, -, ht⟩ := h
  exact ht.source

theorem firm (h : s.Reads t) (hs : s.Firm) : t.Firm := by
  obtain ⟨ts, -, hn, ht⟩ := h
  exact hs.took ht hn

theorem onward (h : s.Reads t) (hs : s.Steady) : s.Onward t := by
  obtain ⟨ts, -, -, ht⟩ := h
  exact hs.onward ht

theorem nextOffset_lt (h : s.Reads t) (hs : s.Steady) : s.nextOffset < t.observer.lastEnd := by
  obtain ⟨ts, hne, -, ht⟩ := h
  exact hs.nextOffset_lt ht hne

theorem lastEnd_eq (h : s.Reads t) (hs : s.Steady) : t.observer.lastEnd = t.nextOffset := by
  obtain ⟨ts, hne, -, ht⟩ := h
  exact ht.lastEnd_eq hs.sound hs.unpaused hne

theorem isBoundary (h : s.Reads t) : s.source.IsBoundary t.nextOffset :=
  h.source ▸ h.sound.isBoundary_nextOffset

theorem length_pending_lt (h : s.Reads t) : t.pending.length < s.pending.length := by
  obtain ⟨ts, hne, -, ht⟩ := h
  have := List.length_pos_of_ne_nil hne
  rw [ht.pending, List.length_append]
  omega

end Reads

theorem Scans.reads (h : s.Scans t) (h' : t.Reads u) : s.Reads u := by
  obtain ⟨ts, hts, ht⟩ := h
  obtain ⟨us, hne, hus, hu⟩ := h'
  refine ⟨ts ++ us, by simp [hne], fun v hv => ?_, ht.trans hu⟩
  rcases List.mem_append.1 hv with hv | hv
  · exact hts v hv
  · exact hus v hv

theorem Eats.reads (h : s.Eats tok t) (htok : tok.tag ≠ .newline) : s.Reads t :=
  ⟨[tok], by simp, by simpa using htok, h.took⟩

theorem Eats.stop_eq (h : s.Eats tok t) (hs : s.Sound) : tok.stop = t.nextOffset :=
  have hp : s.pending = [] ++ tok :: t.pending := h.pending
  stop_of_pending hs h.sound h.source hp

theorem Took.reads_run {n : Nat} {c : Char} (h : s.Took (s.pending.take n) t) (hs : s.Sound)
    (hp : s.pending = tok :: rest) (hn : n ≤ (tok.run s.pending).length) (hpos : 0 < n)
    (hc : tok.tag.char? = some c) (htag : tok.tag ≠ .newline) :
    s.Reads t ∧ t.nextOffset = s.nextOffset + n := by
  have hrun := Token.tag_of_mem_take_run hn
  have hlen := Token.length_run_le tok s.pending
  refine ⟨⟨_, ?_, fun u hu hnl => htag ((hrun u hu).symm.trans hnl), h⟩, ?_⟩
  · simp [hp]
    omega
  · rw [nextOffset_of_pending hs h.sound h.source h.pending]
    have hsize (ts : List Token) (hts : ∀ u ∈ ts, u.Spelled ∧ u.tag = tok.tag) :
        Text.byteSize (Token.texts ts) = ts.length := by
      induction ts with
      | nil => rfl
      | cons u ts ih =>
        obtain ⟨hu, hut⟩ := hts u (by simp)
        have hx := hu.text_of_char? (hut ▸ hc)
        have := ih fun v hv => hts v (by simp [hv])
        simp only [Token.texts_cons, Text.byteSize_append, this, hx, List.length_cons,
          Text.byteSize_cons, Tag.utf8Size_of_char? hc, Text.byteSize_nil]
        omega
    rw [hsize _ fun u hu => ⟨hs.spelled (List.mem_of_mem_take hu), hrun u hu⟩, List.length_take]
    omega

end Lexer

end TaskMarkup
