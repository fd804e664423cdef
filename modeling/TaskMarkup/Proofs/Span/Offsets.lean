import TaskMarkup.Source
import TaskMarkup.Token

namespace TaskMarkup

namespace Text

def OpensLine (cs : List Char) : Prop :=
  ∃ as ws, cs = as ++ '\n' :: ws ∧ ∀ c ∈ ws, c = ' ' ∨ c = '\t'

def Dangles (cs : List Char) : Prop :=
  ∃ as ws, cs = as ++ '\n' :: ws ∧ ws ≠ [] ∧ ∀ c ∈ ws, c = ' ' ∨ c = '\t'

theorem Dangles.opensLine {cs : List Char} (h : Dangles cs) : OpensLine cs := by
  obtain ⟨as, ws, h, -, hws⟩ := h
  exact ⟨as, ws, h, hws⟩

theorem Dangles.append_left {cs : List Char} (h : Dangles cs) (as : List Char) :
    Dangles (as ++ cs) := by
  obtain ⟨bs, ws, rfl, hne, hws⟩ := h
  exact ⟨as ++ bs, ws, by simp, hne, hws⟩

theorem not_dangles_nil : ¬ Dangles [] := by
  rintro ⟨as, ws, h, -⟩
  simp at h

theorem eq_or_mem_of_concat_eq {α : Type} {cs as ws : List α} {c d : α}
    (h : cs ++ [c] = as ++ d :: ws) : ws = [] ∧ c = d ∨ c ∈ ws := by
  rcases List.eq_nil_or_concat ws with rfl | ⟨us, u, rfl⟩
  · have := (List.append_inj' h rfl).2
    simp only [List.cons.injEq, and_true] at this
    exact .inl ⟨rfl, this⟩
  · rw [List.concat_eq_append, ← List.cons_append, ← List.append_assoc] at h
    have := (List.append_inj' h rfl).2
    simp only [List.cons.injEq, and_true] at this
    simp [this]

theorem not_opensLine_concat {cs : List Char} {c : Char} (hs : c ≠ ' ') (ht : c ≠ '\t')
    (hn : c ≠ '\n') : ¬ OpensLine (cs ++ [c]) := by
  rintro ⟨as, ws, h, hws⟩
  rcases eq_or_mem_of_concat_eq h with ⟨-, hc⟩ | hc
  · exact hn hc
  · rcases hws c hc with hc | hc
    · exact hs hc
    · exact ht hc

theorem not_dangles_newline (cs : List Char) : ¬ Dangles (cs ++ ['\n']) := by
  rintro ⟨as, ws, h, hne, hws⟩
  rcases eq_or_mem_of_concat_eq h with ⟨hnil, -⟩ | hc
  · exact hne hnil
  · simpa using hws _ hc

theorem OpensLine.of_append {cs ws : List Char} (h : OpensLine (cs ++ ws))
    (hws : ∀ c ∈ ws, c = ' ' ∨ c = '\t') : OpensLine cs := by
  obtain ⟨as, vs, h, hvs⟩ := h
  rcases List.append_eq_append_iff.1 h with ⟨us, rfl, hw⟩ | ⟨us, rfl, hv⟩
  · have := hws '\n' (by simp [hw])
    simp at this
  · cases us with
    | nil =>
      rw [List.nil_append] at hv
      have := hws '\n' (by simp [← hv])
      simp at this
    | cons u us =>
      simp only [List.cons_append, List.cons.injEq] at hv
      exact ⟨as, us, by rw [← hv.1], fun c hc => hvs c (by simp [hv.2, hc])⟩

def White (cs : List Char) : Prop := ∀ c ∈ cs, c = ' ' ∨ c = '\t' ∨ c = '\n'

theorem white_nil : White [] := by simp [White]

theorem White.append {as bs : List Char} (ha : White as) (hb : White bs) : White (as ++ bs) :=
  fun c hc => (List.mem_append.1 hc).elim (ha c) (hb c)

theorem White.of_mem {cs : List Char} {c : Char} (h : White cs) (hc : c ∈ cs) : White [c] := by
  intro d hd
  rw [List.mem_singleton.1 hd]
  exact h c hc

theorem White.of_blank {cs : List Char} (h : ∀ c ∈ cs, c = ' ' ∨ c = '\t') : White cs :=
  fun c hc => (h c hc).imp_right .inl

theorem OpensLine.of_white {as ws : List Char} (hws : White ws) (hnl : '\n' ∈ ws) :
    OpensLine (as ++ ws) := by
  induction ws generalizing as with
  | nil => simp at hnl
  | cons w ws ih =>
    by_cases hmem : '\n' ∈ ws
    · have hrest : OpensLine (as ++ [w] ++ ws) := ih (fun c hc => hws c (by simp [hc])) hmem
      rwa [List.append_assoc] at hrest
    · obtain rfl : w = '\n' := by simpa [hmem, eq_comm] using hnl
      refine ⟨as, ws, rfl, fun c hc => ?_⟩
      refine (or_assoc.2 (hws c (by simp [hc]))).resolve_right ?_
      rintro rfl
      exact hmem hc

theorem exists_append_of_byteSize_le {as bs cs ds : List Char} (h : as ++ bs = cs ++ ds)
    (hle : byteSize as ≤ byteSize cs) : ∃ es, cs = as ++ es ∧ bs = es ++ ds := by
  rcases List.append_eq_append_iff.1 h with ⟨es, rfl, rfl⟩ | ⟨es, rfl, rfl⟩
  · exact ⟨es, rfl, rfl⟩
  · have : byteSize es = 0 := by
      rw [byteSize_append] at hle
      omega
    rw [byteSize_eq_zero_iff.1 this]
    exact ⟨[], by simp, rfl⟩

theorem append_eq_append_cons {as bs cs ds : List Char} {c : Char}
    (h : as ++ bs = cs ++ c :: ds) :
    (∃ us, as = cs ++ c :: us) ∨ ∃ us, cs = as ++ us ∧ bs = us ++ c :: ds := by
  rcases List.append_eq_append_iff.1 h with ⟨us, hus, hbs⟩ | ⟨us, has, hus⟩
  · exact .inr ⟨us, hus, hbs⟩
  · cases us with
    | nil => exact .inr ⟨[], by simpa using has.symm, by simpa using hus.symm⟩
    | cons u us =>
      simp only [List.cons_append, List.cons.injEq] at hus
      exact .inl ⟨us, by rw [has, hus.1]⟩

end Text

namespace Source

def before (s : Source) (offset : Nat) : List Char := Text.takeBytes s.chars offset

/-- An offset that no character of the source reaches across. -/
def IsBoundary (s : Source) (offset : Nat) : Prop :=
  ∃ as bs, s.chars = as ++ bs ∧ Text.byteSize as = offset

variable {s : Source} {as bs : List Char} {m n : Nat}

theorem before_of_append (h : s.chars = as ++ bs) : s.before (Text.byteSize as) = as := by
  rw [before, h, Text.takeBytes_byteSize_append]

theorem fromOffset_of_append (h : s.chars = as ++ bs) : s.fromOffset (Text.byteSize as) = bs := by
  rw [fromOffset, h, Text.dropBytes_byteSize_append]

theorem isBoundary_zero (s : Source) : s.IsBoundary 0 := ⟨[], s.chars, rfl, rfl⟩

theorem IsBoundary.le_size (h : s.IsBoundary n) : n ≤ s.size := by
  obtain ⟨as, bs, h, rfl⟩ := h
  rw [s.size_eq, h, Text.byteSize_append]
  omega

theorem IsBoundary.byteSize_before (h : s.IsBoundary n) : Text.byteSize (s.before n) = n := by
  obtain ⟨as, bs, h, rfl⟩ := h
  rw [before_of_append h]

theorem IsBoundary.add_le {c : Char} (h : s.IsBoundary n) (hchars : s.chars = as ++ c :: bs)
    (hlt : Text.byteSize as < n) : Text.byteSize as + c.utf8Size ≤ n := by
  obtain ⟨cs, ds, h, rfl⟩ := h
  obtain ⟨es, rfl, hes⟩ := Text.exists_append_of_byteSize_le (hchars.symm.trans h) (Nat.le_of_lt hlt)
  cases es with
  | nil => simp at hlt
  | cons e es =>
    simp only [List.cons_append, List.cons.injEq] at hes
    simp only [hes.1, Text.byteSize_append, Text.byteSize_cons]
    omega

theorem before_eq_append_slice (hm : s.IsBoundary m) (hn : s.IsBoundary n) (hmn : m ≤ n) :
    s.before n = s.before m ++ s.slice m n := by
  obtain ⟨as, bs, h, rfl⟩ := hm
  obtain ⟨cs, ds, h', rfl⟩ := hn
  obtain ⟨es, rfl, rfl⟩ := Text.exists_append_of_byteSize_le (h.symm.trans h') hmn
  rw [before_of_append h', before_of_append h, slice, h', Text.slice_append_append]

end Source

end TaskMarkup
