import TaskMarkup.Proofs.Token.Tiling

namespace TaskMarkup

/-- The start of the text or a place where one of its tokens begins or ends. -/
def IsTokenBoundary (cs : List Char) (offset : Nat) : Prop :=
  offset = 0 ∨ ∃ t ∈ tokenize cs, offset = t.start ∨ offset = t.stop

namespace Token

def relativeTo (origin : Nat) (t : Token) : Token := { t with start := t.start - origin }

theorem relativeTo_tag (origin : Nat) (t : Token) : (t.relativeTo origin).tag = t.tag := rfl

theorem relativeTo_text (origin : Nat) (t : Token) : (t.relativeTo origin).text = t.text := rfl

theorem relativeTo_moved (offset : Nat) (t : Token) : (t.moved offset).relativeTo offset = t := by
  simp [relativeTo, moved]

end Token

variable {cs : List Char} {as bs : List Token}

theorem IsTokenBoundary.exists_append {offset : Nat} (h : IsTokenBoundary cs offset) :
    ∃ as bs, tokenize cs = as ++ bs ∧ Text.byteSize (Token.texts as) = offset := by
  rcases h with rfl | ⟨t, ht, hoffset⟩
  · exact ⟨[], tokenize cs, rfl, rfl⟩
  obtain ⟨as, bs, hsplit⟩ := List.append_of_mem ht
  rcases hoffset with rfl | rfl
  · exact ⟨as, t :: bs, hsplit, (start_of_tokenize_eq_append hsplit).symm⟩
  · exact ⟨as ++ [t], bs, by simp [hsplit], (stop_of_tokenize_eq_append hsplit).symm⟩

theorem stop_le_of_tokenize (h : tokenize cs = as ++ bs) :
    ∀ t ∈ as, t.stop ≤ Text.byteSize (Token.texts as) := by
  intro t ht
  obtain ⟨us, vs, rfl⟩ := List.append_of_mem ht
  rw [List.append_assoc, List.cons_append] at h
  rw [stop_of_tokenize_eq_append h]
  simp only [Token.texts_append, Token.texts_cons, Token.texts_nil, Text.byteSize_append,
    List.append_nil]
  omega

theorem le_start_of_tokenize (h : tokenize cs = as ++ bs) :
    ∀ t ∈ bs, Text.byteSize (Token.texts as) ≤ t.start := by
  intro t ht
  obtain ⟨us, vs, rfl⟩ := List.append_of_mem ht
  rw [← List.append_assoc] at h
  rw [start_of_tokenize_eq_append h, Token.texts_append, Text.byteSize_append]
  exact Nat.le_add_right ..

theorem exists_append_of_tokenize {as' bs' : List Token} (h : tokenize cs = as ++ bs)
    (h' : tokenize cs = as' ++ bs')
    (hle : Text.byteSize (Token.texts as) ≤ Text.byteSize (Token.texts as')) :
    ∃ ts, as' = as ++ ts ∧ bs = ts ++ bs' := by
  rcases List.append_eq_append_iff.1 (h.symm.trans h') with hts | ⟨ts, rfl, rfl⟩
  · exact hts
  · -- The tokens between the cuts would cover nothing, but every token covers something.
    have hnil : ts = [] := by
      rw [List.eq_nil_iff_forall_not_mem]
      intro t ht
      have hspelled : t.Spelled := spelled_of_mem_tokenize (by rw [h]; simp [ht])
      have hstart := le_start_of_tokenize h' t (List.mem_append_left _ ht)
      have hstop := stop_le_of_tokenize h t (List.mem_append_right _ ht)
      have := hspelled.start_lt_stop
      omega
    subst hnil
    exact ⟨[], by simp, rfl⟩

theorem tokenize_texts {ts : List Token} (h : tokenize cs = as ++ (ts ++ bs)) :
    tokenize (Token.texts ts) = ts.map (Token.relativeTo (Text.byteSize (Token.texts as))) := by
  conv_rhs => rw [eq_map_moved_of_tokenize h, List.map_map]
  simp [Function.comp_def, Token.relativeTo_moved]

/-- Between two boundaries the tokens of the text are those of the part, in one stretch. -/
theorem tokenize_slice {a b : Nat} (ha : IsTokenBoundary cs a) (hb : IsTokenBoundary cs b)
    (hle : a ≤ b) :
    ∃ before ts after, tokenize cs = before ++ ts ++ after ∧
      (∀ t ∈ before, t.stop ≤ a) ∧ (∀ t ∈ ts, a ≤ t.start ∧ t.stop ≤ b) ∧ (∀ t ∈ after, b ≤ t.start) ∧
      tokenize (Text.slice cs a b) = ts.map (Token.relativeTo a) := by
  obtain ⟨before, rest, hbefore, rfl⟩ := ha.exists_append
  obtain ⟨as, after, hafter, rfl⟩ := hb.exists_append
  obtain ⟨ts, rfl, rfl⟩ := exists_append_of_tokenize hbefore hafter hle
  have hslice : Text.slice cs (Text.byteSize (Token.texts before))
      (Text.byteSize (Token.texts (before ++ ts))) = Token.texts ts := by
    rw [← texts_tokenize cs, hafter, Token.texts_append, Token.texts_append,
      Text.slice_append_append]
  refine ⟨before, ts, after, hafter, stop_le_of_tokenize hbefore, fun t ht => ⟨?_, ?_⟩,
    le_start_of_tokenize hafter, ?_⟩
  · exact le_start_of_tokenize hbefore t (List.mem_append_left _ ht)
  · exact stop_le_of_tokenize hafter t (List.mem_append_right _ ht)
  · rw [hslice, tokenize_texts hbefore]

theorem tokenize_slice_digits :
    let cs := "é 123456789  12##x".toList
    IsTokenBoundary cs 2 ∧ IsTokenBoundary cs 17 ∧ 2 ≤ 17 ∧
      ∃ before ts after, tokenize cs = before ++ ts ++ after ∧ (∀ t ∈ before, t.stop ≤ 2) ∧
        (∀ t ∈ ts, 2 ≤ t.start ∧ t.stop ≤ 17) ∧ (∀ t ∈ after, 17 ≤ t.start) ∧
        tokenize (Text.slice cs 2 17) = ts.map (Token.relativeTo 2) := by
  intro cs
  have ha : IsTokenBoundary cs 2 := .inr ⟨⟨.spaces, 2, [' ']⟩, by decide +kernel, .inl rfl⟩
  have hb : IsTokenBoundary cs 17 := .inr ⟨⟨.hash, 16, ['#']⟩, by decide +kernel, .inr rfl⟩
  exact ⟨ha, hb, by decide, tokenize_slice ha hb (by decide)⟩

end TaskMarkup
