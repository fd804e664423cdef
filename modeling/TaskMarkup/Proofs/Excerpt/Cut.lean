import TaskMarkup.Proofs.Excerpt.Reading
import TaskMarkup.Proofs.Token.Spelling

namespace TaskMarkup

namespace Text

theorem joins_newline (c : Char) : joins '\n' c = false ∧ joins c '\n' = false := by
  have h : joins '\n' c = false := joins_eq_false_of_reserved (show Tag.ofChar? '\n' = some .newline from rfl) c
  exact ⟨h, joins_comm c '\n' ▸ h⟩

end Text

theorem tokenize_append {as bs : List Char}
    (h : ∀ a ∈ as.getLast?, ∀ b ∈ bs.head?, Text.joins a b = false) :
    tokenize (as ++ bs) = tokenize as ++ (tokenize bs).map (Token.moved (Text.byteSize as)) := by
  rw [tokenize, Text.runs_append h, Token.place_append, Text.flatten_runs, Token.place_moved]
  rfl

theorem tokenize_append_of_line {as bs : List Char}
    (h : as.getLast? = some '\n' ∨ bs = [] ∨ bs.head? = some '\n') :
    tokenize (as ++ bs) = tokenize as ++ (tokenize bs).map (Token.moved (Text.byteSize as)) := by
  apply tokenize_append
  intro a ha b hb
  rcases h with h | h | h
  · obtain rfl : '\n' = a := by simpa [h] using ha
    exact (Text.joins_newline b).1
  · simp [h] at hb
  · obtain rfl : '\n' = b := by simpa [h] using hb
    exact (Text.joins_newline a).2

theorem tokenize_append_newline (as bs : List Char) :
    tokenize (as ++ '\n' :: bs) = tokenize as ++ ⟨.newline, Text.byteSize as, ['\n']⟩ ::
      (tokenize bs).map (Token.moved (Text.byteSize as + 1)) := by
  have hnl : tokenize ['\n'] = [⟨.newline, 0, ['\n']⟩] := by decide
  rw [tokenize_append_of_line (.inr (.inr rfl)), ← List.singleton_append,
    tokenize_append_of_line (.inl rfl), hnl]
  have hsize : '\n'.utf8Size = 1 := rfl
  simp [Token.moved, Text.byteSize, hsize, Nat.add_assoc, Nat.add_comm 1]

theorem Token.tag_of_getLast?_texts {ts : List Token} (hts : ∀ t ∈ ts, t.Spelled)
    (h : (texts ts).getLast? = some '\n') : ts.getLast?.map Token.tag = some .newline := by
  obtain rfl | ⟨us, t, rfl⟩ := List.eq_nil_or_concat ts
  · simp at h
  · have ht := hts t (by simp)
    rw [List.concat_eq_append, texts_append, texts_cons, texts_nil, List.append_nil,
      List.getLast?_append_of_ne_nil _ ht.text_ne_nil] at h
    have hmem := List.mem_of_getLast? h
    have htag : t.tag = .newline := by
      by_contra htag
      exact ht.newline_not_mem htag hmem
    simp [htag]

theorem Token.getLast?_texts {ts : List Token} (hts : ∀ t ∈ ts, t.Spelled)
    (h : ts.getLast?.map Token.tag = some .newline) : (texts ts).getLast? = some '\n' := by
  obtain rfl | ⟨us, t, rfl⟩ := List.eq_nil_or_concat ts
  · simp at h
  · have ht := hts t (by simp)
    rw [List.concat_eq_append] at h ⊢
    rw [texts_append, texts_cons, texts_nil, List.append_nil,
      List.getLast?_append_of_ne_nil _ ht.text_ne_nil, ht.newline (by simpa using h)]
    rfl

theorem Token.tag_of_head?_texts {ts : List Token} (hts : ∀ t ∈ ts, t.Spelled)
    (h : (texts ts).head? = some '\n') : ts.head?.map Token.tag = some .newline := by
  cases ts with
  | nil => simp at h
  | cons t ts =>
    have ht := hts t (by simp)
    obtain ⟨c, cs, hc⟩ := List.exists_cons_of_ne_nil ht.text_ne_nil
    obtain rfl : c = '\n' := by simpa [hc] using h
    have htag := ht.tag_of_head? (c := '\n') (by rw [hc]; rfl) (show Tag.newline.char? = some '\n' from rfl)
    simp [htag]

namespace Lexer

variable {s : Lexer Cursor} {n : Nat}

theorem Sound.cut (hs : s.Sound) (hn : s.source.EndsLine n) (hlt : s.nextOffset < n) :
    ∃ ts rest, s.pending = ts ++ rest ∧ n = s.nextOffset + Text.byteSize (Token.texts ts) ∧
      ((rest = [] ∨ rest.head?.map Token.tag = some .newline) ∨
        ts.getLast?.map Token.tag = some .newline) := by
  obtain ⟨as, bs, hchars, rfl, hline⟩ := hn
  obtain ⟨hpos, hsize, htoks⟩ := hs.position
  obtain ⟨cs, rfl, htexts⟩ := Text.exists_append_of_byteSize_le (hpos.symm.trans hchars)
    (by omega)
  have hcs : cs ≠ [] := by
    rintro rfl
    simp [hsize] at hlt
  have hcut := tokenize_append_of_line hline
  rw [← hchars, htoks] at hcut
  have hlast : (s.consumed ++ cs).getLast? = cs.getLast? := List.getLast?_append_of_ne_nil _ hcs
  rw [hlast] at hline
  obtain ⟨ts, hts, hrest⟩ | ⟨us, hus, hrest⟩ := List.append_eq_append_iff.1 hcut
  · have htext : Token.texts ts = cs := by
      have := congrArg Token.texts hts
      rw [Token.texts_append, texts_tokenize, texts_tokenize] at this
      exact (List.append_cancel_left this).symm
    have hspell : ∀ t ∈ s.pending, t.Spelled := fun t ht => hs.spelled ht
    refine ⟨ts, _, hrest, by rw [Text.byteSize_append, htext, hsize], ?_⟩
    rcases hline with hline | rfl | hline
    · refine .inr (Token.tag_of_getLast?_texts (fun t ht => hspell t ?_) (htext ▸ hline))
      rw [hrest]
      exact List.mem_append_left _ ht
    · exact .inl (.inl rfl)
    · refine .inl (.inr (Token.tag_of_head?_texts (fun t ht => hspell t ?_) ?_))
      · rw [hrest]
        exact List.mem_append_right _ ht
      · rw [Token.texts_map_moved, texts_tokenize, hline]
  · -- Nothing is before the place that the lexer has not reached.
    have := congrArg Token.texts hus
    rw [Token.texts_append, texts_tokenize, texts_tokenize, List.append_assoc,
      List.self_eq_append_right] at this
    exact absurd (List.append_eq_nil_iff.1 this).1 hcs

theorem Sound.tokenize_texts (hs : s.Sound) {ts rest : List Token} (hp : s.pending = ts ++ rest) :
    ts = (tokenize (Token.texts ts)).map (Token.moved s.nextOffset) := by
  have h := hs.position.2.2
  rw [hp] at h
  have hmoved := eq_map_moved_of_tokenize h
  rwa [texts_tokenize, hs.position.2.1] at hmoved

end Lexer

namespace Stretch

def ahead (s : Lexer Cursor) (ts rest : List Token) (free : Prop)
    (plain : free ∨ Token.Plain rest) : Stretch :=
  ⟨s.consumed, Token.texts ts, rest, free, plain⟩

variable {s e : Lexer Cursor} {ts rest : List Token} {free : Prop} {plain : free ∨ Token.Plain rest}

theorem origin_ahead (hs : s.Sound) : (ahead s ts rest free plain).origin = s.nextOffset :=
  hs.position.2.1

theorem cut_ahead (hs : s.Sound) :
    (ahead s ts rest free plain).cut = s.nextOffset + Text.byteSize (Token.texts ts) := by
  rw [cut, origin_ahead hs]
  rfl

theorem abreast_ahead (hs : s.Steady) (hp : s.pending = ts ++ rest)
    (hw : s.observer.wordStart = true)
    (hb : free ∧ (rest = [] ∨ rest.head?.map Token.tag = some .newline) ∨
      ts.getLast?.map Token.tag = some .newline)
    (he : e.Sound) (hsrc : e.source.chars = Token.texts ts)
    (hpe : e.pending = tokenize (Token.texts ts)) (hlast : e.observer.lastEnd = 0)
    (hpause : e.observer.paused = false) (hwe : e.observer.wordStart = true) :
    (ahead s ts rest free plain).Abreast True s e where
  sound := hs.sound
  sound' := he
  source := by
    rw [hs.sound.position.1, hp, Token.texts_append]
    rfl
  source' := hsrc
  cursor := by
    refine ⟨?_, hs.unpaused.trans hpause.symm, hw.trans hwe.symm, .inl trivial⟩
    have := hs.lastEnd_le
    rw [origin_ahead hs.sound, hlast]
    omega
  pending := by
    rw [hpe, origin_ahead hs.sound, ← hs.sound.tokenize_texts hp, hp]
    rfl
  bounds := by
    have htags : (tokenize (Token.texts ts)).map Token.tag = ts.map Token.tag := by
      conv_rhs => rw [hs.sound.tokenize_texts hp]
      simp [Function.comp_def]
    apply hb.imp id
    intro hts
    rw [hpe]
    rwa [← List.getLast?_map, htags, List.getLast?_map]

end Stretch

end TaskMarkup
