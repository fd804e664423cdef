import TaskMarkup.Proofs.Grammar.Body

/-!
Seams of a text: a blank line behind the end of a line, maybe more of them, and a line with content
behind them. A lexer that has not passed a seam stands before it, where the end of a line is still
to come, or inside it, where nothing is left but white space before the line behind it.
-/

namespace TaskMarkup

/-- The newline of a blank line, the white space behind it and what follows that. -/
structure Seam where
  nl : Token
  blank : List Token
  rest : List Token
  newline : nl.tag = .newline
  white : ∀ t ∈ blank, (t.tag.isInlineSpace || t.tag == .newline) = true
  content : (rest.head?.map Token.tag).any Tag.isContent = true

namespace Seam

variable {x : Seam} {s t : Lexer Cursor} {ts us : List Token} {tok : Token}

def cut (x : Seam) : Nat := x.nl.start

def ahead (x : Seam) : List Token := x.nl :: (x.blank ++ x.rest)

theorem exists_content (x : Seam) : ∃ tok toks, x.rest = tok :: toks ∧ tok.tag.isContent = true := by
  have h := x.content
  cases hr : x.rest with
  | nil => simp [hr] at h
  | cons tok toks => exact ⟨tok, toks, rfl, by simpa [hr] using h⟩

structure Before (x : Seam) (s : Lexer Cursor) : Prop where
  pending : ∃ ts, s.pending = ts ++ x.ahead ∧ ts.getLast?.map Token.tag = some .newline

structure Inside (x : Seam) (s : Lexer Cursor) : Prop where
  pending : ∃ ws, ws <:+ x.nl :: x.blank ∧ s.pending = ws ++ x.rest
  lastEnd_le : s.observer.lastEnd ≤ x.cut

/-- The seam has not been passed. The line behind it, where that is measured, is not indented. -/
inductive Upto (x : Seam) (s : Lexer Cursor) : Prop
  | before : x.Before s → Upto x s
  | inside : x.Inside s → (∀ m, s.observer.lineIndent = some m → m = 0) → Upto x s

theorem white_ahead (x : Seam) {ws : List Token} (h : ws <:+ x.nl :: x.blank) :
    ∀ t ∈ ws, (t.tag.isInlineSpace || t.tag == .newline) = true := by
  intro t ht
  rcases List.mem_cons.1 (h.subset ht) with rfl | ht
  · simp [x.newline]
  · exact x.white t ht

theorem exists_of_white {ws toks : List Token} (htok : tok.tag.isContent = true)
    (hus : ∀ u ∈ us, (u.tag.isInlineSpace || u.tag == .newline) = true)
    (h : ws ++ tok :: toks = us ++ ts) : ∃ vs, ws = us ++ vs ∧ ts = vs ++ tok :: toks := by
  rcases List.append_eq_append_iff.1 h with ⟨vs, rfl, hvs⟩ | ⟨vs, rfl, rfl⟩
  · cases vs with
    | nil => exact ⟨[], by simp, by simpa using hvs.symm⟩
    | cons v vs =>
      obtain ⟨rfl, -⟩ := List.cons.inj hvs
      have := hus tok (by simp)
      rw [Tag.isContent_iff] at htok
      simp only [htok.1, Bool.false_or, beq_iff_eq] at this
      simp [this, Tag.endsLine] at htok
  · exact ⟨vs, rfl, rfl⟩

namespace Before

theorem ne_nil (h : x.Before s) : s.pending ≠ [] := by
  obtain ⟨ts, hp, -⟩ := h.pending
  simp [hp, ahead]

theorem of_pending (h : x.Before s) (hp : t.pending = s.pending) : x.Before t :=
  ⟨by rw [hp]; exact h.pending⟩

theorem drop (h : x.Before s) (hp : s.pending = us ++ t.pending)
    (hus : ∀ u ∈ us, u.tag ≠ .newline) : x.Before t := by
  obtain ⟨ts, hts, hlast⟩ := h.pending
  have hne {vs : List Token} (hvs : ∀ v ∈ vs, v.tag ≠ .newline) :
      vs.getLast?.map Token.tag ≠ some .newline := by
    intro hl
    obtain ⟨v, hv, hn⟩ := Option.map_eq_some_iff.1 hl
    exact hvs v (List.mem_of_getLast? hv) hn
  rcases List.append_eq_append_iff.1 (hp.symm.trans hts) with ⟨vs, rfl, hvs⟩ | ⟨vs, rfl, -⟩
  · refine ⟨vs, hvs, ?_⟩
    by_cases hnil : vs = []
    · subst hnil
      rw [List.append_nil] at hlast
      exact absurd hlast (hne hus)
    · rwa [List.getLast?_append_of_ne_nil _ hnil] at hlast
  · exact absurd hlast (hne fun v hv => hus v (List.mem_append_left _ hv))

theorem looks (h : x.Before s) (ht : s.Looks t) : x.Before t := h.of_pending ht.pending

theorem scans (h : x.Before s) (ht : s.Scans t) : x.Before t := by
  obtain ⟨ts, hts, ht⟩ := ht
  exact h.drop ht.pending hts

theorem reads (h : x.Before s) (ht : s.Reads t) : x.Before t := h.scans ht.scans

theorem lastEnd_le (h : x.Before s) (hs : s.Steady) : s.observer.lastEnd ≤ x.cut := by
  obtain ⟨ts, hp, -⟩ := h.pending
  have hpos := hs.sound.position
  rw [hp, ahead, ← List.append_assoc] at hpos
  have hstart := start_of_tokenize_eq_append hpos.2.2
  rw [Token.texts_append, texts_tokenize, Text.byteSize_append, hpos.2.1] at hstart
  have := hs.lastEnd_le
  rw [cut, hstart]
  omega

theorem newline (h : x.Before s) (hs : s.Steady) (ht : s.Eats tok t) :
    x.Before t ∨ x.Inside t ∧ t.pending = x.ahead := by
  obtain ⟨ts, hp, hlast⟩ := h.pending
  cases ts with
  | nil => simp at hlast
  | cons u ts =>
    rw [ht.pending, List.cons_append] at hp
    obtain ⟨rfl, hpt⟩ := List.cons.inj hp
    by_cases hnil : ts = []
    · subst hnil
      refine .inr ⟨⟨⟨_, List.suffix_refl _, hpt⟩, ?_⟩, hpt⟩
      rw [ht.took.lastEnd_eq hs.sound hs.unpaused (by simp), cut, ht.sound.start_of_cons hpt]
    · exact .inl ⟨ts, hpt, by rwa [List.getLast?_cons_of_ne_nil hnil] at hlast⟩

end Before

theorem Inside.skips (h : x.Inside s) (ht : s.Skips t) : x.Inside t := by
  obtain ⟨ws, hws, hp⟩ := h.pending
  obtain ⟨us, hus, hwhite⟩ := ht.white
  obtain ⟨tok, toks, hrest, htok⟩ := x.exists_content
  have heq : ws ++ tok :: toks = us ++ t.pending := by rw [← hrest, ← hp, hus]
  obtain ⟨vs, rfl, hvs⟩ := exists_of_white htok hwhite heq
  refine ⟨⟨vs, (List.suffix_append us vs).trans hws, by rw [hvs, hrest]⟩, ?_⟩
  rw [ht.lastEnd]
  exact h.lastEnd_le

theorem Before.not_inside (h : x.Before s) : ¬ x.Inside s := by
  intro h'
  obtain ⟨ts, hp, hlast⟩ := h.pending
  obtain ⟨ws, hws, hp'⟩ := h'.pending
  have hle := hws.length_le
  have hlen := congrArg List.length (hp.symm.trans hp')
  simp only [ahead, List.length_append, List.length_cons] at hlen hle
  obtain rfl : ts = [] := List.length_eq_zero_iff.1 (by omega)
  simp at hlast

theorem Before.skips (h : x.Before s) (hs : s.Steady) (ht : s.Skips t) :
    x.Before t ∨ x.Inside t := by
  obtain ⟨ts, hp, hlast⟩ := h.pending
  obtain ⟨us, hus, hwhite⟩ := ht.white
  have heq : us ++ t.pending = ts ++ x.ahead := by rw [← hus, hp]
  rcases List.append_eq_append_iff.1 heq with ⟨vs, rfl, hvs⟩ | ⟨vs, rfl, hvs⟩
  · by_cases hnil : vs = []
    · subst hnil
      refine .inr ⟨⟨_, List.suffix_refl _, by rw [hvs]; rfl⟩, ?_⟩
      rw [ht.lastEnd]
      exact h.lastEnd_le hs
    · exact .inl ⟨vs, hvs, by rwa [List.getLast?_append_of_ne_nil _ hnil] at hlast⟩
  · -- All that was skipped behind the line is of the seam.
    obtain ⟨tok, toks, hrest, htok⟩ := x.exists_content
    have hahead : (x.nl :: x.blank) ++ tok :: toks = vs ++ t.pending := by
      rw [← hrest, ← hvs]
      rfl
    obtain ⟨ws, hws, hpt⟩ := exists_of_white htok (fun u hu => hwhite u (by simp [hu])) hahead
    refine .inr ⟨⟨ws, ⟨vs, hws.symm⟩, by rw [hpt, hrest]⟩, ?_⟩
    rw [ht.lastEnd]
    exact h.lastEnd_le hs

structure Reached (x : Seam) (s : Lexer Cursor) : Prop where
  pending : s.pending = x.rest
  lastEnd_le : s.observer.lastEnd ≤ x.cut

theorem Inside.reached (h : x.Inside s) (hc : (s.ahead 0).tag.isContent = true) : x.Reached s := by
  obtain ⟨ws, hws, hp⟩ := h.pending
  refine ⟨?_, h.lastEnd_le⟩
  cases ws with
  | nil => exact hp
  | cons u ws =>
    have hu := x.white_ahead hws u (by simp)
    rw [Lexer.ahead_zero_of_cons hp, Tag.isContent_iff] at hc
    simp only [hc.1, Bool.false_or, beq_iff_eq] at hu
    simp [hu, Tag.endsLine] at hc

theorem Reached.inside (h : x.Reached s) : x.Inside s := ⟨⟨[], List.nil_suffix, h.pending⟩, h.lastEnd_le⟩

theorem Reached.looks (h : x.Reached s) (ht : s.Looks t) : x.Reached t :=
  ⟨ht.pending.trans h.pending, by rw [ht.observer]; exact h.lastEnd_le⟩

theorem Inside.ne_nil (h : x.Inside s) : s.pending ≠ [] := by
  obtain ⟨ws, -, hp⟩ := h.pending
  obtain ⟨tok, toks, hrest, -⟩ := x.exists_content
  simp [hp, hrest]

theorem Inside.looks (h : x.Inside s) (ht : s.Looks t) : x.Inside t :=
  ⟨by rw [ht.pending]; exact h.pending, by rw [ht.observer]; exact h.lastEnd_le⟩

namespace Upto

theorem of_fresh (h : x.Before s ∨ x.Inside s) (hm : s.observer.lineIndent = none) : x.Upto s :=
  h.elim .before fun h => .inside h (by simp [hm])

theorem or (h : x.Upto s) : x.Before s ∨ x.Inside s := by
  cases h with
  | before h => exact .inl h
  | inside h _ => exact .inr h

theorem looks (h : x.Upto s) (ht : s.Looks t) : x.Upto t := by
  cases h with
  | before h => exact .before (h.looks ht)
  | inside h hm => exact .inside (h.looks ht) (by rwa [ht.observer])

theorem ne_nil (h : x.Upto s) : s.pending ≠ [] := h.or.elim Before.ne_nil Inside.ne_nil

theorem skips_ne_nil (h : x.Upto s) (hs : s.Steady) (ht : s.Skips t) : t.pending ≠ [] :=
  (h.or.elim (·.skips hs ht) fun h => .inr (h.skips ht)).elim Before.ne_nil Inside.ne_nil

theorem lastEnd_le (h : x.Upto s) (hs : s.Steady) : s.observer.lastEnd ≤ x.cut :=
  h.or.elim (fun h => h.lastEnd_le hs) Inside.lastEnd_le

end Upto

end Seam

end TaskMarkup
