import TaskMarkup.Proofs.Filter.Phrase
import TaskMarkup.Proofs.Lexer.Passed

namespace TaskMarkup.Filter

open Rule

/-- What may stand behind a predicate without being taken for a part of it. -/
def Closes (rest : List Token) : Prop :=
  ∀ t ∈ rest.head?, t.tag ≠ .word ∧ t.tag ≠ .number ∧ t.tag ≠ .colon

variable {σ : Type} {F : Fault → Prop} {E : FilterError → Lexer σ → Prop} {s : Lexer σ} {k : Nat}
  {rest : List Token} {expression : Nat → Query σ Filter}

theorem Closes.ahead (h : Closes rest) (hp : s.pending = rest) :
    (s.ahead 0).tag ≠ .word ∧ (s.ahead 0).tag ≠ .number ∧ (s.ahead 0).tag ≠ .colon := by
  cases rest with
  | nil => simp [Lexer.ahead_zero_of_nil hp]
  | cons t ts =>
    rw [Lexer.ahead_zero_of_cons hp]
    exact h t (by simp)

variable [Observer σ]

theorem ends_delimitedText {opening closing : Token} {delimiter : Char} {ts : List Token}
    {text : List Char} (hs : s.Sound) (hk : s.Spare F k) (hk' : k < 98)
    (hp : s.pending = opening :: (ts ++ closing :: rest)) (hclosing : closing.tag = opening.tag)
    (hline : opening.tag.endsLine = false) (hback : opening.tag ≠ .backslash)
    (hliteral : Literal opening.tag ts text) :
    Ends F (delimitedText opening delimiter) s (fun r t => r = (String.ofList text, closing.stop) ∧
      s.Passed (opening :: (ts ++ [closing])) t ∧ t.Spare F 0) E := by
  apply Ends.bind
  apply Ends.eat (.refl hs) hk hk' hp
  intro u hu hpu hku
  -- What is left of the literal goes with the text that is left to be read.
  apply Ends.loop (fun read t => ∃ done us more, Literal opening.tag us more ∧ done ++ us = ts ∧
    read ++ more = text ∧ s.Passed (opening :: done) t ∧ t.pending = us ++ closing :: rest ∧
      t.Spare F 0) hu.sound
  · exact ⟨[], ts, text, hliteral, rfl, rfl, hu.passed, hpu, hku⟩
  · rintro read t ⟨done, us, more, h, hts, htext, hst, hpt, hkt⟩
    apply Ends.bind
    apply Ends.peek (.refl hst.sound) (by decide) hkt (by decide)
    intro v hv hkv _
    cases h with
    | nil =>
      rw [List.nil_append] at hpt
      rw [Lexer.ahead_zero_of_cons hpt, hclosing, hline]
      apply Ends.bind
      apply Ends.eat hv hkv (by decide) hpt
      intro w hw _ hkw
      dsimp only
      rw [if_pos rfl]
      refine Ends.pure ⟨?_, ?_, hkw⟩
      · rw [← htext, List.append_nil]
      · rw [← hts, List.append_nil]
        exact hst.eats hw
    | @plain tok us more hne hdel hplain h =>
      rw [List.cons_append] at hpt
      rw [Lexer.ahead_zero_of_cons hpt, hne]
      apply Ends.bind
      apply Ends.eat hv hkv (by decide) hpt
      intro w hw hpw hkw
      dsimp only
      rw [if_neg hdel, if_neg hplain]
      refine Ends.pure ⟨⟨done ++ [tok], us, more, h, ?_, ?_, hst.eats hw, hpw, hkw⟩, ?_⟩
      · rw [← hts, List.append_assoc, List.singleton_append]
      · rw [← htext, List.append_assoc]
      · rw [hpt, hpw, List.length_cons]
        omega
    | @escaped back tok us more hne h =>
      rw [List.cons_append, List.cons_append] at hpt
      rw [Lexer.ahead_zero_of_cons hpt, back.property]
      apply Ends.bind
      apply Ends.eat hv hkv (by decide) hpt
      intro w hw hpw hkw
      dsimp only
      rw [if_neg hback.symm, if_pos rfl]
      apply Ends.bind
      apply Ends.peekTag (.refl hw.sound) (by decide) hkw (by decide)
      intro x hx hkx _
      rw [Lexer.ahead_zero_of_cons hpw, hne]
      apply Ends.bind
      apply Ends.eat hx hkx (by decide) hpw
      intro y hy hpy hky
      refine Ends.pure ⟨⟨done ++ [back.val, tok], us, more, h, ?_, ?_, ?_, hpy, hky⟩, ?_⟩
      · rw [← hts, List.append_assoc]
        rfl
      · rw [← htext, List.append_assoc]
      · simpa using (hst.eats hw).eats hy
      · rw [hpt, hpy, List.length_cons, List.length_cons]
        omega

theorem ends_delimited {tag : Tag} {delimiter : Char} {make : String → Predicate}
    (opening closing : Sign tag) {ts : List Token} {text : List Char} (hline : tag.endsLine = false)
    (hback : tag ≠ .backslash) (h : Literal tag ts text) {u : Lexer σ} (hu : s.Looks u)
    (hk : u.Spare F k) (hk' : k < 98) (hp : s.pending = opening.val :: (ts ++ closing.val :: rest)) :
    Ends F (do
      let (needle, stop) ← delimitedText opening.val delimiter
      return .predicate (spanning opening.val.start stop) (make needle) : Query σ Filter) u
      (fun f t => f = .predicate (spanOf (opening :: (ts ++ [closing.val]))) (make (String.ofList text)) ∧
        s.Passed (opening :: (ts ++ [closing.val])) t ∧ t.Spare F 1) E := by
  obtain ⟨opening, rfl⟩ := opening
  have hpu := hu.pending.trans hp
  apply Ends.seq (ends_delimitedText hu.sound hk hk' hpu closing.property hline hback h)
  rintro _ t ⟨rfl, ht, hkt⟩
  have hstop := stop_spanOf_concat (opening :: ts) closing.val
  refine Ends.pure ⟨?_, hu.passed.trans ht, hkt.mono (by decide)⟩
  rw [← hstop]
  rfl

theorem ends_keyword {t : Token} {p : Predicate} {u : Lexer σ} (hu : s.Looks u)
    (hk : u.Spare F k) (hk' : k < 98) (hp : s.pending = t :: rest) :
    Ends F (keyword p) u (fun f v => f = .predicate (spanOf [t]) p ∧ s.Passed [t] v ∧
      v.Spare F 1) E := by
  apply Ends.bind
  apply Ends.eat hu hk hk' hp
  intro v hv _ hkv
  exact Ends.pure ⟨rfl, hv.passed, hkv.mono (by decide)⟩

theorem ends_tracker_alone {t : Token} {u : Lexer σ} (hu : s.Looks u) (hk : u.Spare F k)
    (hk' : k < 98) (hp : s.pending = t :: rest) (hrest : Closes rest) :
    Ends F (tracker t) u (fun f v => f = .predicate (spanOf [t]) (.track none) ∧ s.Passed [t] v ∧
      v.Spare F 1) E := by
  apply Ends.bind
  apply Ends.eat hu hk hk' hp
  intro v hv hpv hkv
  apply Ends.seq (Ends.eatIf hv.sound (by decide) hkv (by decide))
  rintro r w (⟨rfl, -, hw, hkw, -⟩ | ⟨colon, -, hcolon, hw, -⟩)
  · exact Ends.pure ⟨rfl, hv.passed.looks hw, hkw⟩
  · have hclose := (hrest.ahead hpv).2.2
    rw [Lexer.ahead_zero_of_cons hw.pending] at hclose
    exact absurd hcolon hclose

theorem ends_tracker_numbered {t : Token} (colon : Sign .colon) (number : Sign .number)
    {u : Lexer σ} (hu : s.Looks u) (hk : u.Spare F k) (hk' : k < 98)
    (hp : s.pending = t :: colon.val :: number.val :: rest) :
    Ends F (tracker t) u (fun f v =>
      f = .predicate (spanOf [t, colon.val, number.val]) (.track number.val.value?) ∧
        s.Passed [t, colon.val, number.val] v ∧ v.Spare F 1) E := by
  apply Ends.bind
  apply Ends.eat hu hk hk' hp
  intro v hv hpv hkv
  apply Ends.seq (Ends.eatIf_of_tag hv.sound hkv (by decide) hpv colon.property)
  rintro _ w ⟨rfl, hw, hpw, hkw⟩
  apply Ends.seq (Ends.eatIf_of_tag hw.sound hkw (by decide) hpw number.property)
  rintro _ x ⟨rfl, hx, -, hkx⟩
  refine Ends.pure ⟨rfl, ?_, hkx.mono (by decide)⟩
  simpa using (hv.passed.eats hw).eats hx

theorem ends_predicate (a : Atom) (hs : s.Sound) (hk : s.Spare F k) (hk' : k < 97)
    (hp : s.pending = a.tokens ++ rest) (hrest : Closes rest) :
    Ends F (primary expression) s (fun f t => f = .predicate (spanOf a.tokens) a.predicate ∧
      s.Passed a.tokens t ∧ t.Spare F 1) E := by
  obtain ⟨ts, p, h⟩ := a
  dsimp only at hp ⊢
  obtain ⟨tok, us, rfl, -⟩ := h.exists_head
  rw [List.cons_append] at hp
  apply Ends.bind
  apply Ends.peek (.refl hs) (by decide) hk (by omega)
  intro u hu hku _
  rw [Lexer.ahead_zero_of_cons hp]
  have hku' : k + 1 < 98 := by omega
  cases h with
  | any sign =>
    rw [sign.property]
    exact ends_keyword hu hku hku' hp
  | word t hw =>
    rw [t.property]
    dsimp only
    generalize String.ofList t.val.text = text at hw ⊢
    unfold word? at hw
    split at hw
    all_goals simp only [Option.some.injEq, reduceCtorEq] at hw
    all_goals subst hw
    · exact ends_keyword hu hku hku' hp
    · exact ends_keyword hu hku hku' hp
    · exact ends_keyword hu hku hku' hp
    · exact ends_keyword hu hku hku' hp
    · exact ends_keyword hu hku hku' hp
    · exact ends_tracker_alone hu hku hku' hp hrest
  | anyTag sign =>
    rw [sign.property]
    apply Ends.bind
    apply Ends.eat hu hku hku' hp
    intro v hv hpv hkv
    apply Ends.bind
    apply Ends.peek (.refl hv.sound) (by decide) hkv (by decide)
    intro w hw hkw _
    have hclose := hrest.ahead hpv
    simp only [hclose.1, hclose.2.1, decide_false, Bool.or_self, Bool.false_and, Bool.false_eq_true, if_false]
    exact Ends.pure ⟨rfl, hv.passed.looks hw, hkw⟩
  | @tag sign name htag hname =>
    rw [sign.property]
    apply Ends.bind
    apply Ends.eat hu hku hku' hp
    intro v hv hpv hkv
    apply Ends.bind
    apply Ends.peek (.refl hv.sound) (by decide) hkv (by decide)
    intro w hw hkw _
    have hpv : v.pending = name :: rest := hpv
    rw [Lexer.ahead_zero_of_cons hpv]
    have hif : ((name.tag = .word || name.tag = .number) && isTagName name.text) = true := by
      simpa [hname] using htag
    rw [if_pos hif]
    apply Ends.bind
    apply Ends.eat hw hkw (by decide) hpv
    intro x hx _ hkx
    exact Ends.pure ⟨rfl, hv.passed.eats hx, hkx.mono (by decide)⟩
  | anyPriority sign =>
    rw [sign.property]
    apply Ends.bind
    apply Ends.eat hu hku hku' hp
    intro v hv hpv hkv
    apply Ends.seq (Ends.eatIf hv.sound (by decide) hkv (by decide))
    rintro r w (⟨rfl, -, hw, hkw, -⟩ | ⟨number, -, hnumber, hw, -⟩)
    · exact Ends.pure ⟨rfl, hv.passed.looks hw, hkw⟩
    · have hclose := (hrest.ahead hpv).2.1
      rw [Lexer.ahead_zero_of_cons hw.pending] at hclose
      exact absurd hnumber hclose
  | priority sign number =>
    rw [sign.property]
    apply Ends.bind
    apply Ends.eat hu hku hku' hp
    intro v hv hpv hkv
    apply Ends.seq (Ends.eatIf_of_tag hv.sound hkv (by decide) hpv number.property)
    rintro _ w ⟨rfl, hw, -, hkw⟩
    exact Ends.pure ⟨rfl, hv.passed.eats hw, hkw.mono (by decide)⟩
  | track t colon number htrack =>
    rw [t.property, htrack]
    exact ends_tracker_numbered colon number hu hku hku' hp
  | literal opening closing h =>
    rw [opening.property]
    rw [List.append_assoc, List.singleton_append] at hp
    exact ends_delimited opening closing (by decide) (by decide) h hu hku hku' hp
  | fuzzy opening closing h =>
    rw [opening.property]
    rw [List.append_assoc, List.singleton_append] at hp
    exact ends_delimited opening closing (by decide) (by decide) h hu hku hku' hp

end TaskMarkup.Filter
