import TaskMarkup.Proofs.Filter.Accepted

namespace TaskMarkup.Filter

open Rule

abbrev lexer (text : String) : Lexer Unit :=
  Lexer.start (Source.ofString text) Lexer.defaultLimit ()

theorem spare_lexer (F : Fault → Prop) (text : String) : (lexer text).Spare F 0 :=
  .inr ⟨Nat.le_max_left .., Nat.le_refl 0⟩

theorem sound_lexer (text : String) : (lexer text).Sound := Lexer.start_sound ..

theorem pending_lexer (text : String) : (lexer text).pending = tokenize text.toList :=
  Lexer.pending_start ..

variable {text : String} {F : Fault → Prop} {ph : Phrase (.chain .or)} {rest : List Token} {f : Filter}

theorem closes_of_isSpace (h : ∀ t ∈ rest, isSpace t = true) : Closes rest := by
  intro t ht
  have := h t (List.mem_of_mem_head? ht)
  refine ⟨?_, ?_, ?_⟩
  · intro htag
    simp [isSpace, htag, Tag.isInlineSpace] at this
  · intro htag
    simp [isSpace, htag, Tag.isInlineSpace] at this
  · intro htag
    simp [isSpace, htag, Tag.isInlineSpace] at this

theorem stops_of_isSpace (h : ∀ t ∈ rest, isSpace t = true) (p : Nat) : Stops p rest := by
  intro t ht op hop
  have := h t ((List.dropWhile_suffix _).mem (List.mem_of_mem_head? ht))
  cases op <;> simp [isSpace, hop, Operator.tag, Tag.isInlineSpace] at this

theorem length_tokens_le_of_derives (h : Derives text ph) :
    ph.tokens.length ≤ (tokenize text.toList).length := by
  obtain ⟨before, after, -, htokens⟩ := h
  rw [htokens]
  simp only [List.length_append]
  omega

theorem ends_query (h : Derives text ph) (hF : ph.Excused F) :
    Ends F query (lexer text) (fun f _ => ph.nesting < maxDepth ∧ f = ph.filter)
      fun e _ => maxDepth ≤ ph.nesting ∧ ∃ offset, e = .tooDeep offset := by
  obtain ⟨before, after, hafter, htokens⟩ := h
  have hoffers : Offers F (lexer text) before ph after :=
    ⟨sound_lexer text, by rw [pending_lexer, htokens], closes_of_isSpace hafter, hF⟩
  have hops : ∀ op ∈ ph.operators, 0 < op.precedence := fun op _ => by cases op <;> decide
  apply Ends.seq (readsDepth F maxDepth hoffers hops (stops_of_isSpace hafter 0)
    (spare_lexer F text) (by decide))
  rintro _ t ⟨hnesting, rfl, ht, hkt⟩
  have hpt := hoffers.pending_of_passed ht
  obtain ⟨m, hm, -, hkt⟩ := hF.spare hkt
  apply Ends.seq (Ends.passUntil ht.sound hkt (by omega))
  rintro - u ⟨hu, hku, -⟩
  have hpu : u.pending = [] := by
    rw [hu.pending_of_takeWhile, hpt, List.dropWhile_eq_nil_iff]
    intro tok htok
    simpa [isSpace] using hafter tok ((List.dropWhile_suffix _).mem htok)
  apply Ends.bind
  apply Ends.peek (.refl hu.sound) (by decide) hku (by split <;> omega)
  intro v hv hkv _
  rw [if_pos (Lexer.ahead_zero_of_nil hpu)]
  exact Ends.pure ⟨hnesting, rfl⟩

theorem accepts_query (hF : Excuses F (tokenize text.toList)) :
    Ends F query (lexer text) (fun f _ => ∃ ph : Phrase (.chain .or), Derives text ph ∧
      ph.nesting < maxDepth ∧ f = ph.filter) fun _ _ => True := by
  rw [← pending_lexer] at hF
  apply Ends.seq (acceptsDepth F maxDepth (sound_lexer text) hF (spare_lexer F text) (by decide))
  rintro f t ⟨ph, hread, -, -⟩
  obtain ⟨before, after, ht⟩ := hread.passed
  obtain ⟨m, hm, -, hkt⟩ := (hF.excused hread.tokens_infix).spare hread.spare
  apply Ends.seq (Ends.passUntil ht.sound hkt (by omega))
  rintro - u ⟨hu, hku, -⟩
  apply Ends.bind
  apply Ends.peek (.refl hu.sound) (by decide) hku (by split <;> omega)
  intro v hv hkv _
  split
  · next heof =>
    have hpu := (hu.sound.tag_ahead_zero.resolve_right fun h => h.1 heof).2
    refine Ends.pure ⟨ph, ⟨before, after.val ++ t.pending, ?_, ?_⟩, hread.nesting, hread.filter⟩
    · have hall : ∀ tok ∈ t.pending, isSpace tok = true := by
        intro tok htok
        rw [hu.pending, hpu, List.append_nil] at htok
        simpa [isSpace] using List.mem_takeWhile_imp htok
      intro tok htok
      rcases List.mem_append.1 htok with htok | htok
      · simp [isSpace, after.property tok htok]
      · exact hall tok htok
    · rw [← pending_lexer, ht.pending]
      simp
  · exact Ends.reject trivial

theorem parse_of_derives (h : Derives text ph) :
    (ph.nesting < maxDepth ∧ parse text = .ok ph.filter) ∨
      (maxDepth ≤ ph.nesting ∧ ∃ offset, parse text = .error (.rejected (.tooDeep offset))) ∨
        maxBangs < ph.longestBangs ∧
          ∃ peeks offset, parse text = .error (.fault (.stalled peeks offset)) := by
  let F : Fault → Prop := fun fault =>
    maxBangs < ph.longestBangs ∧ ∃ peeks offset, fault = .stalled peeks offset
  have hF : ph.Excused F := fun hlt peeks offset => ⟨hlt, peeks, offset, rfl⟩
  have hends := ends_query h hF
  unfold Ends at hends
  unfold parse
  split at hends
  · next f t hr =>
    obtain ⟨hn, rfl⟩ := hends
    exact .inl ⟨hn, by rw [hr]⟩
  · next e t hr =>
    obtain ⟨hn, offset, rfl⟩ := hends
    exact .inr (.inl ⟨hn, offset, by rw [hr]⟩)
  · next fault t hr =>
    obtain ⟨hlt, peeks, offset, rfl⟩ := hends
    exact .inr (.inr ⟨hlt, peeks, offset, by rw [hr]⟩)

theorem parse?_eq_some_of_derives (h : Derives text ph) (hn : ph.nesting < maxDepth)
    (hb : ph.longestBangs ≤ maxBangs) : parse? text = some ph.filter := by
  obtain ⟨-, hparse⟩ | ⟨hle, -⟩ | ⟨hlt, -⟩ := parse_of_derives h
  · simp [parse?, hparse, Except.toOption]
  · exact absurd hn (Nat.not_lt.2 hle)
  · exact absurd hb (Nat.not_le.2 hlt)

theorem parse_tooDeep_of_derives (h : Derives text ph) (hn : maxDepth ≤ ph.nesting)
    (hb : ph.longestBangs ≤ maxBangs) :
    ∃ offset, parse text = .error (.rejected (.tooDeep offset)) := by
  obtain ⟨hlt, -⟩ | ⟨-, hparse⟩ | ⟨hlt, -⟩ := parse_of_derives h
  · exact absurd hn (Nat.not_le.2 hlt)
  · exact hparse
  · exact absurd hb (Nat.not_le.2 hlt)

theorem filter_of_parse? (h : Derives text ph) (hf : parse? text = some f) :
    ph.nesting < maxDepth ∧ f = ph.filter := by
  obtain ⟨hn, hok⟩ | ⟨-, _, hdeep⟩ | ⟨-, _, _, hstall⟩ := parse_of_derives h
  · simp only [parse?, hok, Except.toOption, Option.some.injEq] at hf
    exact ⟨hn, hf.symm⟩
  · simp [parse?, hdeep, Except.toOption] at hf
  · simp [parse?, hstall, Except.toOption] at hf

theorem derives_of_parse? (h : parse? text = some f) :
    ∃ ph : Phrase (.chain .or), Derives text ph ∧ ph.nesting < maxDepth ∧ f = ph.filter := by
  have hF : Excuses (fun _ => True) (tokenize text.toList) := fun _ _ _ => trivial
  have hends := accepts_query hF
  unfold parse? parse at h
  cases hr : query (lexer text) with
  | ok g t =>
    simp only [hr, Except.toOption, Option.some.injEq] at h
    exact h ▸ hends.of_ok hr
  | error e t => simp [hr, Except.toOption] at h

/-- A query is accepted or rejected, unless more than `maxBangs` times `!` in a row make the looks
run out. -/
theorem parse_ok_or_rejected (text : String) :
    (∃ f, parse text = .ok f) ∨ (∃ e, parse text = .error (.rejected e)) ∨
      Overnegated (tokenize text.toList) ∧
        ∃ peeks offset, parse text = .error (.fault (.stalled peeks offset)) := by
  let F : Fault → Prop := fun fault =>
    Overnegated (tokenize text.toList) ∧ ∃ peeks offset, fault = .stalled peeks offset
  have hF : Excuses F (tokenize text.toList) := fun h peeks offset => ⟨h, peeks, offset, rfl⟩
  have h := accepts_query hF
  unfold parse
  unfold Ends at h
  split at h
  · next f t hr =>
    rw [hr]
    exact .inl ⟨f, rfl⟩
  · next e t hr =>
    rw [hr]
    exact .inr (.inl ⟨e, rfl⟩)
  · next fault t hr =>
    rw [hr]
    obtain ⟨ho, peeks, offset, rfl⟩ := h
    exact .inr (.inr ⟨ho, peeks, offset, rfl⟩)

end TaskMarkup.Filter
