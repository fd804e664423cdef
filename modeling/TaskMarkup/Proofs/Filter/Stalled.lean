import TaskMarkup.Proofs.Filter.Query
import TaskMarkup.Proofs.Token.Spelling

namespace TaskMarkup

def Lexer.Spent {σ : Type} (n : Nat) (s : Lexer σ) : Prop :=
  s.limit = Lexer.defaultLimit ∧ n ≤ s.peeks

def Fault.IsStalled (f : Fault) : Prop := ∃ peeks offset, f = .stalled peeks offset

theorem Lexer.spare_isStalled {σ : Type} (s : Lexer σ) (n : Nat) : s.Spare Fault.IsStalled n :=
  .inl fun peeks offset => ⟨peeks, offset, rfl⟩

namespace Filter

open Rule

variable {E : FilterError → Lexer Unit → Prop} {s : Lexer Unit} {k n p : Nat}

theorem ends_spend (hs : s.Sound) (h : s.Spent k) :
    Ends Fault.IsStalled (peek 0) s (fun tok t => tok = s.ahead 0 ∧ s.Looks t ∧ t.Spent (k + 1) ∧
      k + 1 < Lexer.defaultLimit) E := by
  apply Ends.count hs (by decide)
  · exact fun _ offset => ⟨_, offset, rfl⟩
  · intro u hu hpeeks _ hlimit
    refine ⟨rfl, hu, ⟨hu.limit.trans h.1, ?_⟩, ?_⟩
    · rw [hpeeks]
      exact Nat.succ_le_succ h.2
    · have := h.1 ▸ hlimit
      have := h.2
      omega

theorem ends_eatUntil_end {stop : Token → Bool} (hs : s.Sound) (hp : s.pending = [])
    (h : s.Spent k) : Ends Fault.IsStalled (eatUntil stop) s (fun _ t => t.Sound ∧ t.pending = [] ∧
      t.Spent (k + 1)) E := by
  apply Ends.loop (fun _ t => t.Sound ∧ t.pending = [] ∧ t.Spent k) hs ⟨hs, hp, h⟩
  rintro - t ⟨ht, hpt, hkt⟩
  apply Ends.seq (ends_spend ht hkt)
  rintro tok u ⟨rfl, hu, hku, -⟩
  rw [Lexer.ahead_zero_of_nil hpt]
  exact Ends.pure ⟨hu.sound, hu.pending.trans hpt, hku⟩

theorem ends_chain_end {expression : Nat → Query Unit Filter} {f : Filter} (hs : s.Sound)
    (hp : s.pending = []) (h : s.Spent k) :
    Ends Fault.IsStalled (loop (chainTurn expression p) f) s (fun _ t => t.Sound ∧ t.pending = [] ∧
      t.Spent (k + 2)) E := by
  apply Ends.loop (fun _ t => t.Sound ∧ t.pending = [] ∧ t.Spent k) hs ⟨hs, hp, h⟩
  rintro g t ⟨ht, hpt, hkt⟩
  apply Ends.seq (ends_eatUntil_end ht hpt hkt)
  rintro - u ⟨hu, hpu, hku⟩
  have hpeek : Ends Fault.IsStalled (peekTag 0) u (fun tag v => tag = .eof ∧ u.Looks v ∧
      v.Spent (k + 2)) E := by
    apply Ends.seq (ends_spend hu hku)
    rintro tok v ⟨rfl, hv, hkv, -⟩
    exact Ends.pure ⟨Lexer.ahead_zero_of_nil hpu, hv, hkv⟩
  apply Ends.seq hpeek
  rintro _ v ⟨rfl, hv, hkv⟩
  exact Ends.pure ⟨hv.sound, hv.pending.trans hpu, hkv⟩

structure Negated (bangs : List Token) (word : Token) : Prop where
  bang : ∀ t ∈ bangs, t.tag = .bang
  tag : word.tag = .word
  text : word.text = ['x']

variable {bangs : List Token} {word : Token}

theorem ends_primary_negated {expression : Nat → Query Unit Filter}
    {E : FilterError → Lexer Unit → Prop} (h : Negated bangs word) (hs : s.Sound)
    (hlimit : s.limit = Lexer.defaultLimit) (hp : s.pending = bangs ++ [word])
    (hread : ∀ {bang bangs'} {t : Lexer Unit}, bangs = bang :: bangs' → t.Sound →
      t.limit = Lexer.defaultLimit → t.pending = bangs' ++ [word] →
        Ends Fault.IsStalled (expression notPrecedence) t (fun _ u => u.Sound ∧ u.pending = [] ∧
          u.Spent (2 * bangs'.length + 2)) E) :
    Ends Fault.IsStalled (primary expression) s (fun _ t => t.Sound ∧ t.pending = [] ∧
      t.Spent (2 * bangs.length)) E := by
  cases bangs with
  | nil =>
    have hdone : word? (String.ofList word.text) = some .done := by
      rw [h.text]
      rfl
    have hp' : s.pending = [word] ++ [] := hp
    apply (ends_predicate ⟨[word], .done, .word ⟨word, h.tag⟩ hdone⟩ hs (s.spare_isStalled 0)
      (by decide) hp' (by simp [Closes])).imp
    rintro _ t ⟨-, ht, -⟩
    have hpt : t.pending = [] := by
      have hcons := ht.pending
      rw [hp] at hcons
      simpa using hcons.symm
    exact ⟨ht.sound, hpt, ht.limit.trans hlimit, Nat.zero_le _⟩
  | cons bang bangs =>
    rw [List.cons_append] at hp
    apply Ends.bind
    apply Ends.peek (.refl hs) (by decide) (s.spare_isStalled 0) (by decide)
    intro t ht hkt _
    rw [Lexer.ahead_zero_of_cons hp, h.bang bang (by simp)]
    apply Ends.bind
    apply Ends.eat ht hkt (by decide) hp
    intro u hu hpu _
    apply Ends.seq (hread rfl hu.sound (hu.limit.trans hlimit) hpu)
    rintro _ v ⟨hv, hpv, hkv⟩
    exact Ends.pure ⟨hv, hpv, hkv⟩

theorem ends_negated {depth : Nat} (h : Negated bangs word) (hs : s.Sound)
    (hlimit : s.limit = Lexer.defaultLimit) (hp : s.pending = bangs ++ [word]) :
    Ends Fault.IsStalled (expression depth p) s (fun _ t => t.Sound ∧ t.pending = [] ∧
      t.Spent (2 * bangs.length + 2)) fun _ _ => depth ≤ bangs.length := by
  induction depth generalizing s p bangs with
  | zero =>
    apply Ends.bind
    apply Ends.peek (.refl hs) (by decide) (s.spare_isStalled 0) (by decide)
    intro u _ _ _
    exact Ends.reject (Nat.zero_le _)
  | succ depth ih =>
    have hspace : s.pending.takeWhile (fun u => u.tag.isInlineSpace) = [] := by
      rw [hp]
      cases bangs with
      | nil => simp [h.tag, Tag.isInlineSpace]
      | cons bang bangs => simp [h.bang bang (by simp), Tag.isInlineSpace]
    apply Ends.seq (Ends.passInlineSpace hs (s.spare_isStalled 0) (by decide))
    rintro - t ⟨ht, -, -⟩
    rw [hspace] at ht
    have hprimary : Ends Fault.IsStalled (primary (expression depth)) t (fun _ u => u.Sound ∧
        u.pending = [] ∧ u.Spent (2 * bangs.length)) fun _ _ => depth + 1 ≤ bangs.length := by
      apply ends_primary_negated h ht.sound (ht.limit.trans hlimit) (ht.pending.symm.trans hp)
      rintro bang bangs' u rfl hu hlimit hpu
      apply (ih ⟨fun t ht => h.bang t (by simp [ht]), h.tag, h.text⟩ hu hlimit hpu).mono
      · exact fun _ _ h => h
      · exact fun _ _ h => Nat.succ_le_succ h
    apply Ends.seq hprimary
    rintro f u ⟨hu, hpu, hku⟩
    exact ends_chain_end hu hpu hku

theorem exists_negated (n start : Nat) : ∃ bangs word, Negated bangs word ∧ bangs.length = n ∧
    Token.place start (Text.runs (List.replicate n '!' ++ ['x'])) = bangs ++ [word] := by
  induction n generalizing start with
  | zero => exact ⟨[], ⟨.word, start, ['x']⟩, ⟨by simp, rfl, rfl⟩, rfl, rfl⟩
  | succ n ih =>
    obtain ⟨bangs, word, h, hlength, htokens⟩ := ih (start + Text.byteSize ['!'])
    refine ⟨⟨.bang, start, ['!']⟩ :: bangs, word, ⟨?_, h.tag, h.text⟩, by simp [hlength], ?_⟩
    · intro t ht
      rcases List.mem_cons.1 ht with rfl | ht
      · rfl
      · exact h.bang t ht
    · rw [List.replicate_succ, List.cons_append, Text.runs_cons (c := '!') rfl, Token.place, htokens]
      rfl

theorem exists_parse_stalled {n : Nat} (h : 48 ≤ n) (hn : n < maxDepth) : ∃ peeks offset,
    parse (String.ofList (List.replicate n '!' ++ ['x'])) =
      .error (.fault (.stalled peeks offset)) := by
  obtain ⟨bangs, word, hneg, rfl, htokens⟩ := exists_negated n 0
  generalize htext : String.ofList (List.replicate bangs.length '!' ++ ['x']) = text
  have hp : (lexer text).pending = bangs ++ [word] := by
    rw [pending_lexer, ← htext, String.toList_ofList, tokenize, htokens]
  have hends : Ends Fault.IsStalled query (lexer text) (fun _ _ => False)
      fun _ _ => maxDepth ≤ bangs.length := by
    apply Ends.seq (ends_negated hneg (sound_lexer text) rfl hp)
    rintro f t ⟨ht, hpt, hkt⟩
    apply Ends.seq (ends_eatUntil_end ht hpt hkt)
    rintro - u ⟨hu, hpu, hku⟩
    apply Ends.seq (ends_spend hu hku)
    rintro tok v ⟨-, -, -, hlt⟩
    simp only [Lexer.defaultLimit] at hlt
    omega
  unfold Ends at hends
  unfold parse
  split at hends
  · exact hends.elim
  · exact absurd hends (Nat.not_le.2 hn)
  · next f t hr =>
    obtain ⟨peeks, offset, rfl⟩ := hends
    exact ⟨peeks, offset, by rw [hr]⟩

/-- So the reader gives up on a query that the grammar derives. -/
theorem parse_stalled_negations : ∃ peeks offset,
    parse (String.ofList (List.replicate 48 '!' ++ ['x'])) =
      .error (.fault (.stalled peeks offset)) := exists_parse_stalled (by decide) (by decide)

end Filter

end TaskMarkup
