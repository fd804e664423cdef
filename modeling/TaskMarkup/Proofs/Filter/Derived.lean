import TaskMarkup.Proofs.Filter.Predicate

namespace TaskMarkup.Filter

open Rule

/-- How many `!` may stand directly in a row so that the looks do not run out, whatever is around
them. -/
def maxBangs : Nat := 44

def Stops (precedence : Nat) (rest : List Token) : Prop :=
  ∀ t ∈ (rest.dropWhile fun t => t.tag.isInlineSpace).head?, ∀ op : Operator, t.tag = op.tag →
    op.precedence ≤ precedence

theorem Stops.mono {p q : Nat} {rest : List Token} (h : Stops p rest) (hpq : p ≤ q) :
    Stops q rest :=
  fun t ht op hop => Nat.le_trans (h t ht op hop) hpq

namespace Gap

variable {t : Token} {rest : List Token}

def none : Gap := ⟨[], by simp⟩

def leading (rest : List Token) : Gap :=
  ⟨rest.takeWhile fun t => t.tag.isInlineSpace, fun _ ht => by simpa using List.mem_takeWhile_imp ht⟩

def append (gap gap' : Gap) : Gap :=
  ⟨gap.val ++ gap'.val, fun t ht => (List.mem_append.1 ht).elim (gap.property t) (gap'.property t)⟩

theorem takeWhile_append (gap : Gap) (rest : List Token) :
    (gap.val ++ rest).takeWhile (fun t => t.tag.isInlineSpace) =
      gap.val ++ rest.takeWhile fun t => t.tag.isInlineSpace :=
  List.takeWhile_append_of_pos gap.property

theorem dropWhile_append (gap : Gap) (rest : List Token) :
    (gap.val ++ rest).dropWhile (fun t => t.tag.isInlineSpace) =
      rest.dropWhile fun t => t.tag.isInlineSpace :=
  List.dropWhile_append_of_pos gap.property

theorem leading_append_cons (gap : Gap) (h : t.tag.isInlineSpace = false) :
    leading (gap.val ++ t :: rest) = gap := by
  apply Subtype.ext
  show (gap.val ++ t :: rest).takeWhile (fun t => t.tag.isInlineSpace) = gap.val
  rw [takeWhile_append, List.takeWhile_cons_of_neg (by simp [h]), List.append_nil]

theorem dropWhile_append_cons (gap : Gap) (h : t.tag.isInlineSpace = false) :
    (gap.val ++ t :: rest).dropWhile (fun t => t.tag.isInlineSpace) = t :: rest := by
  rw [dropWhile_append, List.dropWhile_cons_of_neg (by simp [h])]

theorem closes_append (gap : Gap) (h : Closes rest) : Closes (gap.val ++ rest) := by
  obtain ⟨ts, hts⟩ := gap
  cases ts with
  | nil => exact h
  | cons g ts =>
    have hg := hts g (by simp)
    intro t ht
    obtain rfl : g = t := by simpa using ht
    refine ⟨?_, ?_, ?_⟩
    · intro h
      simp [h, Tag.isInlineSpace] at hg
    · intro h
      simp [h, Tag.isInlineSpace] at hg
    · intro h
      simp [h, Tag.isInlineSpace] at hg

end Gap

theorem closes_sign {op : Operator} (sign : Sign op.tag) (rest : List Token) :
    Closes (sign.val :: rest) := by
  intro t ht
  obtain rfl : sign.val = t := by simpa using ht
  rw [sign.property]
  cases op <;> decide

theorem stops_sign {op : Operator} (gap : Gap) (sign : Sign op.tag) (rest : List Token) :
    Stops op.precedence (gap.val ++ sign.val :: rest) := by
  intro t ht op' hop'
  rw [gap.dropWhile_append_cons (by rw [sign.property]; simp)] at ht
  obtain rfl : sign.val = t := by simpa using ht
  have htags := sign.property.symm.trans hop'
  cases op <;> cases op' <;> first | exact Nat.le_refl _ | simp [Operator.tag] at htags

variable {σ : Type} {F : Fault → Prop} {s t u : Lexer σ} {k n p : Nat} {ℓ : Layer} {ph : Phrase ℓ}
  {gap : Gap} {ts rest : List Token} {Q : Filter → Lexer σ → Prop}
  {E : FilterError → Lexer σ → Prop}

theorem stops_iff (h : u.pending = rest.dropWhile fun t => t.tag.isInlineSpace) :
    Stops p rest ↔ ∀ op, Operator.ofTag? (u.ahead 0).tag = some op → op.precedence ≤ p := by
  rw [Stops, ← h]
  cases hrest : u.pending with
  | nil => simp [Lexer.ahead_zero_of_nil hrest, Operator.ofTag?]
  | cons tok us => simp [Lexer.ahead_zero_of_cons hrest, ofTag?_eq_some_iff]

def Phrase.Excused (F : Fault → Prop) (ph : Phrase ℓ) : Prop :=
  maxBangs < ph.longestBangs → ∀ peeks offset, F (.stalled peeks offset)

theorem Phrase.excused_of_le (h : ph.longestBangs ≤ maxBangs) : ph.Excused F :=
  fun hlt => absurd h (Nat.not_le.2 hlt)

namespace Phrase.Excused

theorem mono {ℓ' : Layer} {part : Phrase ℓ'} (h : ph.Excused F)
    (hle : part.longestBangs ≤ ph.longestBangs) : part.Excused F :=
  fun hlt => h (Nat.lt_of_lt_of_le hlt hle)

theorem spare (h : ph.Excused F) (hk : s.Spare F (ph.looks + k)) :
    ∃ m ≤ 93, m ≤ ph.looks ∧ s.Spare F (m + k) := by
  have hlooks := ph.looks_le.1
  have hmax : maxBangs = 44 := rfl
  have hprec : 2 ≤ ℓ.precedence := by
    rcases ℓ with _ | _ | _ <;> decide
  simp only [notPrecedence] at hlooks
  rcases Nat.lt_or_ge maxBangs ph.longestBangs with hlt | hle
  · exact ⟨0, by decide, Nat.zero_le _, .inl (h hlt)⟩
  · exact ⟨ph.looks, by omega, Nat.le_refl _, hk⟩

end Phrase.Excused

/-- The phrase is next, with white space before it and nothing behind it that would go with it. -/
structure Offers (F : Fault → Prop) (s : Lexer σ) (gap : Gap) (ph : Phrase ℓ) (rest : List Token) :
    Prop where
  sound : s.Sound
  pending : s.pending = gap.val ++ (ph.tokens ++ rest)
  closes : Closes rest
  excused : ph.Excused F

variable [Observer σ]

theorem passed_leading {extra : Gap} (h : s.Passed (ts ++ extra.val) t) (hp : s.pending = ts ++ rest)
    (h' : t.Passed (t.pending.takeWhile fun u => u.tag.isInlineSpace) u) :
    s.Passed (ts ++ (Gap.leading rest).val) u ∧
      u.pending = rest.dropWhile fun u => u.tag.isInlineSpace := by
  have hrest : rest = extra.val ++ t.pending := by
    rw [h.pending, List.append_assoc] at hp
    exact (List.append_cancel_left hp).symm
  constructor
  · rw [Gap.leading, hrest]
    show s.Passed (ts ++ (extra.val ++ t.pending).takeWhile _) u
    rw [extra.takeWhile_append, ← List.append_assoc]
    exact h.trans h'
  · rw [hrest, extra.dropWhile_append]
    exact h'.pending_of_takeWhile

theorem Offers.pending_of_passed (h : Offers F s gap ph rest)
    (ht : s.Passed (gap.val ++ (ph.tokens ++ (Gap.leading rest).val)) t) :
    t.pending = rest.dropWhile fun t => t.tag.isInlineSpace := by
  have hcons := h.pending.symm.trans ht.pending
  simp only [List.append_assoc, List.append_cancel_left_eq] at hcons
  have hsplit : rest = (Gap.leading rest).val ++ rest.dropWhile fun t => t.tag.isInlineSpace :=
    List.takeWhile_append_dropWhile.symm
  exact List.append_cancel_left (hcons.symm.trans hsplit)

def ReadsDepth (σ : Type) [Observer σ] (F : Fault → Prop) (n : Nat) : Prop :=
  ∀ {ℓ : Layer} {ph : Phrase ℓ} {s : Lexer σ} {gap : Gap} {rest : List Token} {p k : Nat},
    Offers F s gap ph rest → (∀ op ∈ ph.operators, p < op.precedence) → Stops p rest →
    s.Spare F k → k < 95 →
    Ends F (expression n p) s (fun f t => ph.nesting < n ∧ f = ph.filter ∧
        s.Passed (gap.val ++ (ph.tokens ++ (Gap.leading rest).val)) t ∧ t.Spare F (ph.looks + 2))
      fun e _ => n ≤ ph.nesting ∧ ∃ offset, e = .tooDeep offset

theorem ends_operand {u : Phrase .operand} (hread : ReadsDepth σ F n)
    (h : Offers F s .none u rest) (hk : s.Spare F k) (hk' : k < 97) :
    Ends F (primary (expression n)) s (fun f t => u.nesting ≤ n ∧ f = u.filter ∧
        (∃ extra : Gap, s.Passed (u.tokens ++ extra.val) t) ∧ t.Spare F u.looks)
      fun e _ => n < u.nesting ∧ ∃ offset, e = .tooDeep offset := by
  have hs := h.sound
  have hp : s.pending = u.tokens ++ rest := h.pending
  cases u with
  | predicate a =>
    apply (ends_predicate a hs hk hk' hp h.closes).imp
    rintro f t ⟨rfl, ht, hkt⟩
    exact ⟨Nat.zero_le n, rfl, ⟨.none, by simpa [Phrase.tokens, Gap.none] using ht⟩, hkt⟩
  | not bang gap operand =>
    have hp : s.pending = bang.val :: (gap.val ++ (operand.tokens ++ rest)) := by
      simpa [Phrase.tokens] using hp
    apply Ends.bind
    apply Ends.peek (.refl hs) (by decide) hk (by omega)
    intro u hu hku _
    rw [Lexer.ahead_zero_of_cons hp, bang.property]
    apply Ends.bind
    apply Ends.eat hu hku (by omega) hp
    intro v hv hpv hkv
    have hoffers : Offers F v gap operand rest :=
      ⟨hv.sound, hpv, h.closes, h.excused.mono (Nat.le_max_right ..)⟩
    have hstops : Stops notPrecedence rest := fun t _ op _ => by cases op <;> decide
    apply Ends.seq ((hread hoffers (by simp [Phrase.operators_operand]) hstops hkv (by decide)).mono
      (fun _ _ h => h) fun e _ he => ⟨Nat.lt_succ_of_le he.1, he.2⟩)
    rintro f w ⟨hnest, rfl, hw, hkw⟩
    refine Ends.pure ⟨hnest, ?_, ⟨Gap.leading rest, ?_⟩, hkw⟩
    · rw [Phrase.filter_not]
    · simpa [Phrase.tokens] using hv.passed.trans hw
  | group opening before inner after closing =>
    have hp : s.pending = opening.val :: (before.val ++ (inner.tokens ++
        (after.val ++ closing.val :: rest))) := by
      simpa [Phrase.tokens] using hp
    apply Ends.bind
    apply Ends.peek (.refl hs) (by decide) hk (by omega)
    intro u hu hku _
    rw [Lexer.ahead_zero_of_cons hp, opening.property]
    apply Ends.bind
    apply Ends.eat hu hku (by omega) hp
    intro v hv hpv hkv
    have hspace : closing.val.tag.isInlineSpace = false := by
      rw [closing.property]
      rfl
    have hoffers : Offers F v before inner (after.val ++ closing.val :: rest) := by
      refine ⟨hv.sound, hpv, after.closes_append ?_, h.excused⟩
      intro t ht
      obtain rfl : closing.val = t := by simpa using ht
      rw [closing.property]
      decide
    have hstops : Stops 0 (after.val ++ closing.val :: rest) := by
      intro t ht op hop
      rw [after.dropWhile_append_cons hspace] at ht
      obtain rfl : closing.val = t := by simpa using ht
      cases op <;> simp [closing.property, Operator.tag] at hop
    have hops : ∀ op ∈ inner.operators, 0 < op.precedence := fun op _ => by cases op <;> decide
    apply Ends.seq ((hread hoffers hops hstops hkv (by decide)).mono
      (fun _ _ h => h) fun e _ he => ⟨Nat.lt_succ_of_le he.1, he.2⟩)
    rintro f w ⟨hnest, rfl, hw, hkw⟩
    rw [Gap.leading_append_cons after hspace] at hw
    have hpw : w.pending = closing.val :: rest := by
      have hcons := hw.pending
      rw [hpv] at hcons
      simpa using hcons.symm
    obtain ⟨m, hm, -, hkw⟩ := hoffers.excused.spare hkw
    apply Ends.seq (Ends.passInlineSpace hw.sound hkw (by omega))
    rintro - x ⟨hx, hkx, -⟩
    rw [hpw, List.takeWhile_cons_of_neg (by simp [hspace])] at hx
    have hpx : x.pending = closing.val :: rest := by
      rw [← hpw]
      exact hx.pending.symm
    apply Ends.seq (Ends.eatIf_of_tag hx.sound hkx (by omega) hpx closing.property)
    rintro _ y ⟨rfl, hy, -, hky⟩
    refine Ends.pure ⟨hnest, ?_, ⟨.none, ?_⟩, hky⟩
    · rw [Phrase.filter_group]
    · simpa [Phrase.tokens, Gap.none] using ((hv.passed.trans hw).trans hx).eats hy

theorem ends_chain (hread : ReadsDepth σ F n) (h : Offers F s .none ph rest)
    (hops : ∀ op ∈ ph.operators, p < op.precedence)
    (hstop : ∀ op ∈ ph.operators, Stops op.precedence rest) (hk : s.Spare F k) (hk' : k < 97)
    (hdeep : n < ph.nesting → ∀ offset u, E (.tooDeep offset) u)
    (hnext : ∀ t fuel, ∀ extra : Gap, ph.nesting ≤ n → s.Passed (ph.tokens ++ extra.val) t →
      t.Spare F ph.looks → t.pending.length < fuel →
        Ends F (turns (chainTurn (expression n) p) fuel ph.filter) t Q E) :
    Ends F (do loop (chainTurn (expression n) p) (← primary (expression n))) s Q E := by
  induction ph generalizing rest Q E with
  | predicate | not | group =>
    apply Ends.seq ((ends_operand hread h hk hk').mono (fun _ _ h => h) ?_)
    · rintro _ t ⟨hnest, rfl, ⟨extra, ht⟩, hkt⟩
      have := ht.sound.length_pending_le
      exact Ends.bind (Ends.get (hnext t _ extra hnest ht hkt (by omega)))
    · rintro _ u ⟨hnest, offset, rfl⟩
      exact hdeep hnest offset u
  | first _ part ih => exact ih ⟨h.sound, h.pending, h.closes, h.excused⟩ hops hstop hdeep hnext
  | more op left before sign after right ihl _ =>
    have hsign : sign.val.tag.isInlineSpace = false := by
      rw [sign.property]
      simp
    have hp : s.pending = left.tokens ++ (before.val ++ sign.val :: (after.val ++
        (right.tokens ++ rest))) := by
      have := h.pending
      simpa [Phrase.tokens, Gap.none] using this
    have hleft : Offers F s .none left (before.val ++ sign.val :: (after.val ++
        (right.tokens ++ rest))) :=
      ⟨h.sound, hp, before.closes_append (closes_sign sign _), h.excused.mono (Nat.le_max_left ..)⟩
    apply ihl hleft
    · exact fun op' hop' => hops op' (List.mem_append_left _ hop')
    · exact fun op' hop' => (stops_sign before sign _).mono (left.precedence_le hop')
    · intro hnest offset u
      exact hdeep (Nat.lt_of_lt_of_le hnest (Nat.le_max_left ..)) offset u
    intro t fuel extra hnest ht hkt hfuel
    obtain ⟨fuel, rfl⟩ : ∃ m, fuel = m + 1 := ⟨fuel - 1, by omega⟩
    obtain ⟨m, hm, -, hkt⟩ := hleft.excused.spare (k := 0) hkt
    -- One more turn, which takes the operator and its right operand.
    apply Ends.bind
    apply Ends.seq (Ends.passInlineSpace ht.sound hkt (by omega))
    rintro - u ⟨hu, hku, -⟩
    have hlength := hu.length_le
    obtain ⟨hu, hpu⟩ := passed_leading ht hp hu
    rw [Gap.leading_append_cons before hsign] at hu
    rw [Gap.dropWhile_append_cons before hsign] at hpu
    apply Ends.bind
    apply Ends.peekTag (.refl hu.sound) (by decide) hku (by omega)
    intro v hv hkv _
    rw [Lexer.ahead_zero_of_cons hpu, ofTag?_eq_some_iff.2 sign.property]
    dsimp only
    rw [if_neg (Nat.not_le.2 (hops op (by simp [Phrase.operators])))]
    apply Ends.bind
    apply Ends.eat hv hkv (by omega) hpu
    intro w hw hpw hkw
    have hright : Offers F w after right rest :=
      ⟨hw.sound, hpw, h.closes, h.excused.mono (Nat.le_max_right ..)⟩
    have hrops : ∀ op' ∈ right.operators, op.precedence < op'.precedence := fun op' hop' =>
      Nat.lt_of_lt_of_le (precedence_lt_joinedBy op) (right.precedence_le hop')
    have hrstop : Stops op.precedence rest := hstop op (by simp [Phrase.operators])
    apply Ends.seq ((hread hright hrops hrstop hkw (by decide)).mono (fun _ _ h => h) ?_)
    · rintro _ x ⟨hrnest, rfl, hx, hkx⟩
      apply Ends.pure
      dsimp only
      rw [← Phrase.filter_more op left before sign after right]
      apply hnext x fuel (Gap.leading rest) (Nat.max_le.2 ⟨hnest, hrnest⟩) ?_ hkx
      · have hlast := hx.length_le
        rw [hpu, List.length_cons, ← hpw] at hlength
        omega
      · simpa [Phrase.tokens] using (hu.eats hw).trans hx
    · rintro _ x ⟨hrnest, offset, rfl⟩
      exact hdeep (Nat.lt_of_lt_of_le (Nat.lt_succ_of_le hrnest) (Nat.le_max_right ..)) offset x

theorem readsDepth (F : Fault → Prop) (n : Nat) : ReadsDepth σ F n := by
  induction n with
  | zero =>
    intro ℓ ph s gap rest p k h _ _ hk hk'
    apply Ends.bind
    apply Ends.peek (.refl h.sound) (by decide) hk (by omega)
    intro u _ _ _
    exact Ends.reject ⟨Nat.zero_le _, _, rfl⟩
  | succ n ih =>
    intro ℓ ph s gap rest p k h hops hstop hk hk'
    obtain ⟨tok, us, hhead, htok⟩ := ph.exists_head
    apply Ends.seq (Ends.passInlineSpace h.sound hk (by omega))
    rintro - t ⟨ht, hkt, -⟩
    have hp := h.pending
    rw [hhead, List.cons_append] at hp
    have hpt := ht.pending_of_takeWhile
    rw [hp, gap.dropWhile_append_cons htok] at hpt
    rw [hp, gap.takeWhile_append, List.takeWhile_cons_of_neg (by simp [htok]), List.append_nil]
      at ht
    have hoffers : Offers F t .none ph rest :=
      ⟨ht.sound, by rw [hpt, hhead]; rfl, h.closes, h.excused⟩
    apply ends_chain ih hoffers hops (fun op hop => hstop.mono (Nat.le_of_lt (hops op hop))) hkt
      (by omega)
    · exact fun hnest offset _ => ⟨hnest, offset, rfl⟩
    intro u fuel extra hnest hu hku hfuel
    obtain ⟨fuel, rfl⟩ : ∃ m, fuel = m + 1 := ⟨fuel - 1, by omega⟩
    obtain ⟨m, hm, hmle, hku⟩ := h.excused.spare (k := 0) hku
    apply Ends.bind
    apply Ends.seq (Ends.passInlineSpace hu.sound hku (by omega))
    rintro - v ⟨hv, hkv, -⟩
    obtain ⟨hv, hpv⟩ := passed_leading hu hoffers.pending hv
    apply Ends.bind
    apply Ends.peekTag (.refl hv.sound) (by decide) hkv (by omega)
    intro w hw hkw _
    have hdone := (stops_iff hpv).1 hstop
    have hpassed := ht.trans (hv.looks hw)
    split
    · exact Ends.pure (Ends.pure ⟨Nat.lt_succ_of_le hnest, rfl, hpassed, hkw.mono (by omega)⟩)
    · next op hop =>
      rw [if_pos (hdone op hop)]
      exact Ends.pure (Ends.pure ⟨Nat.lt_succ_of_le hnest, rfl, hpassed, hkw.mono (by omega)⟩)

end TaskMarkup.Filter
