import TaskMarkup.Proofs.Filter.Derived
import Mathlib.Data.List.DropRight

namespace TaskMarkup.Filter

open Rule

/-- More than `maxBangs` times `!` directly in a row, with at most white space in between. -/
def Overnegated (ts : List Token) : Prop :=
  ∃ bangs, bangs <:+: ts ∧ (∀ t ∈ bangs, t.tag = .bang ∨ t.tag.isInlineSpace = true) ∧
    maxBangs < bangs.countP fun t => t.tag = .bang

theorem Overnegated.mono {ts us : List Token} (h : Overnegated us) (hu : us <:+: ts) :
    Overnegated ts := by
  obtain ⟨bangs, hb, hall, hcount⟩ := h
  exact ⟨bangs, hb.trans hu, hall, hcount⟩

theorem Literal.append {delimiter : Tag} {ts us : List Token} {text more : List Char}
    (h : Literal delimiter ts text) (h' : Literal delimiter us more) :
    Literal delimiter (ts ++ us) (text ++ more) := by
  induction h with
  | nil => exact h'
  | plain hline hdel hback _ ih =>
    rw [List.append_assoc]
    exact .plain hline hdel hback ih
  | escaped backslash hline _ ih =>
    rw [List.append_assoc]
    exact .escaped backslash hline ih

namespace Phrase

variable {ℓ : Layer}

theorem exists_leading_bangs (ph : Phrase ℓ) : ∃ bangs, bangs <+: ph.tokens ∧
    (∀ t ∈ bangs, t.tag = .bang ∨ t.tag.isInlineSpace = true) ∧
      bangs.countP (fun t => t.tag = .bang) = ph.bangs := by
  induction ph with
  | predicate | group | first | more => exact ⟨[], List.nil_prefix, by simp, rfl⟩
  | not bang gap operand ih =>
    obtain ⟨bangs, hb, hall, hcount⟩ := ih
    refine ⟨bang.val :: (gap.val ++ bangs), ?_, ?_, ?_⟩
    · exact List.cons_prefix_cons.2 ⟨rfl, (List.prefix_append_right_inj _).2 hb⟩
    · intro t ht
      rcases List.mem_cons.1 ht with rfl | ht
      · exact .inl bang.property
      · exact (List.mem_append.1 ht).elim (fun h => .inr (gap.property t h)) (hall t)
    · have hgap : gap.val.countP (fun t => t.tag = .bang) = 0 := by
        rw [List.countP_eq_zero]
        intro t ht hbang
        have := gap.property t ht
        simp [of_decide_eq_true hbang, Tag.isInlineSpace] at this
      rw [List.countP_cons_of_pos (by simpa using bang.property), List.countP_append, hgap, hcount,
        Nat.zero_add]
      rfl

theorem exists_longest_bangs (ph : Phrase ℓ) : ∃ bangs, bangs <:+: ph.tokens ∧
    (∀ t ∈ bangs, t.tag = .bang ∨ t.tag.isInlineSpace = true) ∧
      bangs.countP (fun t => t.tag = .bang) = ph.longestBangs := by
  induction ph with
  | predicate => exact ⟨[], List.nil_infix, by simp, rfl⟩
  | not bang gap operand ih =>
    rcases Nat.le_total (operand.bangs + 1) operand.longestBangs with h | h
    · obtain ⟨bangs, hb, hall, hcount⟩ := ih
      refine ⟨bangs, hb.trans ?_, hall, by rw [hcount, longestBangs, Nat.max_eq_right h]⟩
      exact (List.suffix_append (bang.val :: gap.val) _).isInfix
    · obtain ⟨bangs, hb, hall, hcount⟩ := (Phrase.not bang gap operand).exists_leading_bangs
      exact ⟨bangs, hb.isInfix, hall, by rw [hcount, longestBangs, Nat.max_eq_left h]; rfl⟩
  | group opening before inner after closing ih =>
    obtain ⟨bangs, hb, hall, hcount⟩ := ih
    refine ⟨bangs, hb.trans ?_, hall, hcount⟩
    exact ⟨opening.val :: before.val, after.val ++ [closing.val], by simp [tokens]⟩
  | first _ _ ih => exact ih
  | more op left before sign after right ihl ihr =>
    rcases Nat.le_total left.longestBangs right.longestBangs with h | h
    · obtain ⟨bangs, hb, hall, hcount⟩ := ihr
      refine ⟨bangs, hb.trans ?_, hall, by rw [hcount, longestBangs, Nat.max_eq_right h]⟩
      exact ⟨left.tokens ++ (before.val ++ sign.val :: after.val), [], by simp [tokens]⟩
    · obtain ⟨bangs, hb, hall, hcount⟩ := ihl
      refine ⟨bangs, hb.trans ?_, hall, by rw [hcount, longestBangs, Nat.max_eq_left h]⟩
      exact (List.prefix_append _ _).isInfix

def widen : {op : Operator} → Phrase (.joinedBy op) → Phrase (.chain .or)
  | .and, u => .first .or (.first .and u)
  | .or, c => .first .or c

theorem exists_first {op : Operator} (ph : Phrase (.chain op)) (h : op ∉ ph.operators) :
    ∃ part, ph = .first op part := by
  cases ph with
  | first _ part => exact ⟨part, rfl⟩
  | more => exact absurd (by simp [operators]) h

theorem exists_widen (op : Operator) (ph : Phrase (.chain .or))
    (h : ∀ op' ∈ ph.operators, op.precedence < op'.precedence) :
    ∃ part : Phrase (.joinedBy op), ph = part.widen := by
  have hor : Operator.or ∉ ph.operators := fun hmem =>
    absurd (h .or hmem) (by cases op <;> decide)
  obtain ⟨c, rfl⟩ := ph.exists_first hor
  cases op with
  | or => exact ⟨c, rfl⟩
  | and =>
    have hand : Operator.and ∉ c.operators := fun hmem => absurd (h .and hmem) (by decide)
    obtain ⟨u, rfl⟩ := exists_first (show Phrase (.chain .and) from c) hand
    exact ⟨u, rfl⟩

theorem exists_operand (ph : Phrase (.chain .or))
    (h : ∀ op ∈ ph.operators, notPrecedence < op.precedence) :
    ∃ u : Phrase .operand, ph = .first .or (.first .and u) :=
  ph.exists_widen .and fun op hop => Nat.lt_trans (by decide) (h op hop)

variable {op : Operator} (part : Phrase (.joinedBy op))

@[simp] theorem tokens_widen : part.widen.tokens = part.tokens := by cases op <;> rfl

@[simp] theorem filter_widen : part.widen.filter = part.filter := by cases op <;> rfl

@[simp] theorem nesting_widen : part.widen.nesting = part.nesting := by cases op <;> rfl

@[simp] theorem looks_widen : part.widen.looks = part.looks := by cases op <;> rfl

def Extends (ph : Phrase (.chain .or)) (op : Operator) : Prop :=
  op = .or ∨ ∃ c, ph = .first .or c

theorem exists_join {ph : Phrase (.chain .or)} (h : ph.Extends op) (before : Gap)
    (sign : Sign op.tag) (after : Gap) : ∃ joined : Phrase (.chain .or),
      joined.tokens = ph.tokens ++ (before.val ++ sign.val :: (after.val ++ part.tokens)) ∧
      joined.filter = .binary { ph.filter.span with stop := part.filter.span.stop } op ph.filter
        part.filter ∧
      joined.nesting = max ph.nesting (part.nesting + 1) ∧ joined.looks = part.looks + 2 ∧
      joined.operators = ph.operators ++ op :: part.operators ∧
      (op = .and → joined.Extends .and) := by
  cases op with
  | or =>
    exact ⟨.more .or ph before sign after part, rfl, filter_more .or ph before sign after part, rfl,
      rfl, rfl, by simp⟩
  | and =>
    obtain ⟨c, rfl⟩ := h.resolve_left (by decide)
    exact ⟨.first .or (.more .and c before sign after part), rfl,
      filter_more .and c before sign after part, rfl, rfl, rfl, fun _ => .inr ⟨_, rfl⟩⟩

end Phrase

variable {σ : Type} {F : Fault → Prop} {s t u : Lexer σ} {k n p : Nat} {ℓ : Layer} {ph : Phrase ℓ}
  {f : Filter} {ts rest : List Token} {E : FilterError → Lexer σ → Prop}

def Excuses (F : Fault → Prop) (ts : List Token) : Prop :=
  Overnegated ts → ∀ peeks offset, F (.stalled peeks offset)

theorem Excuses.mono (h : Excuses F ts) {us : List Token} (hu : us <:+: ts) : Excuses F us :=
  fun ho => h (ho.mono hu)

theorem Excuses.excused (h : Excuses F ts) (hu : ph.tokens <:+: ts) : ph.Excused F := by
  intro hlt
  obtain ⟨bangs, hb, hall, hcount⟩ := ph.exists_longest_bangs
  exact h ⟨bangs, hb.trans hu, hall, by rwa [hcount]⟩

variable [Observer σ]

structure Reads (F : Fault → Prop) (n k : Nat) (s : Lexer σ) (ph : Phrase ℓ) (f : Filter)
    (t : Lexer σ) : Prop where
  filter : f = ph.filter
  nesting : ph.nesting < n
  passed : ∃ before after : Gap, s.Passed (before.val ++ (ph.tokens ++ after.val)) t
  spare : t.Spare F (ph.looks + k)

namespace Reads

theorem tokens_infix (h : Reads F n k s ph f t) : ph.tokens <:+: s.pending := by
  obtain ⟨before, after, hp⟩ := h.passed
  exact ⟨before.val, after.val ++ t.pending, by rw [hp.pending]; simp⟩

theorem atom {p : Predicate} (h : Spells ts p) (hs : s.Passed ts t) (hk : t.Spare F 1) :
    Reads F (n + 1) 0 s (.predicate ⟨ts, p, h⟩) (.predicate (spanOf ts) p) t :=
  ⟨rfl, Nat.succ_pos n, ⟨Gap.none, Gap.none, by simpa [Phrase.tokens, Gap.none] using hs⟩, hk⟩

theorem sound (h : Reads F n k s ph f t) : t.Sound := by
  obtain ⟨_, _, hp⟩ := h.passed
  exact hp.sound

theorem not {operand : Phrase .operand} (bang : Sign .bang) (hs : s.Eats bang.val u)
    (h : Reads F n 2 u (.first .or (.first .and operand)) f t) :
    ∃ gap, Reads F (n + 1) 0 s (.not bang gap operand)
      (.not (spanning bang.val.start f.span.stop) f) t := by
  obtain ⟨before, after, hp⟩ := h.passed
  have hf : f = operand.filter := h.filter
  have hp : u.Passed (before.val ++ (operand.tokens ++ after.val)) t := hp
  refine ⟨before, ?_, Nat.succ_lt_succ h.nesting, ⟨.none, after, ?_⟩, h.spare⟩
  · rw [hf, Phrase.filter_not]
  · simpa [Phrase.tokens, Gap.none] using hs.passed.trans hp

theorem group {inner : Phrase (.chain .or)} {v w : Lexer σ} (opening : Sign .leftParen)
    (closing : Sign .rightParen) (hs : s.Eats opening.val u) (h : Reads F n 2 u inner f t)
    (hv : t.Passed (t.pending.takeWhile fun u => u.tag.isInlineSpace) v)
    (hw : v.Eats closing.val w) (hk : w.Spare F 0) :
    ∃ before after, Reads F (n + 1) 0 s (.group opening before inner after closing)
      (f.withSpan { f.span with start := opening.val.start, stop := closing.val.stop }) w := by
  obtain ⟨before, after, hp⟩ := h.passed
  refine ⟨before, after.append (.leading t.pending), ?_, Nat.succ_lt_succ h.nesting,
    ⟨.none, .none, ?_⟩, hk⟩
  · rw [h.filter, Phrase.filter_group]
  · have := ((hs.passed.trans hp).trans hv).eats hw
    simpa [Phrase.tokens, Gap.none, Gap.append, Gap.leading] using this

end Reads

theorem accepts_delimitedText {opening : Token} {delimiter : Char} (hs : s.Sound)
    (hk : s.Spare F k) (hk' : k < 98) (hp : s.pending = opening :: rest) :
    Ends F (delimitedText opening delimiter) s (fun r t => ∃ ts text, ∃ closing : Token,
      r = (String.ofList text, closing.stop) ∧ closing.tag = opening.tag ∧
        Literal opening.tag ts text ∧ s.Passed (opening :: (ts ++ [closing])) t ∧ t.Spare F 0)
      fun _ _ => True := by
  apply Ends.bind
  apply Ends.eat (.refl hs) hk hk' hp
  intro u hu hpu hku
  apply Ends.loop (fun text t => ∃ ts, Literal opening.tag ts text ∧ s.Passed (opening :: ts) t ∧
    t.Spare F 0) hu.sound ⟨[], .nil, hu.passed, hku⟩
  rintro text t ⟨ts, hliteral, ht, hkt⟩
  apply Ends.bind
  apply Ends.peek (.refl ht.sound) (by decide) hkt (by decide)
  intro v hv hkv _
  dsimp only
  split
  · exact Ends.bind (Ends.reject trivial)
  · next hline =>
    have hline : (t.ahead 0).tag.endsLine = false := by simpa using hline
    have hpt := (ht.sound.tag_ahead_zero.resolve_left fun h => by simp [h.1, Tag.endsLine] at hline).2
    apply Ends.bind
    apply Ends.eat hv hkv (by decide) hpt
    intro w hw hpw hkw
    have hlength : w.pending.length < t.pending.length := by
      rw [hpt, hpw, List.length_cons]
      exact Nat.lt_succ_self _
    split
    · next hclosing =>
      exact Ends.pure ⟨ts, text, t.ahead 0, rfl, hclosing, hliteral, ht.eats hw, hkw⟩
    split
    · next hopening hbackslash =>
      apply Ends.bind
      apply Ends.peekTag (.refl hw.sound) (by decide) hkw (by decide)
      intro x hx hkx _
      split
      · exact Ends.bind (Ends.reject trivial)
      · next hline' =>
        have hline' : (w.ahead 0).tag.endsLine = false := by simpa using hline'
        have hpw' := (hw.sound.tag_ahead_zero.resolve_left fun h => by simp [h.1, Tag.endsLine] at hline').2
        apply Ends.bind
        apply Ends.eat hx hkx (by decide) hpw'
        intro y hy hpy hky
        refine Ends.pure ⟨⟨ts ++ [t.ahead 0, w.ahead 0], ?_, ?_, hky⟩, ?_⟩
        · simpa using hliteral.append (.escaped ⟨t.ahead 0, hbackslash⟩ hline' .nil)
        · simpa using (ht.eats hw).eats hy
        · rw [hpw', List.length_cons] at hlength
          rw [hpy]
          omega
    · next hopening hbackslash =>
      refine Ends.pure ⟨⟨ts ++ [t.ahead 0], ?_, ht.eats hw, hkw⟩, hlength⟩
      simpa using hliteral.append (.plain hline hopening hbackslash .nil)

theorem accepts_delimited {opening : Token} {delimiter : Char} {make : String → Predicate}
    (hu : s.Looks u) (hk : u.Spare F k) (hk' : k < 98) (hp : s.pending = opening :: rest)
    (hmake : ∀ {ts text} {closing : Token}, closing.tag = opening.tag →
      Literal opening.tag ts text →
        Spells (opening :: (ts ++ [closing])) (make (String.ofList text))) :
    Ends F (do
      let (needle, stop) ← delimitedText opening delimiter
      return .predicate (spanning opening.start stop) (make needle) : Query σ Filter) u
      (fun f t => ∃ u : Phrase .operand, Reads F (n + 1) 0 s u f t) fun _ _ => True := by
  apply Ends.seq (accepts_delimitedText hu.sound hk hk' (hu.pending.trans hp))
  rintro _ t ⟨ts, text, closing, rfl, hclosing, hliteral, ht, hkt⟩
  have hreads := Reads.atom (n := n) (hmake hclosing hliteral) (hu.passed.trans ht) (hkt.mono (by decide))
  have hspan : spanning opening.start closing.stop = spanOf (opening :: (ts ++ [closing])) := by
    rw [← stop_spanOf_concat (opening :: ts) closing]
    rfl
  dsimp only
  rw [hspan]
  exact Ends.pure ⟨_, hreads⟩

theorem accepts_keyword {tok : Token} {p : Predicate} (hu : s.Looks u) (hk : u.Spare F k)
    (hk' : k < 98) (hp : s.pending = tok :: rest) (h : Spells [tok] p) :
    Ends F (keyword p) u (fun f t => ∃ u : Phrase .operand, Reads F (n + 1) 0 s u f t)
      fun _ _ => True := by
  apply (ends_keyword hu hk hk' hp).imp
  rintro _ t ⟨rfl, ht, hkt⟩
  exact ⟨_, .atom h ht hkt⟩

theorem accepts_tracker {tok : Token} (hu : s.Looks u) (hk : u.Spare F k) (hk' : k < 98)
    (hp : s.pending = tok :: rest) (htag : tok.tag = .word)
    (hword : String.ofList tok.text = "track") :
    Ends F (tracker tok) u (fun f t => ∃ u : Phrase .operand, Reads F (n + 1) 0 s u f t)
      fun _ _ => True := by
  apply Ends.bind
  apply Ends.eat hu hk hk' hp
  intro v hv hpv hkv
  apply Ends.seq (Ends.eatIf hv.sound (by decide) hkv (by decide))
  rintro r w (⟨rfl, -, hw, hkw, -⟩ | ⟨colon, rfl, hcolon, hw, hkw⟩)
  · exact Ends.pure ⟨_, .atom (.word ⟨_, htag⟩ (by rw [hword]; rfl)) (hv.passed.looks hw) hkw⟩
  · apply Ends.seq (Ends.eatIf hw.sound (by decide) hkw (by decide))
    rintro r x (⟨rfl, -, hx, hkx, -⟩ | ⟨number, rfl, hnumber, hx, hkx⟩)
    · exact Ends.reject trivial
    · refine Ends.pure ⟨_, .atom (.track ⟨_, htag⟩ ⟨_, hcolon⟩ ⟨_, hnumber⟩ hword) ?_
        (hkx.mono (by decide))⟩
      simpa using (hv.passed.eats hw).eats hx

def AcceptsDepth (σ : Type) [Observer σ] (F : Fault → Prop) (n : Nat) : Prop :=
  ∀ {s : Lexer σ} {p k : Nat}, s.Sound → Excuses F s.pending → s.Spare F k → k < 95 →
    Ends F (expression n p) s (fun f t => ∃ ph : Phrase (.chain .or), Reads F n 2 s ph f t ∧
      (∀ op ∈ ph.operators, p < op.precedence) ∧ Stops p t.pending) fun _ _ => True

theorem accepts_primary (hexpr : AcceptsDepth σ F n) (hs : s.Sound) (hF : Excuses F s.pending)
    (hk : s.Spare F k) (hk' : k < 97) :
    Ends F (primary (expression n)) s (fun f t => ∃ u : Phrase .operand, Reads F (n + 1) 0 s u f t)
      fun _ _ => True := by
  apply Ends.bind
  apply Ends.peek (.refl hs) (by decide) hk (by omega)
  intro u hu hku _
  have hku' : k + 1 < 98 := by omega
  have hcons : (s.ahead 0).tag ≠ .eof → s.pending = s.ahead 0 :: s.pending.tail := fun h =>
    (hs.tag_ahead_zero.resolve_left fun he => h he.1).2
  split
  · next htag =>
    apply Ends.bind
    apply Ends.eat hu hku hku' (hcons (by simp [htag]))
    intro v hv hpv hkv
    apply Ends.seq (hexpr hv.sound (hF.mono hv.passed.pending_infix) hkv (by decide))
    rintro f t ⟨ph, hread, hops, -⟩
    obtain ⟨operand, rfl⟩ := ph.exists_operand hops
    obtain ⟨gap, hnot⟩ := hread.not ⟨_, htag⟩ hv
    exact Ends.pure ⟨_, hnot⟩
  · next htag => exact accepts_keyword hu hku hku' (hcons (by simp [htag])) (.any ⟨_, htag⟩)
  · next htag =>
    apply Ends.bind
    apply Ends.eat hu hku hku' (hcons (by simp [htag]))
    intro v hv hpv hkv
    apply Ends.bind
    apply Ends.peek (.refl hv.sound) (by decide) hkv (by decide)
    intro w hw hkw _
    split
    · next hname =>
      simp only [Bool.and_eq_true, Bool.or_eq_true, decide_eq_true_eq] at hname
      have hpv := (hv.sound.tag_ahead_zero.resolve_left fun h => by simp [h.1] at hname).2
      apply Ends.bind
      apply Ends.eat hw hkw (by decide) hpv
      intro x hx _ hkx
      exact Ends.pure ⟨_, .atom (.tag ⟨_, htag⟩ hname.1 hname.2) (hv.passed.eats hx)
        (hkx.mono (by decide))⟩
    · exact Ends.pure ⟨_, .atom (.anyTag ⟨_, htag⟩) (hv.passed.looks hw) hkw⟩
  · next htag =>
    apply Ends.bind
    apply Ends.eat hu hku hku' (hcons (by simp [htag]))
    intro v hv hpv hkv
    apply Ends.seq (Ends.eatIf hv.sound (by decide) hkv (by decide))
    rintro r w (⟨rfl, -, hw, hkw, -⟩ | ⟨number, rfl, hnumber, hw, hkw⟩)
    · exact Ends.pure ⟨_, .atom (.anyPriority ⟨_, htag⟩) (hv.passed.looks hw) hkw⟩
    · exact Ends.pure ⟨_, .atom (.priority ⟨_, htag⟩ ⟨_, hnumber⟩) (hv.passed.eats hw)
        (hkw.mono (by decide))⟩
  · next htag =>
    apply accepts_delimited hu hku hku' (hcons (by simp [htag]))
    intro ts text closing hclosing hliteral
    rw [htag] at hclosing hliteral
    exact .literal ⟨_, htag⟩ ⟨_, hclosing⟩ hliteral
  · next htag =>
    apply accepts_delimited hu hku hku' (hcons (by simp [htag]))
    intro ts text closing hclosing hliteral
    rw [htag] at hclosing hliteral
    exact .fuzzy ⟨_, htag⟩ ⟨_, hclosing⟩ hliteral
  · next htag =>
    apply Ends.bind
    apply Ends.eat hu hku hku' (hcons (by simp [htag]))
    intro v hv hpv hkv
    have hFv := hF.mono hv.passed.pending_infix
    apply Ends.seq (hexpr hv.sound hFv hkv (by decide))
    rintro f w ⟨inner, hread, -, -⟩
    obtain ⟨m, hm, -, hkw⟩ := (hFv.excused hread.tokens_infix).spare hread.spare
    apply Ends.seq (Ends.passInlineSpace hread.sound hkw (by omega))
    rintro - x ⟨hx, hkx, -⟩
    apply Ends.seq (Ends.eatIf hx.sound (by decide) hkx (by omega))
    rintro _ y (⟨rfl, -⟩ | ⟨closing, rfl, hclosing, hy, hky⟩)
    · exact Ends.reject trivial
    · obtain ⟨before, after, hgroup⟩ := hread.group ⟨_, htag⟩ ⟨_, hclosing⟩ hv hx hy hky
      exact Ends.pure ⟨_, hgroup⟩
  · next htag =>
    have hp := hcons (by simp [htag])
    split
    · next hword => exact accepts_keyword hu hku hku' hp (.word ⟨_, htag⟩ (by rw [hword]; rfl))
    · next hword => exact accepts_keyword hu hku hku' hp (.word ⟨_, htag⟩ (by rw [hword]; rfl))
    · next hword => exact accepts_keyword hu hku hku' hp (.word ⟨_, htag⟩ (by rw [hword]; rfl))
    · next hword => exact accepts_keyword hu hku hku' hp (.word ⟨_, htag⟩ (by rw [hword]; rfl))
    · next hword => exact accepts_keyword hu hku hku' hp (.word ⟨_, htag⟩ (by rw [hword]; rfl))
    · next hword => exact accepts_tracker hu hku hku' hp htag hword
    · exact Ends.reject trivial
  · exact Ends.reject trivial

theorem Reads.initial {operand : Phrase .operand} {gap : Gap} (hs : s.Passed gap.val u)
    (h : Reads F (n + 1) 0 u operand f t) :
    Reads F (n + 1) 0 s (.first .or (.first .and operand)) f t := by
  obtain ⟨before, after, hp⟩ := h.passed
  refine ⟨h.filter, h.nesting, ⟨gap.append before, after, ?_⟩, h.spare⟩
  show s.Passed ((gap.append before).val ++ (operand.tokens ++ after.val)) t
  simpa [Gap.append] using hs.trans hp

def Reads.Ended (F : Fault → Prop) (n p : Nat) (s : Lexer σ) (f : Filter) (t : Lexer σ) : Prop :=
  ∃ ph : Phrase (.chain .or), Reads F (n + 1) 2 s ph f t ∧
    (∀ op ∈ ph.operators, p < op.precedence) ∧ Stops p t.pending

def Reads.Open (F : Fault → Prop) (n p : Nat) (s : Lexer σ) (f : Filter) (t : Lexer σ) : Prop :=
  ∃ ph : Phrase (.chain .or), Reads F (n + 1) 0 s ph f t ∧
    (∀ op ∈ ph.operators, p < op.precedence) ∧
      (ph.Extends .and ∨ Stops Operator.or.precedence t.pending)

theorem accepts_chainTurn (hexpr : AcceptsDepth σ F n) (hF : Excuses F s.pending)
    (h : Reads.Open F n p s f t) :
    Ends F (chainTurn (expression n) p f) t (fun turn u => turn.Gives
      (fun f => Reads.Ended F n p s f u)
      fun f => Reads.Open F n p s f u ∧ u.pending.length < t.pending.length) fun _ _ => True := by
  obtain ⟨ph, hread, hops, hopen⟩ := h
  obtain ⟨m, hm, hmle, hkt⟩ := (hF.excused hread.tokens_infix).spare hread.spare
  obtain ⟨before, after, hp⟩ := hread.passed
  apply Ends.seq (Ends.passInlineSpace hread.sound hkt (by omega))
  rintro - u ⟨hu, hku, -⟩
  have hpu := hu.pending_of_takeWhile
  apply Ends.bind
  apply Ends.peekTag (.refl hu.sound) (by decide) hku (by omega)
  intro v hv hkv _
  have hpassed : s.Passed (before.val ++ (ph.tokens ++ (after.append (.leading t.pending)).val)) v := by
    simpa [Gap.append, Gap.leading] using hp.trans (hu.looks hv)
  have hdone (hstop : ∀ op, Operator.ofTag? (u.ahead 0).tag = some op → op.precedence ≤ p) :
      Reads.Ended F n p s f v := by
    refine ⟨ph, ⟨hread.filter, hread.nesting, ⟨before, _, hpassed⟩, hkv.mono (by omega)⟩, hops, ?_⟩
    have hidem : v.pending = v.pending.dropWhile fun t => t.tag.isInlineSpace := by
      rw [hv.pending, hpu, List.dropWhile_idempotent]
    rw [stops_iff hidem, hv.ahead]
    exact hstop
  split
  · next hop => exact Ends.pure (hdone fun op h => by simp [hop] at h)
  · next op hop =>
    split
    · next hle =>
      refine Ends.pure (hdone fun op' h => ?_)
      obtain rfl : op = op' := Option.some.inj (hop.symm.trans h)
      exact hle
    · next hlt =>
      have hextends : ph.Extends op := by
        cases op with
        | or => exact .inl rfl
        | and =>
          refine hopen.resolve_right fun hstop => ?_
          exact absurd ((stops_iff hpu).1 hstop .and hop) (by decide)
      rw [ofTag?_eq_some_iff] at hop
      have hne : (u.ahead 0).tag ≠ .eof := by
        rw [hop]
        cases op <;> decide
      have hcons := (hu.sound.tag_ahead_zero.resolve_left fun h => hne h.1).2
      apply Ends.bind
      apply Ends.eat hv hkv (by omega) hcons
      intro w hw hpw hkw
      have hw := (hp.trans hu).eats hw
      apply Ends.seq (hexpr hw.sound (hF.mono hw.pending_infix) hkw (by decide))
      rintro g x ⟨right, hright, hrops, hrstop⟩
      obtain ⟨part, rfl⟩ := right.exists_widen op hrops
      obtain ⟨gap, trailing, hx⟩ := hright.passed
      obtain ⟨joined, htokens, hfilter, hnesting, hlooks, hoperators, hand⟩ :=
        part.exists_join hextends (after.append (.leading t.pending)) ⟨_, hop⟩ gap
      refine Ends.pure ⟨⟨joined, ⟨?_, ?_, ⟨before, trailing, ?_⟩, ?_⟩, ?_, ?_⟩, ?_⟩
      · rw [hfilter, hread.filter, hright.filter, Phrase.filter_widen]
      · have hleft := hread.nesting
        have hpart := hright.nesting
        rw [Phrase.nesting_widen] at hpart
        rw [hnesting]
        omega
      · rw [htokens]
        rw [Phrase.tokens_widen] at hx
        simpa [Gap.append, Gap.leading] using hw.trans hx
      · rw [hlooks, ← part.looks_widen]
        exact hright.spare
      · rw [hoperators]
        intro op' hop'
        rcases List.mem_append.1 hop' with hop' | hop'
        · exact hops op' hop'
        · rcases List.mem_cons.1 hop' with rfl | hop'
          · exact Nat.not_le.1 hlt
          · exact Nat.lt_trans (Nat.not_le.1 hlt)
              (Nat.lt_of_lt_of_le (precedence_lt_joinedBy op) (part.precedence_le hop'))
      · cases op with
        | or => exact .inr hrstop
        | and => exact .inl (hand rfl)
      · have hlast := hx.length_le
        have hfirst := hu.length_le
        rw [hcons, List.length_cons, ← hpw] at hfirst
        omega

theorem acceptsDepth (F : Fault → Prop) (n : Nat) : AcceptsDepth σ F n := by
  induction n with
  | zero =>
    intro s p k hs _ hk hk'
    apply Ends.bind
    apply Ends.peek (.refl hs) (by decide) hk (by omega)
    intro u _ _ _
    exact Ends.reject trivial
  | succ n ih =>
    intro s p k hs hF hk hk'
    apply Ends.seq (Ends.passInlineSpace hs hk (by omega))
    rintro - t ⟨ht, hkt, -⟩
    have ht : s.Passed (Gap.leading s.pending).val t := ht
    apply Ends.seq (accepts_primary ih ht.sound (hF.mono ht.pending_infix) hkt (by omega))
    rintro f u ⟨operand, hu⟩
    have hopen : Reads.Open F n p s f u :=
      ⟨_, hu.initial ht, fun op hop => by
        have : op ∈ operand.operators := hop
        simp [Phrase.operators_operand] at this, .inl (.inr ⟨_, rfl⟩)⟩
    exact Ends.loop (Reads.Open F n p s) hu.sound hopen fun f v hv => accepts_chainTurn ih hF hv

end TaskMarkup.Filter
