import TaskMarkup.Proofs.Task.Spelling

namespace TaskMarkup.Parse

open Rule

variable {F : Fault → Prop} {s t : Lexer Cursor} {k n : Nat} {ts done rest : List Token}
  {tok : Token} {more : Bool}

def Closes (more : Bool) (rest : List Token) : Prop :=
  ∃ t us, rest = t :: us ∧ t.tag.endsDirective = true ∧ (more = false → t.tag.isInlineSpace = false)

/-- A word of which only some tokens were eaten. Up to `n` looks are taken if that is none of them. -/
def GivenUp (F : Fault → Prop) (n : Nat) (ts : List Token) (s : Lexer Cursor) (_ : DirectiveError)
    (t : Lexer Cursor) : Prop :=
  ∃ done us, ts = done ++ us ∧ s.Passed done t ∧ t.Spare F (if done = [] then n else 7)

theorem GivenUp.here {e : DirectiveError} (h : s.Passed [] t) (hk : t.Spare F n) :
    GivenUp F n ts s e t :=
  ⟨[], ts, rfl, h, hk⟩

theorem GivenUp.seq {α β : Type} {rule : InDirective α} {next : α → InDirective β}
    {Q : α → Lexer Cursor → Prop} {R : β → Lexer Cursor → Prop} {us : List Token}
    (h : s.Passed done t) (hn : done = [] → 7 ≤ n) (hus : us = done ++ ts)
    (hrule : Ends F rule t Q (GivenUp F 7 ts t))
    (hnext : ∀ a u, Q a u → Ends F (next a) u R (GivenUp F n us s)) :
    Ends F (rule >>= next) t R (GivenUp F n us s) := by
  refine Ends.bind (hrule.mono hnext ?_)
  rintro e u ⟨done', us', rfl, hu, hku⟩
  rw [ite_self] at hku
  refine ⟨done ++ done', us', by rw [hus, List.append_assoc], h.trans hu, hku.mono ?_⟩
  split
  · next hnil => exact hn (List.append_eq_nil_iff.1 hnil).1
  · exact Nat.le_refl 7

def Reaches (F : Fault → Prop) (P : List Token → Prop) (ts rest : List Token) (s t : Lexer Cursor) :
    Prop :=
  ∃ done us, ts = done ++ us ∧ P done ∧ s.Passed done t ∧ t.pending = us ++ rest ∧ t.Spare F 0

theorem Closes.ahead_ne {tag : Tag} (hrest : Closes more rest) (hp : s.pending = rest)
    (htag : tag.endsDirective = false) : (s.ahead 0).tag ≠ tag := by
  obtain ⟨t, us, rfl, hends, -⟩ := hrest
  rw [Lexer.ahead_zero_of_cons hp]
  rintro rfl
  rw [hends] at htag
  contradiction

theorem ends_expect_of_word {directive : String} {tags : List Tag} (hs : s.Sound)
    (hk : s.Spare F k) (hk' : k < 7) (hp : s.pending = ts ++ rest) (hrest : Closes more rest)
    (htags : ∀ tag ∈ tags, tag.endsDirective = false) :
    Ends F (expect directive tags) s (fun tok t => ∃ us, ts = tok :: us ∧ tok.tag ∈ tags ∧
      s.Passed [tok] t ∧ t.pending = us ++ rest ∧ t.Spare F 0) (GivenUp F 7 ts s) := by
  refine Ends.bind (Ends.peek (.refl hs) (by decide) hk (by omega) fun t ht hkt _ => ?_)
  dsimp only
  split
  · next hmem =>
    cases ts with
    | nil => exact absurd rfl (hrest.ahead_ne hp (htags _ hmem))
    | cons tok us =>
      rw [List.cons_append] at hp
      rw [Lexer.ahead_zero_of_cons hp] at hmem
      exact Ends.eat ht hkt (by omega) hp fun u hu hpu hku =>
        ⟨us, rfl, hmem, hu.passed, hpu, hku⟩
  · exact Ends.bind (Ends.reject (.here ht.passed (hkt.mono (by omega))))

theorem ends_datePart_of_word {offset : Nat} {tag : Tag} (hs : s.Sound) (hk : s.Spare F k)
    (hk' : k < 7) (hp : s.pending = ts ++ rest) (hrest : Closes more rest)
    (htag : tag.endsDirective = false) :
    Ends F (datePart offset tag) s (fun tok t => ∃ us, ts = tok :: us ∧ tok.tag = tag ∧
      s.Passed [tok] t ∧ t.pending = us ++ rest ∧ t.Spare F 0) (GivenUp F 7 ts s) := by
  have heof : tag ≠ .eof := by
    rintro rfl
    contradiction
  refine Ends.seq (Ends.eatIf hs heof hk (by omega)) ?_
  rintro r t (⟨rfl, -, ht, hkt, -⟩ | ⟨tok, rfl, htok, ht, hkt⟩)
  · exact Ends.reject (.here ht.passed (hkt.mono (by omega)))
  · have hpending := ht.pending.symm.trans hp
    cases ts with
    | nil =>
      have hahead := hrest.ahead_ne hp htag
      rw [Lexer.ahead_zero_of_cons ht.pending] at hahead
      exact absurd htok hahead
    | cons tok' us =>
      obtain ⟨rfl, hpt⟩ := List.cons.inj hpending
      exact Ends.pure ⟨us, rfl, htok, ht.passed, hpt, hkt⟩

theorem ends_date_of_word (hs : s.Sound) (hk : s.Spare F k) (hk' : k < 6)
    (hp : s.pending = ts ++ rest) (hrest : Closes more rest) :
    Ends F date s (fun d t => Reaches F (d.Spells ·) ts rest s t) (GivenUp F 7 ts s) := by
  refine Ends.bind (Ends.peek (.refl hs) (by decide) hk (by omega) fun t ht hkt _ => ?_)
  have hst := ht.passed
  refine GivenUp.seq hst (fun _ => Nat.le_refl 7) rfl (ends_datePart_of_word ht.sound hkt (by omega) (ht.pending.trans hp) hrest
    rfl) ?_
  rintro year u ⟨ts, rfl, hyear, hu, hpu, hku⟩
  have hsu := hst.trans hu
  refine GivenUp.seq hsu (by simp) rfl (ends_datePart_of_word hu.sound hku (by decide) hpu hrest rfl) ?_
  rintro first v ⟨ts, rfl, hfirst, hv, hpv, hkv⟩
  have hsv := hsu.trans hv
  refine GivenUp.seq hsv (by simp) rfl (ends_datePart_of_word hv.sound hkv (by decide) hpv hrest rfl) ?_
  rintro month w ⟨ts, rfl, hmonth, hw, hpw, hkw⟩
  have hsw := hsv.trans hw
  refine GivenUp.seq hsw (by simp) rfl (ends_datePart_of_word hw.sound hkw (by decide) hpw hrest rfl) ?_
  rintro second x ⟨ts, rfl, hsecond, hx, hpx, hkx⟩
  have hsx := hsw.trans hx
  refine GivenUp.seq hsx (by simp) rfl (ends_datePart_of_word hx.sound hkx (by decide) hpx hrest rfl) ?_
  rintro day y ⟨ts, rfl, hday, hy, hpy, hky⟩
  have hsy := hsx.trans hy
  dsimp only
  split
  · exact Ends.reject ⟨_, ts, rfl, hsy, hky.mono (Nat.zero_le _)⟩
  · next d hd => exact Ends.pure ⟨_, ts, rfl, .mk hyear hfirst hmonth hsecond hday hd, hsy, hpy, hky⟩

theorem ends_image_of_word (hs : s.Sound) (hk : s.Spare F k) (hk' : k < 7) (hne : ts ≠ [])
    (hp : s.pending = ts ++ rest) (hwithin : ∀ t ∈ ts, t.tag.endsDirective = false) :
    Ends F image s (fun _ _ => False) (GivenUp F 7 ts s) := by
  obtain ⟨tok, us, rfl⟩ := List.exists_cons_of_ne_nil hne
  have hspace : tok.tag.isInlineSpace = false := by
    have := hwithin tok (by simp)
    simp only [Tag.endsDirective, Bool.or_eq_false_iff] at this
    exact this.1.1
  rw [List.cons_append] at hp
  refine Ends.bind (Ends.peek (.refl hs) (by decide) hk (by omega) fun t ht hkt _ => ?_)
  rw [Lexer.ahead_zero_of_cons hp]
  dsimp only
  rw [if_neg (by simp [hspace])]
  exact Ends.bind (Ends.reject (.here ht.passed (hkt.mono (by omega))))

theorem ends_directiveBody_of_word (hs : s.Sound) (hk : s.Spare F k) (hk' : k < 90) (hne : ts ≠ [])
    (hp : s.pending = ts ++ rest) (hrest : Closes more rest)
    (hwithin : ∀ t ∈ ts, t.tag.endsDirective = false)
    (himage : ts.map Token.text ≠ ["image".toList]) :
    Ends F directiveBody s (fun d t => Reaches F (Directive.Spells · d) ts rest s t)
      (GivenUp F (k + 1) ts s) := by
  obtain ⟨first, us, rfl⟩ := List.exists_cons_of_ne_nil hne
  rw [List.cons_append] at hp
  refine Ends.bind (Ends.peek (.refl hs) (by decide) hk (by omega) fun t ht hkt _ => ?_)
  rw [Lexer.ahead_zero_of_cons hp]
  dsimp only
  have hfirst {α : Type} {next : Token → InDirective α} {Q : α → Lexer Cursor → Prop}
      (hnext : ∀ u, s.Passed [first] u → u.pending = us ++ rest → u.Spare F 0 →
        Ends F (next first) u Q (GivenUp F (k + 1) (first :: us) s)) :
      Ends F (Rule.eat >>= next) t Q (GivenUp F (k + 1) (first :: us) s) :=
    Ends.bind (Ends.eat ht hkt (by omega) hp fun u hu hpu hku => hnext u hu.passed hpu hku)
  have hdone {d : Directive} (hd : Directive.Spells [first] d) :
      Ends F (Rule.eat >>= fun _ => Pure.pure d : InDirective Directive) t
        (fun d t => Reaches F (Directive.Spells · d) (first :: us) rest s t)
        (GivenUp F (k + 1) (first :: us) s) :=
    hfirst fun u hu hpu hku => Ends.pure ⟨[first], us, rfl, hd, hu, hpu, hku⟩
  have htext {word : String} (h : String.ofList first.text = word) : first.text = word.toList := by
    rw [← h, String.toList_ofList]
  have hexpect {directive : String} {tags : List Tag} {next : Token → InDirective Directive}
      {Q : Directive → Lexer Cursor → Prop} (htags : ∀ tag ∈ tags, tag.endsDirective = false)
      (hnext : ∀ tok us' u, us = tok :: us' → tok.tag ∈ tags → s.Passed [first, tok] u →
        u.pending = us' ++ rest → u.Spare F 0 →
          Ends F (next tok) u Q (GivenUp F (k + 1) (first :: us) s)) :
      Ends F (Rule.eat >>= fun _ => expect directive tags >>= next) t Q
        (GivenUp F (k + 1) (first :: us) s) := by
    refine hfirst fun u hu hpu hku => ?_
    refine GivenUp.seq hu (by simp) rfl (ends_expect_of_word hu.sound hku (by decide) hpu hrest htags) ?_
    rintro tok v ⟨us', hus, htag, hv, hpv, hkv⟩
    exact hnext tok us' v hus htag (hu.trans hv) hpv hkv
  have hdated {directive : String} {make : Date → Directive}
      (hmake : ∀ ts date colon, colon.tag = .colon → date.Spells ts →
        Directive.Spells (first :: colon :: ts) (make date)) :
      Ends F (do
        let _ ← Rule.eat
        let _ ← expect directive [.colon]
        return make (← date) : InDirective Directive) t
        (fun d t => Reaches F (Directive.Spells · d) (first :: us) rest s t)
        (GivenUp F (k + 1) (first :: us) s) := by
    refine hexpect (by decide) ?_
    rintro colon us v rfl htag hv hpv hkv
    refine GivenUp.seq hv (by simp) rfl (ends_date_of_word hv.sound hkv (by decide) hpv hrest) ?_
    rintro date w ⟨done, us, rfl, hdate, hw, hpw, hkw⟩
    exact Ends.pure ⟨first :: colon :: done, us, rfl,
      hmake done date colon (by simpa using htag) hdate, hv.trans hw, hpw, hkw⟩
  split
  · next htag =>
    refine hexpect (by decide) ?_
    rintro name us v rfl hname hv hpv hkv
    split
    · next hvalid =>
      exact Ends.pure ⟨[first, name], us, rfl, .tag htag (by simpa using hname) (by simp)
        (by simpa using hvalid), hv, hpv, hkv⟩
    · exact Ends.bind (Ends.reject ⟨[first, name], us, rfl, hv, hkv.mono (Nat.zero_le _)⟩)
  · next htag =>
    refine hexpect (by decide) ?_
    rintro number us v rfl hnumber hv hpv hkv
    have hnumber : number.tag = .number := by simpa using hnumber
    refine Ends.pure ⟨[first, number], us, rfl, .priority htag hnumber ?_, hv, hpv, hkv⟩
    simp [Token.value?, hnumber]
  · next htag =>
    split
    · next hword => exact hdone (.done htag (htext hword))
    · next hword => exact hdone (.hide htag (htext hword))
    · next hword => exact hdone (.pin htag (htext hword))
    · next hword => exact hdated fun ts date colon => .due htag (htext hword)
    · next hword => exact hdated fun ts date colon => .created htag (htext hword)
    · next hword =>
      refine hexpect (by decide) ?_
      rintro colon us v rfl hcolon hv hpv hkv
      refine GivenUp.seq hv (by simp) rfl (ends_expect_of_word hv.sound hkv (by decide) hpv hrest (by decide)) ?_
      rintro number w ⟨us, rfl, hnumber, hw, hpw, hkw⟩
      have hnumber : number.tag = .number := by simpa using hnumber
      refine Ends.pure ⟨[first, colon, number], us, rfl, .track htag (htext hword)
        (by simpa using hcolon) hnumber ?_, hv.trans hw, hpw, hkw⟩
      simp [Token.value?, hnumber]
    · next hword =>
      refine hfirst fun u hu hpu hku => ?_
      have hus : us ≠ [] := by
        rintro rfl
        exact himage (by simp [htext hword])
      refine GivenUp.seq hu (by simp) rfl (ends_image_of_word hu.sound hku (by decide) hus hpu
        fun t ht => hwithin t (by simp [ht])) fun _ _ h => h.elim
    · split
      · exact Ends.reject (.here ht.passed hkt)
      · next kind hkind =>
        refine hdone (.admonition kind htag ?_)
        have hkeyword := List.find?_some hkind
        rw [beq_iff_eq] at hkeyword
        exact htext hkeyword.symm
  · exact Ends.reject (.here ht.passed hkt)

theorem ends_directive_of_word (hs : s.Sound) (hk : s.Spare F k) (hk' : k < 90) (hne : ts ≠ [])
    (hp : s.pending = ts ++ rest) (hrest : Closes more rest)
    (hwithin : ∀ t ∈ ts, t.tag.endsDirective = false)
    (himage : ts.map Token.text ≠ ["image".toList]) :
    Ends F directive s (fun d _ => Directive.Spells ts d) (GivenUp F (k + 1) ts s) := by
  refine Ends.seq (ends_directiveBody_of_word hs hk hk' hne hp hrest hwithin himage) ?_
  rintro d t ⟨done, us, rfl, hd, ht, hpt, hkt⟩
  refine Ends.bind (Ends.peek (.refl ht.sound) (by decide) hkt (by decide) fun u hu hku _ => ?_)
  dsimp only
  split
  · next hends =>
    -- Behind a whole directive there is nothing left of the word.
    cases us with
    | nil =>
      rw [List.append_nil]
      exact Ends.pure hd
    | cons tok us =>
      rw [Lexer.ahead_zero_of_cons hpt, hwithin tok (by simp)] at hends
      contradiction
  · exact Ends.bind (Ends.reject ⟨done, us, rfl, ht.looks hu, hku.mono (by split <;> omega)⟩)

end TaskMarkup.Parse
