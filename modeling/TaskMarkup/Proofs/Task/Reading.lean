import TaskMarkup.Proofs.Task.Word

namespace TaskMarkup.Parse

open Rule

variable {F : Fault → Prop} {E : DirectiveError → Lexer Cursor → Prop} {s : Lexer Cursor} {k : Nat}
  {ts rest : List Token} {tok : Token} {more : Bool}

theorem ends_expect_of_mem {directive : String} {tags : List Tag} (hs : s.Sound) (hk : s.Spare F k)
    (hk' : k < 97) (hp : s.pending = tok :: rest) (htag : tok.tag ∈ tags) :
    Ends F (expect directive tags) s
      (fun r t => r = tok ∧ s.Eats tok t ∧ t.pending = rest ∧ t.Spare F 0) E := by
  refine Ends.bind (Ends.peek (.refl hs) (by decide) hk (by omega) fun t ht hkt _ => ?_)
  rw [Lexer.ahead_zero_of_cons hp]
  dsimp only
  rw [if_pos htag]
  exact Ends.eat ht hkt (by omega) hp fun u hu hpu hku => ⟨rfl, hu, hpu, hku⟩

theorem ends_datePart_of_tag {offset : Nat} {tag : Tag} (hs : s.Sound) (hk : s.Spare F k)
    (hk' : k < 97) (hp : s.pending = tok :: rest) (htag : tok.tag = tag) :
    Ends F (datePart offset tag) s
      (fun r t => r = tok ∧ s.Eats tok t ∧ t.pending = rest ∧ t.Spare F 0) E := by
  refine Ends.seq (Ends.eatIf_of_tag hs hk hk' hp htag) ?_
  rintro _ t ⟨rfl, ht, hpt, hkt⟩
  exact Ends.pure ⟨rfl, ht, hpt, hkt⟩

theorem ends_date_of_spells {date : Date} (h : date.Spells ts) (hs : s.Sound) (hk : s.Spare F k)
    (hk' : k < 96) (hp : s.pending = ts ++ rest) :
    Ends F Parse.date s (fun d t => d = date ∧ s.Passed ts t ∧ t.Spare F 0) E := by
  obtain ⟨hyear, hfirst, hmonth, hsecond, hday, hvalue⟩ := h
  simp only [List.cons_append, List.nil_append] at hp
  refine Ends.bind (Ends.peek (.refl hs) (by decide) hk (by omega) fun t ht hkt _ => ?_)
  have hpt := ht.pending.trans hp
  refine Ends.seq (ends_datePart_of_tag ht.sound hkt (by omega) hpt hyear) ?_
  rintro _ u ⟨rfl, hu, hpu, hku⟩
  refine Ends.seq (ends_datePart_of_tag hu.sound hku (by decide) hpu hfirst) ?_
  rintro _ v ⟨rfl, hv, hpv, hkv⟩
  refine Ends.seq (ends_datePart_of_tag hv.sound hkv (by decide) hpv hmonth) ?_
  rintro _ w ⟨rfl, hw, hpw, hkw⟩
  refine Ends.seq (ends_datePart_of_tag hw.sound hkw (by decide) hpw hsecond) ?_
  rintro _ x ⟨rfl, hx, hpx, hkx⟩
  refine Ends.seq (ends_datePart_of_tag hx.sound hkx (by decide) hpx hday) ?_
  rintro _ y ⟨rfl, hy, -, hky⟩
  dsimp only
  rw [hvalue]
  exact Ends.pure ⟨rfl, ((((ht.passed.eats hu).eats hv).eats hw).eats hx).eats hy, hky⟩

theorem ends_imagePath_of_path {path : List Char} (h : Image.Path ts path) (hs : s.Sound)
    (hk : s.Spare F k) (hk' : k < 96) (hp : s.pending = ts ++ rest) (hrest : Closes more rest) :
    Ends F imagePath s (fun r t => r = path ∧ s.Passed ts t ∧ t.Spare F (k + 1)) E := by
  -- What is left of the path goes with the text that is left to be read.
  refine Ends.loop (fun read t => ∃ done us left, Image.Path us left ∧ done ++ us = ts ∧
    read ++ left = path ∧ s.Passed done t ∧ t.pending = us ++ rest ∧ t.Spare F k) hs
    ⟨[], ts, path, h, rfl, rfl, .refl hs, hp, hk⟩ ?_
  rintro read t ⟨done, us, left, hleft, hts, hpath, ht, hpt, hkt⟩
  refine Ends.bind (Ends.peek (.refl ht.sound) (by decide) hkt (by omega) fun u hu hku _ => ?_)
  cases hleft with
  | nil =>
    obtain ⟨t', us', rfl, hends, -⟩ := hrest
    rw [List.nil_append] at hpt
    rw [Lexer.ahead_zero_of_cons hpt, if_pos hends]
    refine Ends.pure ⟨?_, ?_, hku⟩
    · rw [← hpath, List.append_nil]
    · rw [← hts, List.append_nil]
      exact ht.looks hu
  | @plain tok us left hends hback hleft =>
    rw [List.cons_append] at hpt
    rw [Lexer.ahead_zero_of_cons hpt, hends]
    refine Ends.bind (Ends.eat hu hku (by omega) hpt fun v hv hpv hkv => ?_)
    rw [if_neg hback]
    refine Ends.pure ⟨⟨done ++ [tok], us, left, hleft, ?_, ?_, ht.eats hv, hpv,
      hkv.mono (by omega)⟩, ?_⟩
    · rw [← hts, List.append_assoc, List.singleton_append]
    · rw [← hpath, List.append_assoc]
    · rw [hpt, hpv, List.length_cons]
      omega
  | @escaped back tok us left hback hend hleft =>
    have hends : back.tag.endsDirective = false := by rw [hback]; rfl
    rw [List.cons_append, List.cons_append] at hpt
    rw [Lexer.ahead_zero_of_cons hpt, hends]
    refine Ends.bind (Ends.eat hu hku (by omega) hpt fun v hv hpv hkv => ?_)
    rw [if_pos hback]
    refine Ends.bind (Ends.peekTag (.refl hv.sound) (by decide) hkv (by decide)
      fun w hw hkw _ => ?_)
    rw [Lexer.ahead_zero_of_cons hpv, hend]
    refine Ends.bind (Ends.eat hw hkw (by decide) hpv fun x hx hpx hkx => ?_)
    refine Ends.pure ⟨⟨done ++ [back, tok], us, left, hleft, ?_, ?_, ?_, hpx,
      hkx.mono (by omega)⟩, ?_⟩
    · rw [← hts, List.append_assoc]
      rfl
    · rw [← hpath, List.append_assoc]
    · simpa using (ht.eats hv).eats hx
    · rw [hpt, hpx, List.length_cons, List.length_cons]
      omega

theorem ahead_one_of_path {path : List Char} (h : Image.Path ts path) (hne : path ≠ [])
    (hs : s.Sound) (hp : s.pending = ts ++ rest) (hrest : Closes more rest)
    (hnumber : (s.ahead 0).tag = .number) (hbare : more = true → Text.isNumeral path = false) :
    (s.ahead 1).tag.isInlineSpace = false := by
  cases h with
  | nil => exact absurd rfl hne
  | @plain t us cs _ _ h =>
    rw [List.cons_append] at hp
    rw [Lexer.ahead_zero_of_cons hp] at hnumber
    have hahead : s.ahead 1 = (us ++ rest).getD 0 (Token.eof s.source.size) := by
      simp [Lexer.ahead, hp]
    rw [hahead]
    by_cases hcs : us = []
    · subst hcs
      cases h
      obtain ⟨u, us, rfl, -, hspace⟩ := hrest
      -- The path is a number, so nothing follows it.
      have hnumeral : Text.isNumeral t.text = true := by
        cases hs.spelled (t := t) (by simp [hp]) with
        | reserved hc _ => simp [Tag.ofChar?_eq_some_iff, hnumber, Tag.char?] at hc
        | spaces htag _ _ => simp [hnumber] at htag
        | plain _ _ _ hnum => exact hnum.1 hnumber
      cases more with
      | true => simp [hnumeral] at hbare
      | false => simpa using hspace rfl
    · obtain ⟨u, us, rfl, hspace⟩ := h.exists_head hcs
      simpa using hspace
  | @escaped back _ _ _ hback =>
    rw [List.cons_append, List.cons_append] at hp
    simp [Lexer.ahead_zero_of_cons hp, hback] at hnumber

theorem passed_gap {gap t : Token} {u : Lexer Cursor} (hp : s.pending = gap :: t :: rest)
    (hgap : gap.tag = .spaces) (ht : t.tag.isInlineSpace = false)
    (h : s.Passed (s.pending.takeWhile fun u => u.tag.isInlineSpace) u) :
    s.Passed [gap] u ∧ u.pending = t :: rest := by
  rw [hp, List.takeWhile_cons_of_pos (by simp [hgap, Tag.isInlineSpace]),
    List.takeWhile_cons_of_neg (by simp [ht])] at h
  refine ⟨h, ?_⟩
  have := h.pending
  rw [hp, List.singleton_append, List.cons.injEq] at this
  exact this.2.symm

theorem ends_image_of_spells {i : Image} (h : i.Spells ts)
    (hlegible : (Directive.image i).Legible more) (hs : s.Sound) (hk : s.Spare F k) (hk' : k < 90)
    (hp : s.pending = ts ++ rest) (hrest : Closes more rest) :
    Ends F Parse.image s (fun r t => r = i ∧ s.Passed ts t ∧ t.Spare F (k + 5)) E := by
  refine Ends.bind (Ends.peek (.refl hs) (by decide) hk (by omega) fun t ht hkt _ => ?_)
  -- With or without a width, the path is what follows.
  have hpath {path : String} {us done : List Token} {width : Option Nat} {offset : Nat}
      {u : Lexer Cursor} (hpath : Image.Path us path.toList) (hne : path.toList ≠ [])
      (hu : s.Passed done u) (hku : u.Spare F (k + 4)) (hpu : u.pending = us ++ rest) :
      Ends F (do
        let path ← imagePath
        if path.isEmpty then reject (.missingValue "image" offset)
        return { path := String.ofList path, width } : InDirective Image) u
        (fun r t => r = ⟨path, width⟩ ∧ s.Passed (done ++ us) t ∧ t.Spare F (k + 5)) E := by
    refine Ends.seq (ends_imagePath_of_path hpath hu.sound hku (by omega) hpu hrest) ?_
    rintro _ v ⟨rfl, hv, hkv⟩
    dsimp only
    rw [if_neg (by simpa using hne)]
    exact Ends.pure ⟨by rw [String.ofList_toList], hu.trans hv, hkv⟩
  cases h with
  | @bare gap us path hgap hus hne =>
    rw [List.cons_append] at hp
    obtain ⟨first, more', rfl, hfirst⟩ := hus.exists_head (hus.ne_nil hne)
    rw [Lexer.ahead_zero_of_cons hp]
    dsimp only
    rw [if_pos (by simp [hgap, Tag.isInlineSpace])]
    refine Ends.seq (Ends.passInlineSpace ht.sound hkt (by omega)) ?_
    rintro - u ⟨hu, hku, -⟩
    obtain ⟨hu, hpu⟩ := passed_gap (ht.pending.trans hp) hgap hfirst hu
    have hsu := ht.passed.trans hu
    refine Ends.bind (Ends.peek (.refl hu.sound) (by decide) hku (by omega) fun v hv hkv _ => ?_)
    split
    · next hnumber =>
      have hspace := ahead_one_of_path hus hne hu.sound hpu hrest hnumber
        fun hmore => (hlegible hmore).2 rfl
      refine Ends.bind (Ends.peekTag hv (by decide) hkv (by omega) fun w hw hkw _ => ?_)
      rw [hspace]
      exact hpath hus hne (hsu.looks hw) hkw (hw.pending.trans hpu)
    · exact hpath hus hne (hsu.looks hv) (hkv.mono (by omega)) (hv.pending.trans hpu)
  | @wide gap number behind us path width hgap hnumber hvalue hbehind hus hne =>
    rw [List.cons_append, List.cons_append, List.cons_append] at hp
    obtain ⟨first, more', rfl, hfirst⟩ := hus.exists_head (hus.ne_nil hne)
    rw [Lexer.ahead_zero_of_cons hp]
    dsimp only
    rw [if_pos (by simp [hgap, Tag.isInlineSpace])]
    refine Ends.seq (Ends.passInlineSpace ht.sound hkt (by omega)) ?_
    rintro - u ⟨hu, hku, -⟩
    obtain ⟨hu, hpu⟩ := passed_gap (ht.pending.trans hp) hgap
      (by simp [hnumber, Tag.isInlineSpace]) hu
    have hsu := ht.passed.trans hu
    refine Ends.bind (Ends.peek (.refl hu.sound) (by decide) hku (by omega) fun v hv hkv _ => ?_)
    rw [Lexer.ahead_zero_of_cons hpu]
    rw [if_pos hnumber]
    refine Ends.bind (Ends.peekTag hv (by decide) hkv (by omega) fun w hw hkw _ => ?_)
    have hahead : u.ahead 1 = behind := by simp [Lexer.ahead, hpu]
    rw [hahead, if_pos (by simp [hbehind, Tag.isInlineSpace])]
    refine Ends.bind (Ends.eat hw hkw (by omega) hpu fun x hx hpx hkx => ?_)
    refine Ends.seq (Ends.passInlineSpace hx.sound hkx (by decide)) ?_
    rintro - y ⟨hy, hky, -⟩
    obtain ⟨hy, hpy⟩ := passed_gap hpx hbehind hfirst hy
    rw [hvalue]
    refine (hpath hus hne ((hsu.eats hx).trans hy) (hky.mono (by omega)) hpy).imp ?_
    rintro r z ⟨hr, hz, hkz⟩
    exact ⟨hr, by simpa using hz, hkz⟩

theorem ends_directiveBody_of_spells {d : Directive} (h : d.Spells ts)
    (hlegible : ∀ i, d = .image i → d.Legible more) (hs : s.Sound) (hk : s.Spare F k) (hk' : k < 90) (hp : s.pending = ts ++ rest)
    (hrest : Closes more rest) :
    Ends F directiveBody s (fun r t => r = d ∧ s.Passed ts t ∧ t.Spare F 6) E := by
  obtain ⟨first, us, rfl, -⟩ := h.exists_head
  rw [List.cons_append] at hp
  refine Ends.bind (Ends.peek (.refl hs) (by decide) hk (by omega) fun t ht hkt _ => ?_)
  rw [Lexer.ahead_zero_of_cons hp]
  have hfirst {α : Type} {next : Token → InDirective α} {Q : α → Lexer Cursor → Prop}
      (hnext : ∀ u, s.Passed [first] u → u.pending = us ++ rest → u.Spare F 0 →
        Ends F (next first) u Q E) : Ends F (Rule.eat >>= next) t Q E :=
    Ends.bind (Ends.eat ht hkt (by omega) hp fun u hu hpu hku => hnext u hu.passed hpu hku)
  have hdone {α : Type} {a : α} {u : Lexer Cursor} (hu : s.Passed [first] u) (hku : u.Spare F 0) :
      Ends F (Pure.pure a : InDirective α) u (fun r t => r = a ∧ s.Passed [first] t ∧ t.Spare F 6) E :=
    Ends.pure ⟨rfl, hu, hku.mono (by decide)⟩
  cases h with
  | done htag htext | hide htag htext | pin htag htext =>
    rw [htag, htext]
    exact hfirst fun u hu _ hku => hdone hu hku
  | admonition kind htag htext =>
    rw [htag, htext]
    cases kind <;> exact hfirst fun u hu _ hku => hdone hu hku
  | tag hsign htag htext hname =>
    rw [hsign]
    refine hfirst fun u hu hpu hku => ?_
    refine Ends.seq (ends_expect_of_mem hu.sound hku (by decide) hpu (by simpa using htag)) ?_
    rintro _ v ⟨rfl, hv, -, hkv⟩
    dsimp only
    rw [htext, if_pos hname, String.ofList_toList]
    exact Ends.pure ⟨rfl, hu.eats hv, hkv.mono (by decide)⟩
  | priority hsign htag hvalue =>
    rw [hsign]
    refine hfirst fun u hu hpu hku => ?_
    refine Ends.seq (ends_expect_of_mem hu.sound hku (by decide) hpu (by simpa using htag)) ?_
    rintro _ v ⟨rfl, hv, -, hkv⟩
    rw [hvalue]
    exact Ends.pure ⟨rfl, hu.eats hv, hkv.mono (by decide)⟩
  | track htag htext hcolon hnumber hvalue =>
    rw [htag, htext]
    refine hfirst fun u hu hpu hku => ?_
    refine Ends.seq (ends_expect_of_mem hu.sound hku (by decide) hpu (by simpa using hcolon)) ?_
    rintro _ v ⟨rfl, hv, hpv, hkv⟩
    refine Ends.seq (ends_expect_of_mem hv.sound hkv (by decide) hpv (by simpa using hnumber)) ?_
    rintro _ w ⟨rfl, hw, -, hkw⟩
    rw [hvalue]
    exact Ends.pure ⟨rfl, (hu.eats hv).eats hw, hkw.mono (by decide)⟩
  | due htag htext hcolon hdate | created htag htext hcolon hdate =>
    rw [htag, htext]
    refine hfirst fun u hu hpu hku => ?_
    refine Ends.seq (ends_expect_of_mem hu.sound hku (by decide) hpu (by simpa using hcolon)) ?_
    rintro _ v ⟨rfl, hv, hpv, hkv⟩
    refine Ends.seq (ends_date_of_spells hdate hv.sound hkv (by decide) hpv) ?_
    rintro _ w ⟨rfl, hw, hkw⟩
    exact Ends.pure ⟨rfl, (hu.eats hv).trans hw, hkw.mono (by decide)⟩
  | image htag htext himage =>
    rw [htag, htext]
    refine hfirst fun u hu hpu hku => ?_
    refine Ends.seq (ends_image_of_spells himage (hlegible _ rfl) hu.sound hku (by decide) hpu hrest) ?_
    rintro _ v ⟨rfl, hv, hkv⟩
    exact Ends.pure ⟨rfl, hu.trans hv, hkv.mono (by decide)⟩

theorem ends_directive_of_spells {d : Directive} (h : d.Spells ts)
    (hlegible : ∀ i, d = .image i → d.Legible more) (hs : s.Sound) (hk : s.Spare F k) (hk' : k < 90) (hp : s.pending = ts ++ rest)
    (hrest : Closes more rest) :
    Ends F directive s (fun r t => r = d ∧ s.Passed ts t ∧ t.Spare F 7) E := by
  refine Ends.seq (ends_directiveBody_of_spells h hlegible hs hk hk' hp hrest) ?_
  rintro _ t ⟨rfl, ht, hkt⟩
  have hpt : t.pending = rest := List.append_cancel_left (ht.pending.symm.trans hp)
  obtain ⟨next, us, rfl, hends, -⟩ := hrest
  refine Ends.bind (Ends.peek (.refl ht.sound) (by decide) hkt (by decide) fun u hu hku _ => ?_)
  rw [Lexer.ahead_zero_of_cons hpt]
  dsimp only
  rw [if_pos hends]
  exact Ends.pure ⟨rfl, ht.looks hu, hku⟩

theorem ends_directive_of_garbles (h : Directive.Garbles ts) (hs : s.Sound) (hk : s.Spare F k)
    (hk' : k < 90) (hp : s.pending = ts ++ rest) (hrest : Closes more rest) :
    Ends F directive s (fun _ _ => False) (GivenUp F (k + 1) ts s) :=
  (ends_directive_of_word hs hk hk' h.ne_nil hp hrest h.within h.image).imp fun d _ =>
    h.unspelled d

theorem passed_gap_of_head {gap : List Token} {u : Lexer Cursor}
    (hp : s.pending = gap ++ (ts ++ rest)) (hgap : ∀ t ∈ gap, t.tag.isInlineSpace = true)
    (hts : ∃ t us, ts = t :: us ∧ t.tag.endsDirective = false ∧ t.tag ≠ .leftBracket)
    (h : s.Passed (s.pending.takeWhile fun u => u.tag.isInlineSpace) u) :
    s.Passed gap u ∧ u.pending = ts ++ rest ∧ (u.ahead 0).tag.endsDirective = false := by
  obtain ⟨first, us, rfl, hfirst, -⟩ := hts
  have hspace : first.tag.isInlineSpace = false := by
    simp only [Tag.endsDirective, Bool.or_eq_false_iff] at hfirst
    exact hfirst.1.1
  rw [hp, List.takeWhile_append_of_pos hgap, List.cons_append,
    List.takeWhile_cons_of_neg (by simp [hspace]), List.append_nil] at h
  have hpu : u.pending = first :: us ++ rest :=
    List.append_cancel_left (h.pending.symm.trans hp)
  refine ⟨h, hpu, ?_⟩
  rwa [Lexer.ahead_zero_of_cons hpu]

theorem ends_obey_of_spells {E' : Empty → Lexer Cursor → Prop} {d : Directive} {task : Task}
    (h : d.Spells ts) (hlegible : ∀ i, d = .image i → d.Legible more) (hs : s.Sound)
    (hk : s.Spare F k) (hk' : k < 90) (hp : s.pending = ts ++ rest) (hrest : Closes more rest) :
    Ends F (do
      match ← attempt directive with
      | .ok d => return .again (task.obey d)
      | .error e =>
        record (.skipped e)
        eatUntil (·.tag.endsDirective)
        return .again task : Parse (Turn Task Task)) s
      (fun turn t => turn = .again (task.obey d) ∧ s.Took ts t ∧ t.Spare F 8) E' := by
  refine Ends.bind (Ends.attempt
    ((ends_directive_of_spells h hlegible hs hk hk' hp hrest).imp ?_))
  rintro _ t ⟨rfl, ht, hkt⟩
  exact Ends.pure ⟨rfl, ht.took, hkt.mono (by decide)⟩

theorem ends_obey_of_garbles {E' : Empty → Lexer Cursor → Prop} {task : Task}
    (h : Directive.Garbles ts) (hs : s.Sound) (hk : s.Spare F k) (hk' : k < 90)
    (hp : s.pending = ts ++ rest) (hrest : Closes more rest) :
    Ends F (do
      match ← attempt directive with
      | .ok d => return .again (task.obey d)
      | .error e =>
        record (.skipped e)
        eatUntil (·.tag.endsDirective)
        return .again task : Parse (Turn Task Task)) s
      (fun turn t => turn = .again task ∧ s.Took ts t ∧ t.Spare F 8) E' := by
  refine Ends.bind (Ends.attempt
    ((ends_directive_of_garbles h hs hk hk' hp hrest).mono (fun _ _ h => h.elim) ?_))
  rintro e t ⟨given, dropped, rfl, ht, hkt⟩
  have hdropped : ∀ u ∈ dropped, u.tag.endsDirective = false := fun u hu =>
    h.within u (by simp [hu])
  have hpt : t.pending = dropped ++ rest := by
    rw [List.append_assoc] at hp
    exact List.append_cancel_left (ht.pending.symm.trans hp)
  have hrun : (dropped ++ rest).takeWhile (fun u => !u.tag.endsDirective) = dropped := by
    obtain ⟨first, us, rfl, hends, -⟩ := hrest
    rw [List.takeWhile_append_of_pos (by simpa using hdropped),
      List.takeWhile_cons_of_neg (by simp [hends]), List.append_nil]
  refine Ends.bind (Ends.record ?_)
  refine Ends.seq (Ends.passUntil ht.sound.onCursor hkt.onCursor (by split <;> omega)) ?_
  rintro - u ⟨hu, hku, -⟩
  rw [Lexer.pending_onCursor, hpt, hrun] at hu hku
  refine Ends.pure ⟨rfl, by simpa using (ht.took.trans (ht.sound.noting _)).trans hu.took,
    hku.mono ?_⟩
  -- Some token of the word was eaten, here or before it was given up.
  split
  · next hnil =>
    rw [hnil, List.append_nil] at h
    rw [if_neg h.ne_nil]
  · decide

structure Unread (F : Fault → Prop) (ts rest : List Token) (ds : List Directive)
    (s : Lexer Cursor) (us : List Token) (left : List Directive) (task : Task)
    (t : Lexer Cursor) : Prop where
  lists : Directive.Lists us left
  obeyed : left.foldl Task.obey task = ds.foldl Task.obey {}
  took : ∃ done, done ++ us = ts ∧ s.Took done t
  pending : t.pending = us ++ rest
  spare : t.Spare F 8

theorem Unread.word {E' : Empty → Lexer Cursor → Prop} {rule : Parse (Turn Task Task)}
    {Q : Turn Task Task → Lexer Cursor → Prop} {ds left left' : List Directive} {task task' : Task}
    {gap word us : List Token} {u : Lexer Cursor}
    (h : Unread F ts rest ds s (gap ++ (word ++ us)) left task t)
    (hlists : Directive.Lists us left')
    (hobeyed : left'.foldl Task.obey task' = left.foldl Task.obey task) (hne : word ≠ [])
    (hu : t.Passed gap u) (hpu : u.pending = word ++ (us ++ rest))
    (hrule : Ends F rule u (fun turn v => turn = .again task' ∧ u.Took word v ∧ v.Spare F 8) E')
    (hQ : ∀ v, Unread F ts rest ds s us left' task' v → v.pending.length < t.pending.length →
      Q (.again task') v) : Ends F rule u Q E' := by
  obtain ⟨done, hts, htook⟩ := h.took
  refine hrule.imp ?_
  rintro _ v ⟨rfl, hv, hkv⟩
  have hpv : v.pending = us ++ rest := List.append_cancel_left (hv.pending.symm.trans hpu)
  have htv := (htook.trans hu.took).trans hv
  refine hQ v ⟨hlists, hobeyed.trans h.obeyed, ⟨_, ?_, htv⟩, hpv, hkv⟩ ?_
  · rw [← hts]
    simp only [List.append_assoc]
  · have hlen := List.length_pos_of_ne_nil hne
    rw [h.pending, hpv]
    simp only [List.length_append]
    omega

theorem closes_of_head {us : List Token} {closing : Token} (hclosing : closing.tag = .rightBracket)
    (hnext : ∀ t ∈ us.head?, t.tag.isInlineSpace = true) :
    Closes (!us.isEmpty) (us ++ closing :: rest) := by
  cases us with
  | nil => exact ⟨closing, rest, rfl, by rw [hclosing]; rfl, fun _ => by rw [hclosing]; rfl⟩
  | cons t us =>
    have hspace := hnext t (by simp)
    exact ⟨t, us ++ closing :: rest, rfl, by simp [Tag.endsDirective, hspace], by simp⟩

theorem ends_directives_of_lists {E' : Empty → Lexer Cursor → Prop} {ds : List Directive}
    {closing : Token} (h : Directive.Lists ts ds) (hclosing : closing.tag = .rightBracket)
    (hs : s.Sound) (hk : s.Spare F 8) (hp : s.pending = ts ++ closing :: rest) :
    Ends F directives s (fun task t => task = ds.foldl Task.obey {} ∧
      s.Took (ts ++ [closing]) t ∧ t.Spare F 0) E' := by
  refine Ends.loop (fun task t => ∃ us left, Unread F ts (closing :: rest) ds s us left task t) hs
    ⟨ts, ds, h, rfl, ⟨[], rfl, .refl hs⟩, hp, hk⟩ ?_
  rintro task t ⟨us, left, hunread⟩
  obtain ⟨done, hts, ht⟩ := hunread.took
  have hpt := hunread.pending
  refine Ends.seq (Ends.passInlineSpace ht.sound hunread.spare (by decide)) ?_
  rintro - u ⟨hu, hku, -⟩
  cases hunread.lists with
  | nil =>
    have hspace : closing.tag.isInlineSpace = false := by rw [hclosing]; rfl
    rw [List.nil_append] at hpt
    rw [hpt, List.takeWhile_cons_of_neg (by simp [hspace])] at hu
    have hpu : u.pending = closing :: rest := by
      rw [← hpt]
      exact hu.pending.symm
    refine Ends.bind (Ends.peekTag (.refl hu.sound) (by decide) hku (by decide)
      fun v hv hkv _ => ?_)
    rw [Lexer.ahead_zero_of_cons hpu, hclosing]
    refine Ends.bind (Ends.eat hv hkv (by decide) hpu fun w hw _ hkw =>
      Ends.pure ⟨hunread.obeyed, ?_, hkw⟩)
    rw [← hts, List.append_nil]
    simpa using (ht.trans hu.took).eats hw
  | @cons gap word us d left hgap hspells hlegible hnext hlists =>
    rw [List.append_assoc, List.append_assoc] at hpt
    obtain ⟨hu, hpu, hfirst⟩ := passed_gap_of_head hpt hgap hspells.exists_head hu
    have hne : word ≠ [] := by
      obtain ⟨_, _, rfl, -⟩ := hspells.exists_head
      simp
    refine Ends.bind (Ends.peekTag (.refl hu.sound) (by decide) hku (by decide)
      fun v hv hkv _ => ?_)
    have hpv := hv.pending.trans hpu
    split
    · next htag => simp [htag, Tag.endsDirective] at hfirst
    · next htag => simp [htag, Tag.endsDirective, Tag.endsLine] at hfirst
    · next htag => simp [htag, Tag.endsDirective, Tag.endsLine] at hfirst
    · exact hunread.word hlists rfl hne (hu.looks hv) hpv
        (ends_obey_of_spells hspells hlegible hv.sound hkv (by decide) hpv
          (closes_of_head hclosing hnext)) fun w hw hlen => ⟨⟨_, _, hw⟩, hlen⟩
  | @skip gap word us _ hgap hgarbles hnext hlists =>
    rw [List.append_assoc, List.append_assoc] at hpt
    obtain ⟨hu, hpu, hfirst⟩ := passed_gap_of_head hpt hgap hgarbles.exists_head hu
    refine Ends.bind (Ends.peekTag (.refl hu.sound) (by decide) hku (by decide)
      fun v hv hkv _ => ?_)
    have hpv := hv.pending.trans hpu
    split
    · next htag => simp [htag, Tag.endsDirective] at hfirst
    · next htag => simp [htag, Tag.endsDirective, Tag.endsLine] at hfirst
    · next htag => simp [htag, Tag.endsDirective, Tag.endsLine] at hfirst
    · exact hunread.word hlists rfl hgarbles.ne_nil (hu.looks hv) hpv
        (ends_obey_of_garbles hgarbles hv.sound hkv (by decide) hpv
          (closes_of_head hclosing hnext)) fun w hw hlen => ⟨⟨_, _, hw⟩, hlen⟩

end TaskMarkup.Parse
