import TaskMarkup.Grammar.Directive
import TaskMarkup.Proofs.Lexer.Reads
import TaskMarkup.Proofs.Lexer.Watched
import TaskMarkup.Proofs.Text.Decimal

namespace TaskMarkup

def Directive.Written : Directive → Prop
  | .tag name => isTagName name.toList = true
  | .priority n | .track n => n < 10 ^ 8
  | .created d | .due d => 0 ≤ d.year
  | .image i => i.path.toList ≠ [] ∧ '\n' ∉ i.path.toList ∧ ∀ w, i.width = some w → w < 10 ^ 8
  | .done | .hide | .pin | .admonition _ => True

structure Task.Written (t : Task) : Prop where
  priority : ∀ n, t.priority = some n → n < 10 ^ 8
  track : ∀ n, t.track = some n → n < 10 ^ 8
  created : ∀ d, t.created = some d → 0 ≤ d.year
  due : ∀ d, t.due = some d → 0 ≤ d.year
  tags : ∀ name ∈ t.tags.toList, isTagName name.toList = true
  image : ∀ i, t.image = some i → (Directive.image i).Written

theorem Task.written_empty : ({} : Task).Written := by
  constructor <;> simp [Tags.empty]

theorem Task.Written.obey {t : Task} (h : t.Written) {d : Directive} (hd : d.Written) :
    (t.obey d).Written := by
  obtain ⟨hp, ht, hc, hu, hg, hi⟩ := h
  cases d with
  | tag name =>
    refine ⟨hp, ht, hc, hu, fun other hm => ?_, hi⟩
    rcases Tags.mem_insertSorted.1 hm with rfl | hm
    · exact hd
    · exact hg other hm
  | priority n => exact ⟨by rintro _ ⟨⟩; exact hd, ht, hc, hu, hg, hi⟩
  | track n => exact ⟨hp, by rintro _ ⟨⟩; exact hd, hc, hu, hg, hi⟩
  | created d => exact ⟨hp, ht, by rintro _ ⟨⟩; exact hd, hu, hg, hi⟩
  | due d => exact ⟨hp, ht, hc, by rintro _ ⟨⟩; exact hd, hg, hi⟩
  | image i => exact ⟨hp, ht, hc, hu, hg, by rintro _ ⟨⟩; exact hd⟩
  | done | hide | pin | admonition => exact ⟨hp, ht, hc, hu, hg, hi⟩

namespace Parse

open Rule

variable {F : Fault → Prop} {E : Empty → Lexer Cursor → Prop} {s t : Lexer Cursor} {k : Nat}
  {tok : Token} {rest : List Token}

def Dropped (F : Fault → Prop) (k : Nat) (s : Lexer Cursor) (_ : DirectiveError)
    (t : Lexer Cursor) : Prop :=
  s.Scans t ∧ t.Spare F k

theorem Dropped.after {m n : Nat} {e : DirectiveError} {u : Lexer Cursor} (h : s.Scans t)
    (hu : Dropped F m t e u) (hmn : m ≤ n) : Dropped F n s e u :=
  ⟨h.trans hu.1, hu.2.mono hmn⟩

theorem ends_expect {directive : String} {tags : List Tag} (hs : s.Sound) (hk : s.Spare F k)
    (hk' : k < 97) (htags : ∀ tag ∈ tags, tag.endsLine = false) :
    Ends F (expect directive tags) s
      (fun tok t => tok.tag ∈ tags ∧ tok.Spelled ∧ s.Reads t ∧ t.Spare F 0)
      (Dropped F (k + 1) s) := by
  refine Ends.bind (Ends.peek (.refl hs) (by decide) hk (by omega) fun t ht hkt _ => ?_)
  dsimp only
  split
  · next hmem =>
    have hline := htags _ hmem
    obtain ⟨-, hp⟩ := hs.tag_ahead_zero.resolve_left fun h => by
      simp [h.1, Tag.endsLine] at hline
    refine Ends.eat ht hkt (by omega) hp fun u hu _ hku => ⟨hmem, hs.spelled ?_, hu.reads ?_, hku⟩
    · rw [hp]
      simp
    · intro hn
      simp [hn, Tag.endsLine] at hline
  · exact Ends.bind (Ends.reject ⟨.of_looks ht, hkt⟩)

theorem ends_datePart {offset : Nat} {tag : Tag} (hs : s.Sound) (hk : s.Spare F k) (hk' : k < 97)
    (htag : tag.endsLine = false) :
    Ends F (datePart offset tag) s
      (fun tok t => tok.tag = tag ∧ tok.Spelled ∧ s.Reads t ∧ t.Spare F 0)
      (Dropped F (k + 1) s) := by
  have hne : tag ≠ .eof := fun h => by simp [h, Tag.endsLine] at htag
  refine Ends.seq (Ends.eatIf hs hne hk hk') ?_
  rintro r t (⟨rfl, -, ht, hkt, -⟩ | ⟨tok, rfl, htok, ht, hkt⟩)
  · exact Ends.reject ⟨.of_looks ht, hkt⟩
  · refine Ends.pure ⟨htok, hs.spelled (by simp [ht.pending]), ht.reads ?_, hkt⟩
    rintro hn
    rw [← htok, hn] at htag
    simp [Tag.endsLine] at htag

theorem ends_date (hs : s.Sound) (hk : s.Spare F k) (hk' : k < 96) :
    Ends F date s (fun d t => 0 ≤ d.year ∧ s.Reads t ∧ t.Spare F 0)
      (Dropped F (k + 2) s) := by
  refine Ends.bind (Ends.peek (.refl hs) (by decide) hk (by omega) fun t ht hkt _ => ?_)
  have hst : s.Scans t := .of_looks ht
  refine Ends.bind ((ends_datePart ht.sound hkt (by omega) rfl).mono ?_ fun e u h =>
    h.after hst (by omega))
  rintro year u ⟨-, -, hu, hku⟩
  have hsu := hst.reads hu
  refine Ends.bind ((ends_datePart hu.sound hku (by decide) rfl).mono ?_ fun e v h =>
    h.after hsu.scans (by omega))
  rintro - v ⟨-, -, hv, hkv⟩
  have hsv := hsu.trans hv
  refine Ends.bind ((ends_datePart hv.sound hkv (by decide) rfl).mono ?_ fun e w h =>
    h.after hsv.scans (by omega))
  rintro month w ⟨-, -, hw, hkw⟩
  have hsw := hsv.trans hw
  refine Ends.bind ((ends_datePart hw.sound hkw (by decide) rfl).mono ?_ fun e x h =>
    h.after hsw.scans (by omega))
  rintro - x ⟨-, -, hx, hkx⟩
  have hsx := hsw.trans hx
  refine Ends.bind ((ends_datePart hx.sound hkx (by decide) rfl).mono ?_ fun e y h =>
    h.after hsx.scans (by omega))
  rintro day y ⟨-, -, hy, hky⟩
  have hsy := hsx.trans hy
  dsimp only
  split
  · exact Ends.reject ⟨hsy.scans, hky.mono (by omega)⟩
  · next d hd =>
    refine Ends.pure ⟨?_, hsy, hky⟩
    simp only [Date.ofYearMonthDay?, Option.dite_none_right_eq_some, Option.some.injEq] at hd
    obtain ⟨-, rfl⟩ := hd
    simp

theorem ends_imagePath (hs : s.Sound) (hk : s.Spare F k) (hk' : k < 96) :
    Ends F imagePath s (fun path t => '\n' ∉ path ∧ s.Scans t ∧ t.Spare F (k + 1))
      (Dropped F (k + 1) s) := by
  refine Ends.loop (fun path t => '\n' ∉ path ∧ s.Scans t ∧ t.Spare F k) hs
    ⟨by simp, .refl hs, hk⟩ ?_
  rintro path t ⟨hpath, ht, hkt⟩
  refine Ends.bind (Ends.peek (.refl ht.sound) (by decide) hkt (by omega) fun u hu hku _ => ?_)
  split
  · exact Ends.pure ⟨hpath, ht.trans (.of_looks hu), hku⟩
  · next hends =>
    obtain ⟨-, hp⟩ := ht.sound.tag_ahead_zero.resolve_left fun h => by
      simp [h.1, Tag.endsDirective, Tag.endsLine] at hends
    have hnl : (t.ahead 0).tag ≠ .newline := fun h => by
      simp [h, Tag.endsDirective, Tag.endsLine] at hends
    have hspell : (t.ahead 0).Spelled := ht.sound.spelled (by rw [hp]; simp)
    refine Ends.bind (Ends.eat hu hku (by omega) hp fun v hv hpv hkv => ?_)
    have htv := hv.reads hnl
    have hsv := ht.trans htv.scans
    have hlen := htv.length_pending_lt
    split
    · refine Ends.bind (Ends.peekTag (.refl hsv.sound) (by decide) hkv (by decide)
        fun w hw hkw _ => ?_)
      split
      · exact Ends.pure ⟨hpath, hsv.trans (.of_looks hw), hkw.mono (by omega)⟩
      · next hline =>
        obtain ⟨-, hpv⟩ := hv.sound.tag_ahead_zero.resolve_left fun h => by
          simp [h.1, Tag.endsLine] at hline
        have hnl' : (v.ahead 0).tag ≠ .newline := fun h => by simp [h, Tag.endsLine] at hline
        have hspell' : (v.ahead 0).Spelled := hv.sound.spelled (by rw [hpv]; simp)
        refine Ends.bind (Ends.eat hw hkw (by decide) hpv fun x hx _ hkx => Ends.pure ⟨⟨?_,
          hsv.trans (hx.reads hnl').scans, hkx.mono (by omega)⟩, ?_⟩)
        · simp [hpath, hspell'.newline_not_mem hnl']
        · have := (hx.reads hnl').length_pending_lt
          omega
    · exact Ends.pure ⟨⟨by simp [hpath, hspell.newline_not_mem hnl], hsv, hkv.mono (by omega)⟩,
        hlen⟩

theorem ends_image (hs : s.Sound) (hk : s.Spare F k) (hk' : k < 90) :
    Ends F image s (fun i t => (Directive.image i).Written ∧ s.Scans t ∧ t.Spare F (k + 5))
      (Dropped F (k + 5) s) := by
  refine Ends.bind (Ends.peek (.refl hs) (by decide) hk (by omega) fun t ht hkt _ => ?_)
  dsimp only
  split
  · refine Ends.seq (Ends.eatInlineSpace ht.sound hkt (by omega)) ?_
    rintro - u ⟨hu, hku, -⟩
    have hsu : s.Scans u := (Lexer.Scans.of_looks ht).trans (.of_takeWhile hu fun _ =>
      Tag.ne_newline_of_isInlineSpace)
    refine Ends.bind (Ends.peek (.refl hu.sound) (by decide) hku (by omega) fun v hv hkv _ => ?_)
    -- With or without a width, the path is what follows.
    have hpath (width : Option Nat) (w : Lexer Cursor) (hw : s.Scans w) (hkw : w.Spare F (k + 4))
        (hwidth : ∀ n, width = some n → n < 10 ^ 8) :
        Ends F (do
          let path ← imagePath
          if path.isEmpty then reject (.missingValue "image" (u.ahead 0).start)
          return { path := String.ofList path, width } : InDirective Image) w
          (fun i t => (Directive.image i).Written ∧ s.Scans t ∧ t.Spare F (k + 5))
          (Dropped F (k + 5) s) := by
      refine Ends.bind ((ends_imagePath hw.sound hkw (by omega)).mono ?_ fun e x h =>
        h.after hw (by omega))
      rintro path x ⟨hnl, hx, hkx⟩
      dsimp only
      split
      · exact Ends.bind (Ends.reject ⟨hw.trans hx, hkx⟩)
      · next hne =>
        exact Ends.pure ⟨⟨by simpa using hne, by simpa using hnl, hwidth⟩, hw.trans hx, hkx⟩
    split
    · next htok =>
      obtain ⟨-, hp⟩ := hu.sound.tag_ahead_zero.resolve_left fun h => by simp [h.1] at htok
      refine Ends.bind (Ends.peekTag hv (by decide) hkv (by omega) fun w hw hkw _ => ?_)
      split
      · refine Ends.bind (Ends.eat hw hkw (by omega) hp fun x hx _ hkx => ?_)
        have hsx := hsu.trans (hx.reads (by simp [htok])).scans
        refine Ends.seq (Ends.eatInlineSpace hx.sound hkx (by decide)) ?_
        rintro - y ⟨hy, hky, -⟩
        refine hpath _ y (hsx.trans (.of_takeWhile hy fun _ => Tag.ne_newline_of_isInlineSpace))
          (hky.mono (by omega)) fun n hn => ?_
        have := (hu.sound.spelled (t := u.ahead 0) (by rw [hp]; simp)).value_lt htok
        simpa [hn] using this
      · exact hpath none w (hsu.trans (.of_looks hw)) hkw (by simp)
    · exact hpath none v (hsu.trans (.of_looks hv)) (hkv.mono (by omega)) (by simp)
  · exact Ends.bind (Ends.reject ⟨.of_looks ht, hkt.mono (by omega)⟩)

/-- A directive given up where it stands, or after some of its tokens. -/
def Skipped (F : Fault → Prop) (k : Nat) (s : Lexer Cursor) (_ : DirectiveError)
    (t : Lexer Cursor) : Prop :=
  s.Looks t ∧ t.Spare F k ∨ s.Reads t ∧ t.Spare F 7

theorem Skipped.of_dropped {m n : Nat} {e : DirectiveError} {u : Lexer Cursor} (h : s.Reads t)
    (hu : Dropped F m t e u) (hm : m ≤ 7) : Skipped F n s e u :=
  .inr ⟨h.scan hu.1, hu.2.mono hm⟩

theorem ends_directiveBody (hs : s.Sound) (hk : s.Spare F k) (hk' : k < 90) :
    Ends F directiveBody s (fun d t => d.Written ∧ s.Reads t ∧ t.Spare F 6)
      (Skipped F (k + 1) s) := by
  refine Ends.bind (Ends.peek (.refl hs) (by decide) hk (by omega) fun t ht hkt _ => ?_)
  dsimp only
  -- The first token of a directive is not given back.
  have hfirst {α : Type} {next : Token → InDirective α} {Q : α → Lexer Cursor → Prop}
      (hline : (s.ahead 0).tag.endsLine = false)
      (h : ∀ u, s.Reads u → u.Spare F 0 → Ends F (next (s.ahead 0)) u Q (Skipped F (k + 1) s)) :
      Ends F (Rule.eat >>= next) t Q (Skipped F (k + 1) s) := by
    obtain ⟨-, hp⟩ := hs.tag_ahead_zero.resolve_left fun h => by
      simp [h.1, Tag.endsLine] at hline
    refine Ends.bind (Ends.eat ht hkt (by omega) hp fun u hu _ hku => h u (hu.reads ?_) hku)
    intro hn
    simp [hn, Tag.endsLine] at hline
  have hword {d : Directive} (htag : (s.ahead 0).tag = .word) (hd : d.Written) :
      Ends F (Rule.eat >>= fun _ => Pure.pure d : InDirective Directive) t
        (fun d t => d.Written ∧ s.Reads t ∧ t.Spare F 6) (Skipped F (k + 1) s) :=
    hfirst (by rw [htag]; rfl) fun u hu hku => Ends.pure ⟨hd, hu, hku.mono (by decide)⟩
  have hexpect {directive : String} {tag : Tag} {u : Lexer Cursor} (hu : s.Reads u)
      (hku : u.Spare F 0) (htag : tag.endsLine = false) :
      Ends F (expect directive [tag]) u (fun tok v => tok.tag = tag ∧ tok.Spelled ∧ s.Reads v ∧
        v.Spare F 0) (Skipped F (k + 1) s) := by
    refine (ends_expect hu.sound hku (by decide) (by simpa using htag)).mono ?_ fun e v h =>
      .of_dropped hu h (by decide)
    rintro tok v ⟨hmem, hspell, hv, hkv⟩
    exact ⟨by simpa using hmem, hspell, hu.trans hv, hkv⟩
  have hdated {directive : String} {make : Date → Directive} (htag : (s.ahead 0).tag = .word)
      (hmake : ∀ d : Date, 0 ≤ d.year → (make d).Written) :
      Ends F (do
        let _ ← Rule.eat
        let _ ← expect directive [.colon]
        return make (← date) : InDirective Directive) t
        (fun d t => d.Written ∧ s.Reads t ∧ t.Spare F 6) (Skipped F (k + 1) s) := by
    refine hfirst (by rw [htag]; rfl) fun u hu hku => ?_
    refine Ends.seq (hexpect hu hku rfl) ?_
    rintro - v ⟨-, -, hv, hkv⟩
    refine Ends.bind ((ends_date hv.sound hkv (by decide)).mono ?_ fun e w h =>
      .of_dropped hv h (by decide))
    rintro d w ⟨hd, hw, hkw⟩
    exact Ends.pure ⟨hmake d hd, hv.trans hw, hkw.mono (by decide)⟩
  split
  · next htag =>
    refine hfirst (by rw [htag]; rfl) fun u hu hku => ?_
    refine Ends.bind ((ends_expect hu.sound hku (by decide) (by simp [Tag.endsLine])).mono ?_
      fun e v h => .of_dropped hu h (by decide))
    rintro name v ⟨-, -, hv, hkv⟩
    split
    · next hname =>
      exact Ends.pure ⟨by simpa [Directive.Written] using hname, hu.trans hv,
        hkv.mono (by decide)⟩
    · exact Ends.bind (Ends.reject (.inr ⟨hu.trans hv, hkv.mono (by decide)⟩))
  · next htag =>
    refine hfirst (by rw [htag]; rfl) fun u hu hku => ?_
    refine Ends.seq (hexpect hu hku rfl) ?_
    rintro number v ⟨hnum, hspell, hv, hkv⟩
    exact Ends.pure ⟨hspell.value_lt hnum, hv, hkv.mono (by decide)⟩
  · next htag =>
    split
    · exact hword htag trivial
    · exact hword htag trivial
    · exact hword htag trivial
    · exact hdated htag fun _ => id
    · exact hdated htag fun _ => id
    · refine hfirst (by rw [htag]; rfl) fun u hu hku => ?_
      refine Ends.seq (hexpect hu hku rfl) ?_
      rintro - v ⟨-, -, hv, hkv⟩
      refine Ends.seq (hexpect hv hkv rfl) ?_
      rintro number w ⟨hnum, hspell, hw, hkw⟩
      exact Ends.pure ⟨hspell.value_lt hnum, hw, hkw.mono (by decide)⟩
    · refine hfirst (by rw [htag]; rfl) fun u hu hku => ?_
      refine Ends.bind ((ends_image hu.sound hku (by decide)).mono ?_ fun e w h =>
        .of_dropped hu h (by decide))
      rintro i w ⟨hi, hw, hkw⟩
      exact Ends.pure ⟨hi, hu.scan hw, hkw.mono (by decide)⟩
    · split
      · exact Ends.reject (.inl ⟨ht, hkt⟩)
      · exact hword htag trivial
  · exact Ends.reject (.inl ⟨ht, hkt⟩)

theorem ends_directive (hs : s.Sound) (hk : s.Spare F k) (hk' : k < 90) :
    Ends F directive s (fun d t => d.Written ∧ s.Reads t ∧ t.Spare F 7)
      (Skipped F (k + 1) s) := by
  refine Ends.seq (ends_directiveBody hs hk hk') ?_
  rintro d t ⟨hd, ht, hkt⟩
  refine Ends.bind (Ends.peek (.refl ht.sound) (by decide) hkt (by decide) fun u hu hku _ => ?_)
  dsimp only
  split
  · exact Ends.pure ⟨hd, ht.looks hu, hku⟩
  · exact Ends.bind (Ends.reject (.inr ⟨ht.looks hu, hku⟩))

theorem ends_directives (hs : s.Sound) (hk : s.Spare F 8) :
    Ends F directives s (fun task t => task.Written ∧ s.Scans t ∧ t.Spare F 10) E := by
  refine Ends.loop (fun task t => task.Written ∧ s.Scans t ∧ t.Spare F 8) hs
    ⟨Task.written_empty, .refl hs, hk⟩ ?_
  rintro task t ⟨htask, ht, hkt⟩
  refine Ends.seq (Ends.eatInlineSpace ht.sound hkt (by decide)) ?_
  rintro - u ⟨hu, hku, -⟩
  have htu : t.Scans u := .of_takeWhile hu fun _ => Tag.ne_newline_of_isInlineSpace
  have hsu := ht.trans htu
  have hlen : u.pending.length ≤ t.pending.length := by
    rw [hu.pending_of_takeWhile]
    exact (List.dropWhile_suffix _).length_le
  refine Ends.bind (Ends.peekTag (.refl hu.sound) (by decide) hku (by decide)
    fun v hv hkv _ => ?_)
  split
  · next htag =>
    obtain ⟨-, hp⟩ := hu.sound.tag_ahead_zero.resolve_left fun h => by simp [h.1] at htag
    exact Ends.bind (Ends.eat hv hkv (by decide) hp fun w hw _ hkw => Ends.pure ⟨htask,
      hsu.trans (hw.reads (by simp [htag])).scans, hkw.mono (by decide)⟩)
  · exact Ends.pure ⟨htask, hsu.trans (.of_looks hv), hkv⟩
  · exact Ends.pure ⟨htask, hsu.trans (.of_looks hv), hkv⟩
  · next hbracket hnl heof =>
    have hsv := hsu.trans (.of_looks hv)
    have hlen' : v.pending.length ≤ t.pending.length := by rwa [hv.pending]
    have hnext : (v.ahead 0).tag.endsDirective = false := by
      have hspace : (u.ahead 0).tag.isInlineSpace = false := by
        refine Bool.eq_false_iff.2 fun h => ?_
        have := hu.ahead_of_takeWhile fun hnil => heof (Lexer.ahead_zero_of_nil hnil)
        simp [h] at this
      rw [hv.ahead]
      simpa [Tag.endsDirective, Tag.endsLine, hspace] using ⟨⟨hnl, heof⟩, hbracket⟩
    refine Ends.bind (Ends.attempt ((ends_directive hv.sound hkv (by decide)).mono ?_ ?_))
    · rintro d w ⟨hd, hw, hkw⟩
      have := hw.length_pending_lt
      exact Ends.pure ⟨⟨htask.obey hd, hsv.trans hw.scans, hkw.mono (by decide)⟩, by omega⟩
    · intro e w hw
      have hwr (h : v.Scans w) (u : Lexer Cursor)
          (hu : (w.onCursor (.noting (.skipped e))).Took (w.pending.takeWhile fun u =>
            !u.tag.endsDirective) u) : v.Scans u := by
        refine h.trans (.trans ⟨[], by simp, h.sound.noting _⟩ (.of_takeWhile hu fun x hx hn => ?_))
        simp [hn, Tag.endsDirective, Tag.endsLine] at hx
      refine Ends.bind (Ends.record ?_)
      rcases hw with ⟨hw, hkw⟩ | ⟨hw, hkw⟩
      · -- Nothing was eaten, but the token that is next does not end a directive.
        obtain ⟨-, hp⟩ := hv.sound.tag_ahead_zero.resolve_left fun h => by
          simp [h.1, Tag.endsDirective, Tag.endsLine] at hnext
        have hne : w.pending.takeWhile (fun u => !u.tag.endsDirective) ≠ [] := by
          rw [hw.pending, hp]
          simp [hnext]
        refine Ends.seq (Ends.eatUntil hw.sound.onCursor hkw.onCursor (by decide)) ?_
        rintro - x ⟨hx, hkx, -⟩
        rw [Lexer.pending_onCursor, if_neg hne] at hkx
        refine Ends.pure ⟨⟨htask, hsv.trans (hwr (.of_looks hw) x hx), hkx.mono (by decide)⟩, ?_⟩
        have hlen := congrArg List.length hx.pending
        have := List.length_pos_of_ne_nil hne
        rw [Lexer.pending_onCursor, List.length_append, hw.pending] at hlen
        rw [hw.pending] at this
        omega
      · refine Ends.seq (Ends.eatUntil hw.sound.onCursor hkw.onCursor (by decide)) ?_
        rintro - x ⟨hx, hkx, -⟩
        refine Ends.pure ⟨⟨htask, hsv.trans (hwr hw.scans x hx),
          hkx.mono (by split <;> decide)⟩, ?_⟩
        have hlen := congrArg List.length hx.pending
        have := hw.length_pending_lt
        rw [Lexer.pending_onCursor, List.length_append] at hlen
        omega

end Parse

end TaskMarkup
