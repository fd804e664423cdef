import TaskMarkup.Proofs.Excerpt.Reading

namespace TaskMarkup.Parse

open Rule

variable {L : Rule.Loss} {E : Lexer Cursor → Lexer Cursor → Prop} {x : Stretch}
  {loose : Prop} {s t e f : Lexer Cursor}

theorem follows_expect {directive : String} {tags : List Tag} (hx : x.InLine loose s e)
    (htags : ∀ tag ∈ tags, tag.endsLine = false) :
    Follows L (expect directive tags) (expect directive tags) s e
      (fun tok tok' t f => tok = tok'.moved x.origin ∧ x.InLine loose t f)
      fun t f => x.InLine loose t f := by
  apply Follows.bind
  apply Follows.peek (.refl hx.sound) (.refl hx.sound')
  intro t f ht hf _ _
  have hmem : (s.ahead 0).tag ∈ tags ↔ (e.ahead 0).tag ∈ tags := by
    rcases hx.sees_zero.elim with htok | ⟨hnl, heof⟩
    · rw [htok, Token.moved_tag]
    · rw [hnl, heof]
      constructor
      · exact fun h => absurd (htags _ h) (by decide)
      · exact fun h => absurd (htags _ h) (by decide)
  simp only [hmem]
  split
  · next htag =>
    apply Follows.eatNext hx ht hf (htags _ htag)
    exact fun _ _ hx _ => ⟨rfl, hx⟩
  · exact Follows.bind (Follows.reject (hx.looks ht hf))

theorem follows_datePart {offset offset' : Nat} {tag : Tag} (hx : x.InLine loose s e)
    (htag : tag.endsLine = false) :
    Follows L (datePart offset tag) (datePart offset' tag) s e
      (fun tok tok' t f => tok = tok'.moved x.origin ∧ x.InLine loose t f)
      fun t f => x.InLine loose t f := by
  apply Follows.seq (Follows.eatIf hx htag)
  rintro r r' t f ⟨rfl, hx⟩
  cases r' with
  | none => exact Follows.reject hx
  | some tok => exact Follows.pure ⟨rfl, hx⟩

theorem follows_date (hx : x.InLine loose s e) :
    Follows L date date s e (fun d d' t f => d = d' ∧ x.InLine loose t f)
      fun t f => x.InLine loose t f := by
  apply Follows.bind
  apply Follows.peek (.refl hx.sound) (.refl hx.sound')
  intro t f ht hf _ _
  apply Follows.seq (follows_datePart (hx.looks ht hf) rfl)
  rintro _ year t f ⟨rfl, hx⟩
  apply Follows.seq (follows_datePart hx rfl)
  rintro _ dash t f ⟨-, hx⟩
  apply Follows.seq (follows_datePart hx rfl)
  rintro _ month t f ⟨rfl, hx⟩
  apply Follows.seq (follows_datePart hx rfl)
  rintro _ dash t f ⟨-, hx⟩
  apply Follows.seq (follows_datePart hx rfl)
  rintro _ day t f ⟨rfl, hx⟩
  simp only [Token.moved_value?]
  split
  · exact Follows.reject hx
  · exact Follows.pure ⟨rfl, hx⟩

theorem follows_imagePath (hx : x.InLine loose s e) :
    Follows L imagePath imagePath s e (fun path path' t f => path = path' ∧ x.InLine loose t f)
      E := by
  apply Follows.loopBoth (fun path path' s e => path = path' ∧ x.InLine loose s e) ⟨rfl, hx⟩
  rintro path _ s e ⟨rfl, hx⟩
  apply Follows.bind
  apply Follows.peek (.refl hx.sound) (.refl hx.sound')
  intro t f ht hf _ _
  rcases hx.sees_zero.elim with htok | ⟨hnl, heof⟩
  · rw [htok, Token.moved_tag]
    split
    · exact Follows.pure (.done ⟨rfl, hx.looks ht hf⟩)
    · next hends =>
      apply Follows.bind
      apply Follows.eatNext hx ht hf
      · simp only [Tag.endsDirective, Bool.or_eq_true, not_or, Bool.not_eq_true] at hends
        exact hends.1.2
      · intro u g hx _
        split
        · apply Follows.bind
          apply Follows.peekTag (.refl hx.sound) (.refl hx.sound')
          intro v k hv hk _ _
          rw [hx.sees_zero.endsLine]
          split
          · exact Follows.pure (.done ⟨rfl, hx.looks hv hk⟩)
          · next hline =>
            apply Follows.bind
            apply Follows.eatNext hx hv hk (by simpa using hline)
            intro w l hx _
            exact Follows.pure (.again ⟨rfl, hx⟩)
        · exact Follows.pure (.again ⟨rfl, hx⟩)
  · rw [hnl, heof]
    exact Follows.pure (.done ⟨rfl, hx.looks ht hf⟩)

theorem follows_image (hx : x.InLine loose s e) :
    Follows L image image s e (fun i i' t f => i = i' ∧ x.InLine loose t f)
      fun t f => x.InLine loose t f := by
  apply Follows.bind
  apply Follows.peek (.refl hx.sound) (.refl hx.sound')
  intro t f ht hf _ _
  have hx' := hx.looks ht hf
  rw [hx.sees_zero.isInlineSpace]
  dsimp only
  split
  · apply Follows.seq (Follows.eatInlineSpace hx')
    rintro _ _ s e ⟨hx, -⟩
    apply Follows.bind
    apply Follows.peek (.refl hx.sound) (.refl hx.sound')
    intro t f ht hf _ _
    -- With or without a width, the path is what follows.
    have hpath (width : Option Nat) (t f : Lexer Cursor) (hx : x.InLine loose t f) :
        Follows L
          (do
            let path ← imagePath
            if path.isEmpty then reject (.missingValue "image" (s.ahead 0).start)
            return { path := String.ofList path, width } : InDirective Image)
          (do
            let path ← imagePath
            if path.isEmpty then reject (.missingValue "image" (e.ahead 0).start)
            return { path := String.ofList path, width } : InDirective Image) t f
          (fun i i' t f => i = i' ∧ x.InLine loose t f) fun t f => x.InLine loose t f := by
      apply Follows.seq (follows_imagePath hx)
      rintro path _ t f ⟨rfl, hx⟩
      dsimp only
      split
      · exact Follows.bind (Follows.reject hx)
      · exact Follows.pure ⟨rfl, hx⟩
    have hiff : (s.ahead 0).tag = .number ↔ (e.ahead 0).tag = .number := hx.sees_zero.tag_iff rfl
    simp only [hiff]
    split
    · next hnum =>
      have hline : (e.ahead 0).tag.endsLine = false := by
        rw [hnum]
        rfl
      apply Follows.bind
      apply Follows.peekTag ht hf
      intro u g hu hg _ _
      rw [(hx.sees_one hline).isInlineSpace]
      split
      · apply Follows.bind
        apply Follows.eatNext hx hu hg hline
        intro v k hx' _
        apply Follows.seq (Follows.eatInlineSpace hx')
        rintro _ _ w l ⟨hx', -⟩
        rw [hx.sees_zero.eq_moved hline, Token.moved_value?]
        have := hpath (e.ahead 0).value? w l hx'
        rwa [hx.sees_zero.eq_moved hline] at this
      · exact hpath none u g (hx.looks hu hg)
    · exact hpath none t f (hx.looks ht hf)
  · exact Follows.bind (Follows.reject hx')

theorem follows_directiveBody (hx : x.InLine loose s e) :
    Follows L directiveBody directiveBody s e (fun d d' t f => d = d' ∧ x.InLine loose t f)
      fun t f => x.InLine loose t f := by
  apply Follows.bind
  apply Follows.peek (.refl hx.sound) (.refl hx.sound')
  intro t f ht hf _ _
  rcases hx.sees_zero.elim with htok | ⟨hnl, heof⟩
  · rw [htok, Token.moved_tag, Token.moved_text]
    dsimp only
    -- The first token says which directive it is.
    have hfirst {next next' : Token → InDirective Directive} (hline : (e.ahead 0).tag.endsLine = false)
        (h : ∀ u g, x.InLine loose u g → Follows L (next ((e.ahead 0).moved x.origin))
          (next' (e.ahead 0)) u g (fun d d' t f => d = d' ∧ x.InLine loose t f)
          fun t f => x.InLine loose t f) :
        Follows L (Rule.eat >>= next) (Rule.eat >>= next') t f
          (fun d d' t f => d = d' ∧ x.InLine loose t f) fun t f => x.InLine loose t f := by
      apply Follows.bind
      apply Follows.eatNext hx ht hf hline
      exact fun u g hx _ => h u g hx
    split
    · next htag =>
      apply hfirst (by rw [htag]; rfl)
      intro u g hx
      apply Follows.seq (follows_expect hx (by simp [Tag.endsLine]))
      rintro _ name v k ⟨rfl, hx⟩
      rw [Token.moved_text]
      split
      · exact Follows.pure ⟨rfl, hx⟩
      · exact Follows.bind (Follows.reject hx)
    · next htag =>
      apply hfirst (by rw [htag]; rfl)
      intro u g hx
      apply Follows.seq (follows_expect hx (by simp [Tag.endsLine]))
      rintro _ number v k ⟨rfl, hx⟩
      exact Follows.pure ⟨rfl, hx⟩
    · next htag =>
      have hline : (e.ahead 0).tag.endsLine = false := by
        rw [htag]
        rfl
      have hword (d : Directive) : Follows L
          (Rule.eat >>= fun _ => Pure.pure d : InDirective Directive)
          (Rule.eat >>= fun _ => Pure.pure d : InDirective Directive) t f
          (fun d d' t f => d = d' ∧ x.InLine loose t f) fun t f => x.InLine loose t f :=
        hfirst hline fun u g hx => Follows.pure ⟨rfl, hx⟩
      have hdate {directive : String} {make : Date → Directive} {u g : Lexer Cursor}
          (hx : x.InLine loose u g) : Follows L
          (expect directive [.colon] >>= fun _ => do return make (← date))
          (expect directive [.colon] >>= fun _ => do return make (← date)) u g
          (fun d d' t f => d = d' ∧ x.InLine loose t f) fun t f => x.InLine loose t f := by
        apply Follows.seq (follows_expect hx (by simp [Tag.endsLine]))
        rintro _ colon v k ⟨-, hx⟩
        apply Follows.seq (follows_date hx)
        rintro d _ w l ⟨rfl, hx⟩
        exact Follows.pure ⟨rfl, hx⟩
      split
      · exact hword .done
      · exact hword .hide
      · exact hword .pin
      · exact hfirst hline fun u g hx => hdate hx
      · exact hfirst hline fun u g hx => hdate hx
      · apply hfirst hline
        intro u g hx
        apply Follows.seq (follows_expect hx (by simp [Tag.endsLine]))
        rintro _ colon v k ⟨-, hx⟩
        apply Follows.seq (follows_expect hx (by simp [Tag.endsLine]))
        rintro _ number w l ⟨rfl, hx⟩
        exact Follows.pure ⟨rfl, hx⟩
      · apply hfirst hline
        intro u g hx
        apply Follows.seq (follows_image hx)
        rintro i _ v k ⟨rfl, hx⟩
        exact Follows.pure ⟨rfl, hx⟩
      · split
        · exact Follows.reject (hx.looks ht hf)
        · next kind _ => exact hword (.admonition kind)
    · exact Follows.reject (hx.looks ht hf)
  · rw [hnl, heof]
    exact Follows.reject (hx.looks ht hf)

theorem follows_directive (hx : x.InLine loose s e) :
    Follows L directive directive s e (fun d d' t f => d = d' ∧ x.InLine loose t f)
      fun t f => x.InLine loose t f := by
  apply Follows.seq (follows_directiveBody hx)
  rintro d _ t f ⟨rfl, hx⟩
  apply Follows.bind
  apply Follows.peek (.refl hx.sound) (.refl hx.sound')
  intro u g hu hg _ _
  rw [hx.sees_zero.congr Tag.endsDirective rfl]
  dsimp only
  split
  · exact Follows.pure ⟨rfl, hx.looks hu hg⟩
  · exact Follows.bind (Follows.reject (hx.looks hu hg))

theorem follows_directives (hx : x.InLine loose s e) :
    Follows L directives directives s e (fun task task' t f => task = task' ∧ x.InLine loose t f)
      E := by
  apply Follows.loopBoth (fun task task' s e => task = task' ∧ x.InLine loose s e) ⟨rfl, hx⟩
  rintro task _ s e ⟨rfl, hx⟩
  apply Follows.seq (Follows.eatInlineSpace hx)
  rintro _ _ s e ⟨hx, -⟩
  apply Follows.bind
  apply Follows.peekTag (.refl hx.sound) (.refl hx.sound')
  intro t f ht hf _ _
  have hx' := hx.looks ht hf
  rcases hx.sees_zero.elim with htok | ⟨hnl, heof⟩
  · rw [htok, Token.moved_tag]
    split
    · next htag =>
      apply Follows.bind
      apply Follows.eatNext hx ht hf (by rw [htag]; rfl)
      intro u g hx _
      exact Follows.pure (.done ⟨rfl, hx⟩)
    · exact Follows.pure (.done ⟨rfl, hx'⟩)
    · exact Follows.pure (.done ⟨rfl, hx'⟩)
    · apply Follows.bind
      apply Follows.attempt
      apply (follows_directive hx').mono
      · rintro d _ u g ⟨rfl, hx⟩
        exact Follows.pure (.again ⟨rfl, hx⟩)
      · intro u g hx error error'
        apply Follows.bind
        apply Follows.record
        have hx := hx.noting (.skipped error) (.skipped error')
        apply Follows.bind
        apply Follows.eatUntil hx.toAbreast
        · exact fun t u ht => by rw [ht]
        · exact fun t ht => by rw [ht]; rfl
        · intro v k hn hv hk
          exact Follows.pure (.again ⟨rfl, hx.took hv hk hn⟩)
  · rw [hnl, heof]
    exact Follows.pure (.done ⟨rfl, hx'⟩)

end TaskMarkup.Parse
