import TaskMarkup.Proofs.Excerpt.Directive
import TaskMarkup.Proofs.Excerpt.Raw
import TaskMarkup.Proofs.Excerpt.Table

namespace TaskMarkup

def Block.continues : Block → Marker → Bool
  | .container _ .list _, marker => marker = .list
  | .container _ (.orderedList first) items, marker => marker = .ordered (first + items.length)
  | .container _ (.table _) _, marker => marker = .table
  | _, _ => false

/-- From `e` the rule gives a block that the line behind the stretch does not go on with. -/
def Stretch.Closes (x : Stretch) (room : Nat) (rule : Parse Block) (e : Lexer Cursor) : Prop :=
  ∃ b f, rule e = .ok b f ∧ ∀ t, x.Meets t → b.continues (Parse.announced room t) = false

namespace Parse

open Rule

variable {E : Lexer Cursor → Lexer Cursor → Prop} {L : Rule.Loss} {x : Stretch}
  {loose : Prop} {s t e f : Lexer Cursor} {i n : Nat} {level : Level}
  {body : Nat → Parse (List Block)} {marker : Marker}

theorem follows_marker (hx : x.InLine loose s e) (ha : Announces e marker)
    (hn : marker.heads.length = n) (hpos : 0 < n) :
    Follows L (eatMany n : Parse Unit) (eatMany n : Parse Unit) s e (fun _ _ t f =>
      x.InLine loose t f ∧ t.observer.lastEnd = t.nextOffset ∧
        f.observer.lastEnd = f.nextOffset) E := by
  subst hn
  obtain ⟨hlen, hnl⟩ := ha.scans
  have hne : e.pending.take marker.heads.length ≠ [] := by
    intro hnil
    have := congrArg List.length hnil
    simp only [List.length_take, List.length_nil] at this
    omega
  apply Follows.eatMany hx.toAbreast hlen
  intro t f ht hf
  exact ⟨hx.took ht hf hnl, ht.lastEnd_eq hx.sound hx.firm.unpaused (by simpa using hne),
    hf.lastEnd_eq hx.sound' hx.firm'.unpaused hne⟩

theorem follows_header {size : Nat} (hx : x.InLine loose s e) (ha : Announces e (.header size)) :
    Follows x.loss (header level size i) (header level size i) s e
      (fun b b' t f => b = b'.moved x.origin ∧ x.Near t f) E := by
  apply Follows.bind
  apply Follows.peek (.refl hx.sound) (.refl hx.sound')
  intro t f ht hf _ _
  rw [hx.start]
  apply Follows.seq (follows_marker (hx.looks ht hf) (ha.looks hf) (by simp [Marker.heads])
    (ha.pos size rfl))
  rintro _ _ t f ⟨hx, -⟩
  apply Follows.seq (Follows.eatInlineSpace hx)
  rintro _ _ t f ⟨hx, -⟩
  apply Follows.seqLost ((follows_paragraph (p := ⟨level, i, .singleLine⟩) hx).and
    (ends_paragraph (E := fun e _ => e.elim) (excused_true _) hx.firm (t.spare_true _))
    (ends_paragraph (E := fun e _ => e.elim) (excused_true _) hx.firm' (f.spare_true _)))
  · exact fun _ => (Advances.bind (.eatIf _) fun _ => .bind (.endFrom _) fun _ => .pure _).stays
  · exact fun _ => (Advances.bind (.eatIf _) fun _ => .bind (.endFrom _) fun _ => .pure _).stays_over
  · rintro _ child t f ⟨⟨rfl, -, hx⟩, -, hf⟩
    have hline : (f.ahead 0).tag.endsLine = true := by
      cases hf.ended with
      | eof hp _ =>
        rw [Lexer.ahead_zero_of_nil hp]
        rfl
      | line _ hnl =>
        rw [hnl]
        rfl
      | bar hmode _ => simp at hmode
      | rests hmode _ => simp at hmode
    apply Follows.seqLost ((hx (by simp)).follows_eatNewline hline)
    · exact fun _ => (Advances.bind (.endFrom _) fun _ => .pure _).stays
    · exact fun _ => (Advances.bind (.endFrom _) fun _ => .pure _).stays_over
    · rintro _ _ t f ⟨-, hn⟩
      apply Follows.bind
      apply Follows.endFrom hn.lastEnd
      refine Follows.pure ⟨?_, hn⟩
      rw [Block.stop_moved, Nat.add_max_add_right]
      rfl

theorem follows_separator (hx : x.InLine loose s e) (htag : (e.ahead 0).tag = .equals) :
    Follows x.loss (separator i) (separator i) s e
      (fun b b' t f => b = b'.moved x.origin ∧ x.Near t f) E := by
  have hline : (e.ahead 0).tag.endsLine = false := by
    rw [htag]
    rfl
  have hp := hx.cons hline
  have hc : (e.ahead 0).tag.char? = some '=' := by rw [htag, Tag.char?]
  have hnl : (e.ahead 0).tag ≠ .newline := by simp [htag]
  apply Follows.bind
  apply Follows.peek (.refl hx.sound) (.refl hx.sound')
  intro t f ht hf _ _
  have hx' := hx.looks ht hf
  rw [hx.sees_zero.eq_moved hline]
  apply Follows.seq (Follows.repeats hx'.toAbreast (hf.pending.trans hp) hc hnl)
  rintro n _ _ _ ⟨rfl, hn, rfl, rfl⟩
  apply Follows.seq (follows_eatRun hx' (Nat.le_of_eq hn) hnl)
  rintro _ _ t f ⟨hx, -⟩
  apply Follows.bind
  apply Follows.endFrom hx.cursor.lastEnd
  apply Follows.seqLost hx.follows_eatLine
  · exact fun _ => (Advances.pure _).stays
  · exact fun _ => (Advances.pure _).stays_over
  · exact fun _ _ _ _ hn => Follows.pure ⟨rfl, hn⟩

theorem follows_listItem (hbody : Nested body) (hx : x.InLine loose s e) (ha : Announces e marker)
    (hn : marker.heads.length = n) (hpos : 0 < n) :
    Follows x.loss (listItem body n i) (listItem body n i) s e
      (fun b b' t f => b = b'.moved x.origin ∧ x.Near t f) E := by
  apply Follows.bind
  apply Follows.peek (.refl hx.sound) (.refl hx.sound')
  intro t f ht hf _ _
  rw [hx.start]
  apply Follows.seq (follows_marker (hx.looks ht hf) (ha.looks hf) hn hpos)
  rintro _ _ t f ⟨hx, hlast, hlast'⟩
  exact follows_bodied hbody hx hlast hlast'

theorem exists_of_listItems {continues : Nat → Marker → Bool} {kind : Container} {b : Block}
    (h : listItems level body n i continues kind s = .ok b t) : ∃ tok u items v start stop,
      (Rule.peek 0 : Parse Token) s = .ok tok u ∧
      Rule.loop (itemTurn level body n i continues) [] u = .ok items v ∧
      b = .container ⟨start, stop, i⟩ kind items := by
  obtain ⟨tok, u, hpeek, h⟩ := exists_of_bind h
  obtain ⟨items, v, hloop, h⟩ := exists_of_bind h
  obtain ⟨stop, w, -, h⟩ := exists_of_bind h
  obtain ⟨rfl, rfl⟩ := EStateM.Result.ok.inj h
  exact ⟨tok, u, items, v, tok.start, stop, hpeek, hloop, rfl⟩

theorem loses_itemTurn {continues : Nat → Marker → Bool} {items : List Block}
    (hbody : Nested body) (hpos : 0 < n) (h : x.Beyond s) :
    Loses (Lexer.Lost x.cut) (itemTurn level body n i continues items) s := by
  refine Loses.bind ?_ fun _ => (advances_nextTurn _).stays
  apply Ends.bind
  apply Ends.peek (.refl h.steady.sound) (by decide) (s.spare_true 0) (by decide)
  intro t ht _ _
  exact ((h.looks ht).loses_eatMany hpos).bind fun _ => (advances_bodied hbody.advances _ _).stays

structure Listing (x : Stretch) (loose : Prop) (n : Nat) (items items' : List Block)
    (s e : Lexer Cursor) : Prop where
  items : items = items'.map (.moved x.origin)
  inLine : x.InLine loose s e
  marked : Marked (fun _ => True) n s
  marked' : Marked (fun _ => True) n e

theorem Marked.of_announced {F : Fault → Prop} {continues : Marker → Bool}
    (hcont : ∀ m, continues m = true → m.heads.length = n) (h : Announced F continues t) :
    Marked F n t := by
  obtain ⟨marker, ha, hc⟩ := h.announces
  exact ⟨h.content, ⟨marker, ha, hcont marker hc⟩, h.spare⟩

theorem follows_itemTurn {continues : Nat → Marker → Bool} {items items' : List Block}
    (hbody : Nested body) (hcont : ∀ count m, continues count m = true → m.heads.length = n)
    (hpos : 0 < n) (h : Listing x loose n items items' s e)
    (hstop : x.free ∨ i ≠ 0 ∨ ∀ items'' f,
      itemTurn level body n i continues items' e = .ok (.done items'') f →
        ∀ t, x.Meets t → continues items''.length (announced level.room t) = false) :
    Follows x.loss (itemTurn level body n i continues items)
      (itemTurn level body n i continues items') s e
      (fun turn turn' t f => turn.Both (fun bs bs' => bs = bs'.map (.moved x.origin) ∧ x.Near t f)
        (Listing x loose n · · t f) (fun _ _ => x.Beyond t ∧ x.Over f) turn') E := by
  obtain ⟨rfl, hx, ⟨hcontent, ⟨marker, ha, hn⟩, hk⟩, hcontent', ⟨marker', ha', hn'⟩, hk'⟩ := h
  apply Follows.seqLost ((follows_listItem hbody hx ha' hn' hpos).and
    (ends_listItem (E := fun e _ => e.elim) (excused_true _) (hbody.ends level.ruler) hx.firm ha hn hpos hk)
    (ends_listItem (E := fun e _ => e.elim) (excused_true _) (hbody.ends level.ruler) hx.firm' ha' hn' hpos hk')).self
  · exact fun _ => (advances_nextTurn _).stays
  · exact fun _ => (advances_nextTurn _).stays_over
  · rintro _ item t f ⟨⟨⟨rfl, hnear⟩, ⟨-, ht, ⟨r, hr, -⟩, -⟩, -, hf, ⟨r', hr', -⟩, -⟩, hitem⟩
    have hitems : items'.map (.moved x.origin) ++ [item.moved x.origin] =
        (items' ++ [item]).map (.moved x.origin) := by simp
    dsimp only
    rw [hitems, List.length_map]
    have hstop : x.free ∨ i ≠ 0 ∨ ∀ g, nextTurn level i (continues (items' ++ [item]).length)
        (items' ++ [item]) f = .ok (.done (items' ++ [item])) g →
          ∀ t, x.Meets t → continues (items' ++ [item]).length (announced level.room t) = false :=
      hstop.imp id <| .imp id fun hstop g hg => hstop _ g (by rw [itemTurn, bind_of_ok hitem, hg])
    apply ((follows_nextTurn ⟨hnear, ht, hf, .found hr, .found hr'⟩ hstop).and
      (ends_nextTurn (E := fun e _ => e.elim) (excused_true _) ht (.found hr))
      (ends_nextTurn (E := fun e _ => e.elim) (excused_true _) hf (.found hr'))).imp
    rintro turn turn' u g ⟨hboth, hu, hg⟩
    cases hboth with
    | done h =>
      obtain ⟨⟨rfl, rfl⟩, hnear⟩ := h
      exact .done ⟨rfl, hnear⟩
    | again h =>
      obtain ⟨⟨rfl, rfl⟩, hx⟩ := h
      exact .again ⟨rfl, hx.mono False.elim, .of_announced (hcont _) hu.2.2,
        .of_announced (hcont _) hg.2.2⟩
    | alone h => exact .alone h.2

theorem follows_listItems {continues : Nat → Marker → Bool} {kind : Container}
    (hbody : Nested body) (hx : x.InLine loose s e) (hcontent : (s.ahead 0).tag.isContent = true)
    (hcontent' : (e.ahead 0).tag.isContent = true) (ha : Announces s marker)
    (ha' : Announces e marker) (hn : marker.heads.length = n) (hpos : 0 < n)
    (hcont : ∀ count m, continues count m = true → m.heads.length = n)
    (hstop : x.free ∨ i ≠ 0 ∨ ∃ b f, listItems level body n i continues kind e = .ok b f ∧
      ∀ span items, b = .container span kind items →
        ∀ t, x.Meets t → continues items.length (announced level.room t) = false) :
    Follows x.loss (listItems level body n i continues kind)
      (listItems level body n i continues kind) s e
      (fun b b' t f => b = b'.moved x.origin ∧ x.Near t f) E := by
  let Stops (items : List Block) : Prop :=
    ∀ t, x.Meets t → continues items.length (announced level.room t) = false
  apply Follows.seq (Follows.self (Q := fun tok tok' u g => tok = s.ahead 0 ∧ tok' = e.ahead 0 ∧
    s.Looks u ∧ e.Looks g) (Follows.peek (.refl hx.sound) (.refl hx.sound')
      fun u g hu hg _ _ => ⟨rfl, rfl, hu, hg⟩))
  rintro _ _ t f ⟨⟨rfl, rfl, ht, hf⟩, hpeek⟩
  rw [hx.start]
  have hleads : x.free ∨ i ≠ 0 ∨ Leads (itemTurn level body n i continues) Stops [] f := by
    refine hstop.imp id (.imp id ?_)
    rintro ⟨b, g, hb, hstop⟩
    obtain ⟨tok, u, items, v, start, stop, hpeek', hloop, rfl⟩ := exists_of_listItems hb
    obtain ⟨-, rfl⟩ := EStateM.Result.ok.inj (hpeek.symm.trans hpeek')
    exact .of_loop hloop (hstop _ items rfl)
  have hmarked : Marked (fun _ => True) n t :=
    ⟨by rw [ht.ahead, hcontent], ⟨marker, ha.looks ht, hn⟩, t.spare_true _⟩
  have hmarked' : Marked (fun _ => True) n f :=
    ⟨by rw [hf.ahead, hcontent'], ⟨marker, ha'.looks hf, hn⟩, f.spare_true _⟩
  have hstart : Listing x loose n [] [] t f := ⟨rfl, hx.looks ht hf, hmarked, hmarked'⟩
  apply Follows.seqLost (Follows.loop (fun bs bs' u g => Listing x loose n bs bs' u g ∧
      (x.free ∨ i ≠ 0 ∨ Leads (itemTurn level body n i continues) Stops bs' g))
    (fun _ _ u g => x.Beyond u ∧ x.Over g)
    (Q := fun bs bs' u g => bs = bs'.map (.moved x.origin) ∧ x.Near u g) ⟨hstart, hleads⟩
    ?_ ?_ ?_ ?_ ?_)
  · exact fun _ => (Advances.bind (advances_endCovering _ _) fun _ => .pure _).stays
  · exact fun _ => (Advances.bind (advances_endCovering _ _) fun _ => .pure _).stays_over
  · rintro _ items u g ⟨rfl, hnear⟩
    apply Follows.bind
    apply follows_endCovering hnear.lastEnd
    exact fun stop => Follows.pure ⟨(Block.container_moved ..).symm, hnear⟩
  · rintro bs bs' u g ⟨h, hleads⟩
    apply (follows_itemTurn hbody hcont hpos h (hleads.imp id <| .imp id fun hleads _ _ hturn =>
      hleads.of_done hturn)).self.imp
    rintro turn turn' v k ⟨hboth, hturn⟩
    cases hboth with
    | done h => exact .done h
    | again h =>
      exact .again ⟨h, hleads.imp id <| .imp id fun hleads => hleads.of_again hturn⟩
    | alone h => exact .alone h
  · exact fun _ _ u g h => (loses_itemTurn hbody hpos h.1).mono (fun _ _ h => .inl h) fun _ _ h => h
  · exact fun items => (advances_itemTurn hbody.advances n items).stays
  · exact fun _ _ items => (advances_itemTurn hbody.advances n items).stays_over
  · exact fun _ _ _ _ h _ _ => h.2

theorem follows_task (hbody : Nested body) (hx : x.InLine loose s e)
    (htag : (e.ahead 0).tag = .leftBracket) :
    Follows x.loss (task body i) (task body i) s e
      (fun b b' t f => b = b'.moved x.origin ∧ x.Near t f) E := by
  have hnl : (e.ahead 0).tag ≠ .newline := by simp [htag]
  apply Follows.bind
  apply Follows.eat hx.toAbreast (.refl hx.sound) (.refl hx.sound')
    (hx.cons (by rw [htag]; rfl))
  intro t f ht hf _
  have hx' := hx.eats ht hf hnl
  apply Follows.seq ((follows_directives hx').and
    (ends_directives (E := fun e _ => e.elim) hx'.sound (t.spare_true _))
    (ends_directives (E := fun e _ => e.elim) hx'.sound' (f.spare_true _)))
  rintro task _ u g ⟨⟨rfl, hx'⟩, ⟨-, hu, -⟩, -, hg, -⟩
  exact follows_bodied hbody hx' (((ht.reads hnl).scan hu).lastEnd_eq hx.firm.toSteady)
    (((hf.reads hnl).scan hg).lastEnd_eq hx.firm'.toSteady)

theorem follows_block (hbody : marker.opensBody = true → Nested body) (hx : x.InLine loose s e)
    (hcontent : (s.ahead 0).tag.isContent = true) (hcontent' : (e.ahead 0).tag.isContent = true)
    (ha : Announces s marker) (ha' : Announces e marker)
    (hstop : x.free ∨ i ≠ 0 ∨ x.Closes level.room (block level body i marker) e) :
    Follows x.loss (block level body i marker) (block level body i marker) s e
      (fun b b' t f => b = b'.moved x.origin ∧ x.Near t f) E := by
  have hline := (Tag.isContent_iff.1 hcontent').2
  cases marker with
  | header size => exact follows_header hx ha'
  | task => exact follows_task (hbody rfl) hx (ha'.cons rfl).2
  | list =>
    apply follows_listItems (n := 1) (hbody rfl) hx hcontent hcontent' ha ha' rfl (by decide)
    · intro count m hm
      rw [of_decide_eq_true hm]
      rfl
    · refine hstop.imp id (.imp id ?_)
      rintro ⟨b, f, hb, hstop⟩
      refine ⟨b, f, hb, ?_⟩
      rintro span items rfl t ht
      exact hstop t ht
  | ordered first =>
    apply follows_listItems (n := 2) (hbody rfl) hx hcontent hcontent' ha ha' rfl (by decide)
    · intro count m hm
      rw [of_decide_eq_true hm]
      rfl
    · refine hstop.imp id (.imp id ?_)
      rintro ⟨b, f, hb, hstop⟩
      refine ⟨b, f, hb, ?_⟩
      rintro span items rfl t ht
      exact hstop t ht
  | table =>
    apply follows_table (hbody rfl) hx (ha'.cons rfl).2
    refine hstop.imp id (.imp id ?_)
    rintro ⟨b, f, hb, hstop⟩ t ht
    obtain ⟨span, header, rows, rfl⟩ := exists_of_table hb
    exact of_decide_eq_false (hstop t ht)
  | separator => exact follows_separator hx (ha'.cons rfl).2
  | raw => exact follows_rawBlock hx hline
  | paragraph =>
    apply (follows_paragraph (p := ⟨level, i, .block⟩) hx).imp
    exact fun b b' t f h => ⟨h.1, h.2.1 rfl⟩

theorem follows_opened (hbody : level.room ≠ 0 → Nested body) (hx : x.Abreast loose s e)
    (hs : s.Steady) (he : e.Steady) (hcontent : (s.ahead 0).tag.isContent = true)
    (hcontent' : (e.ahead 0).tag.isContent = true)
    (hstop : x.free ∨ i ≠ 0 ∨ x.Closes level.room (opened level body i) e) :
    Follows x.loss (opened level body i) (opened level body i) s e
      (fun b b' t f => b = b'.moved x.origin ∧ x.Near t f) E := by
  apply Follows.seq ((follows_dispatch hx).and
    (ends_dispatch (E := fun e _ => e.elim) hs.sound (s.spare_true 0) (by decide))
    (ends_dispatch (E := fun e _ => e.elim) he.sound (e.spare_true 0) (by decide))).self
  rintro marker _ u g ⟨⟨⟨rfl, hu, hg⟩, ⟨-, -, ha, hroom⟩, -, -, ha', -⟩, hdispatch⟩
  have hline : x.InLine loose u g := by
    refine ⟨hx.looks hu hg, (hs.looks hu).firm ?_, (he.looks hg).firm ?_⟩
    · rw [hu.ahead, (Tag.isContent_iff.1 hcontent).1]
    · rw [hg.ahead, (Tag.isContent_iff.1 hcontent').1]
  have ha := ha.looks hu
  have ha' := ha'.looks hg
  apply Follows.bind
  apply Follows.record
  apply follows_block (fun ho => hbody (hroom ho)) (hline.noting _ _) ?_ ?_ ⟨ha.heads, ha.pos⟩
    ⟨ha'.heads, ha'.pos⟩
  · refine hstop.imp id (.imp id ?_)
    rintro ⟨b, k, hb, hstop⟩
    rw [opened, bind_of_ok hdispatch] at hb
    exact ⟨b, k, hb, hstop⟩
  · rw [Lexer.ahead_onCursor, hu.ahead, hcontent]
  · rw [Lexer.ahead_onCursor, hg.ahead, hcontent']

theorem announced_of_abreast {room : Nat} {marker marker' : Marker} (hx : x.Abreast loose s e)
    (h : dispatch room s = .ok marker t) (h' : dispatch room e = .ok marker' f) :
    announced room s = announced room e := by
  have hfollows := ((follows_dispatch (L := .none) (E := fun _ _ => False) hx).of_ok
    h).resolve_left And.left
  rw [← announced_of_dispatch hx.sound h, ← announced_of_dispatch hx.sound' h']
  exact (hfollows.of_ok h').1

theorem follows_nextBlock (hbody : level.room ≠ 0 → Nested body) (h : Between x i s e)
    (hi : x.free ∨ i ≠ 0) :
    Follows x.loss (nextBlock level body i) (nextBlock level body i) s e
      (fun r r' t f => r = r'.map (.moved x.origin) ∧ x.Near t f) E := by
  rw [nextBlock_eq]
  apply Follows.seq (follows_lineStart h)
  rintro r r' t f ⟨hlines, ⟨ht, hfound⟩, hf, hfound'⟩
  cases hlines with
  | within hx hne =>
    dsimp only
    split
    · exact Follows.pure ⟨rfl, .within hx hne⟩
    · cases hfound with
      | line _ hcontent _ _ =>
      cases hfound' with
      | line _ hcontent' _ _ =>
      apply Follows.seqLost (follows_opened hbody hx ht hf hcontent hcontent' (hi.imp id .inl))
      · exact fun _ => (Advances.pure _).stays
      · exact fun _ => (Advances.pure _).stays_over
      · rintro _ b v k ⟨rfl, hn⟩
        exact Follows.pure ⟨rfl, hn⟩
  | past hp =>
    cases hfound with
    | ended => exact Follows.pure ⟨rfl, .past hp⟩
    | @line m _ hm hcontent _ _ =>
      dsimp only
      split
      · exact Follows.pure ⟨rfl, .past hp⟩
      · next hmi =>
        have hfree : x.free := by
          rcases hp.rear with hfree | hb
          · exact hfree
          · have hm := hb.line m hm
            exact hi.resolve_right fun hi => hmi (by omega)
        -- A block beyond the stretch covers a byte of it, so it is lost as a whole.
        refine Follows.of_loses ?_ (Ends.pure (.of_free hfree hf hp.ended))
        apply Ends.seq (ends_opened (excused_true _) (fun hr => (hbody hr).ends _) ht hcontent (t.spare_true _))
        exact fun b v hv => Ends.pure (Stretch.lost hp.cut_le hv.steady hv.lt)

theorem follows_blocks (hbody : level.room ≠ 0 → Nested body) (hadv : ∀ i, Advances (body i))
    (h : Between x i s e) (hi : x.free ∨ i ≠ 0) :
    Follows x.loss (blocks level body i) (blocks level body i) s e
      (fun bs bs' t f => bs = bs'.map (.moved x.origin) ∧ x.Near t f) E := by
  apply Follows.loop (fun bs bs' s e => bs = bs'.map (.moved x.origin) ∧ Between x i s e)
    (fun _ _ _ _ => False) ⟨rfl, h⟩
  · rintro _ bs s e ⟨rfl, h⟩
    apply Follows.seqLost ((follows_nextBlock hbody h hi).and
      (ends_nextBlock (E := fun e _ => e.elim) (excused_true _) (fun hr => (hbody hr).ends _) h.steady h.rests)
      (ends_nextBlock (E := fun e _ => e.elim) (excused_true _) (fun hr => (hbody hr).ends _) h.steady'
        h.rests'))
    · intro r
      cases r with
      | none => exact (Advances.pure _).stays
      | some b => exact (Advances.pure _).stays
    · intro r
      cases r with
      | none => exact (Advances.pure _).stays_over
      | some b => exact (Advances.pure _).stays_over
    · rintro _ r t f ⟨⟨rfl, hn⟩, ht, hf⟩
      cases r with
      | none => exact Follows.pure (.done ⟨rfl, hn⟩)
      | some b =>
        obtain ⟨u, hu⟩ := ht
        obtain ⟨v, hv⟩ := hf
        have hu := hu.spans
        have hv := hv.spans
        exact Follows.pure (.again ⟨by simp, hn, hu.steady, hv.steady, hu.rests, hv.rests⟩)
  · exact fun _ _ _ _ h => h.elim
  · exact fun bs => (advances_blockTurn hadv bs).stays
  · exact fun _ _ bs => (advances_blockTurn hadv bs).stays_over
  · exact fun _ _ _ _ h => h.elim

theorem nested_body {ruler : Ruler} {room : Nat} (hroom : room ≠ 0) :
    Nested (Parse.body ruler room) := by
  -- By induction on the number of bodies that may be opened.
  induction room with
  | zero => exact absurd rfl hroom
  | succ room ih =>
    refine ⟨fun _ E i s _ => bodied_body hroom E i s (excused_true _), fun _ => advances_body _, ?_⟩
    intro E i x s e h hi
    have hlevel : (⟨ruler, room⟩ : Level).room ≠ 0 → Nested (Parse.body ruler room) := ih
    exact follows_blocks hlevel (fun _ => advances_body _) h hi

end Parse

end TaskMarkup
