import TaskMarkup.Proofs.Grammar.Block
import TaskMarkup.Proofs.Grammar.Plain
import TaskMarkup.Proofs.Token.Outline

namespace TaskMarkup

namespace Rule.Ends

variable {ε σ α β : Type} {E : ε → Lexer σ → Prop} {s : Lexer σ} {Q : α → Lexer σ → Prop} {b : β}
  {step : β → Rule ε σ (Turn α β)}

theorem turns_internal (h : Ends Fault.IsInternal (step b) s (fun turn t => turn.Gives (Q · t)
      fun b => ∀ n, Ends Fault.IsInternal (Rule.turns step n b) t Q E) E) (n : Nat) :
    Ends Fault.IsInternal (Rule.turns step n b) s Q E := by
  cases n with
  | zero => exact throw id
  | succ n =>
    refine bind (h.imp fun turn t ht => ?_)
    cases turn with
    | done a => exact pure ht
    | again b => exact ht n

theorem loop_internal (h : ∀ n, Ends Fault.IsInternal (Rule.turns step n b) s Q E) :
    Ends Fault.IsInternal (Rule.loop step b) s Q E :=
  bind (get (h _))

end Rule.Ends

def Block.bare (b : Block) : Block := b.mapSpan fun _ => ⟨0, 0, 0⟩

theorem Block.bare_container (span : Span) (kind : Container) (bs : List Block) :
    (Block.container span kind bs).bare = .container ⟨0, 0, 0⟩ kind (bs.map bare) := by
  rw [bare, mapSpan, mapSpans_eq_map]
  rfl

namespace Point

def marker : Option Nat → Marker
  | none => .list
  | some n => .ordered n

def size : Option Nat → Nat
  | none => 1
  | some _ => 2

def kind : Option Nat → Container
  | none => .list
  | some first => .orderedList first

mutual

def node : Point → Block
  | .mk word first points => .container ⟨0, 0, 0⟩ .listItem
      (.paragraph ⟨0, 0, 0⟩ [.text ⟨0, 0, 0⟩ (String.ofList word)] ::
        if points.isEmpty then [] else [.container ⟨0, 0, 0⟩ (kind first) (nodes points)])

def nodes : List Point → List Block
  | [] => []
  | p :: ps => p.node :: nodes ps

end

def list (first : Option Nat) (points : List Point) : Block :=
  .container ⟨0, 0, 0⟩ (kind first) (nodes points)

theorem marker_ne_paragraph (number : Option Nat) : marker number ≠ .paragraph := by
  cases number <;> simp [marker]

variable {width room i : Nat} {number : Option Nat} {l : Line} {ls : List Line}
  {signs toks : List Token} {s t : Lexer Cursor}

theorem Signs.length (h : Signs number signs) : signs.length = size number := by
  cases h <;> rfl

theorem Ahead.ne_nil (h : Ahead width ls toks) : toks ≠ [] := by
  cases h
  simp

theorem Ahead.isContent (h : Ahead width ls toks) :
    (toks.head?.map Token.tag).any Tag.isContent = true := by
  obtain ⟨hsigns⟩ := h
  generalize Line.number _ = number at hsigns
  cases hsigns with
  | dash htag | number htag => simp [htag, Tag.isContent, Tag.isInlineSpace, Tag.endsLine]

theorem Behind.eq_nil_or_newline (h : Behind width ls toks) :
    (ls = [] ∧ toks = []) ∨ ∃ nl us, toks = nl :: us ∧ nl.tag = .newline := by
  cases h with
  | nil => exact .inl ⟨rfl, rfl⟩
  | newline hnl | line hnl => exact .inr ⟨_, _, rfl, hnl⟩

theorem Ahead.classified (h : Ahead width (l :: ls) s.pending) :
    Parse.classified s = marker l.number := by
  obtain ⟨toks, hp⟩ : ∃ toks, s.pending = toks := ⟨_, rfl⟩
  rw [hp] at h
  obtain ⟨hsigns, hspace⟩ := h
  generalize l.number = number at hsigns ⊢
  cases hsigns with
  | @dash t htag =>
    simp [Parse.classified, Lexer.ahead, hp, htag, hspace, Token.run, Tag.endsMarker,
      Tag.isInlineSpace, marker]
  | @number t dot n htag hvalue hdot =>
    simp [Parse.classified, Lexer.ahead, hp, htag, hspace, hdot, hvalue, Tag.endsMarker,
      Tag.isInlineSpace, marker]

theorem Ahead.announced (h : Ahead width (l :: ls) s.pending) (hroom : room ≠ 0) :
    Parse.announced room s = marker l.number := by
  rw [Parse.announced, h.classified]
  simp [hroom]

inductive Reached (src : Source) (width : Nat) : List Line → Lexer Cursor → Prop
  | ended {t : Lexer Cursor} : t.Sound → t.source = src → t.pending = [] → t.atEof = true →
      Reached src width [] t
  | line {l : Line} {ls : List Line} {t : Lexer Cursor} : t.Sound → t.source = src →
      Ahead width (l :: ls) t.pending → t.observer.lineIndent = some l.depth →
      Reached src width (l :: ls) t

namespace Reached

variable {src : Source}

theorem sound (h : Reached src width ls t) : t.Sound := by
  cases h <;> assumption

theorem source (h : Reached src width ls t) : t.source = src := by
  cases h <;> assumption

theorem pending_nil (h : Reached src width [] t) : t.pending = [] := by
  cases h
  assumption

theorem looks (h : Reached src width ls s) (ht : s.Looks t) : Reached src width ls t := by
  cases h with
  | ended hs hsrc hp he =>
    exact .ended ht.sound (ht.source.trans hsrc) (ht.pending.trans hp) (ht.atEof hs he)
  | line hs hsrc ha hline =>
    exact .line ht.sound (ht.source.trans hsrc) (ht.pending ▸ ha) (by rw [ht.observer, hline])

theorem group {first : Option Nat} {points : List Point} {rest : List Line}
    (h : Reached src width (allLines i first points ++ rest) s) (hne : points ≠ []) :
    Ahead width (allLines i first points ++ rest) s.pending ∧ s.observer.lineIndent = some i := by
  obtain ⟨word, ls, hls⟩ := exists_allLines hne i first
  rw [hls] at h ⊢
  cases h with
  | line _ _ ha hline => exact ⟨ha, hline⟩

theorem announced (h : Reached src width (l :: ls) s) (hroom : room ≠ 0) :
    Parse.announced room s = marker l.number := by
  cases h with
  | line _ _ ha _ => exact ha.announced hroom

end Reached

end Point

namespace Parse

open Rule Point

variable {E : Empty → Lexer Cursor → Prop} {F : Fault → Prop} {src : Source} {ruler : Ruler}
  {level : Level} {body : Nat → Parse (List Block)} {room i k : Nat} {ls : List Line}
  {s t : Lexer Cursor} {Q : Block → Lexer Cursor → Prop}

theorem ends_lineStart_reached {width : Nat} (h : Reached src width ls s) (ruler : Ruler) :
    Ends F (lineStart ruler) s (fun r t => r = ls.head?.map Line.depth ∧ t = s) E := by
  cases h with
  | ended hs _ _ he => exact ends_lineStart_of_atEof hs he
  | line hs _ ha hline =>
    exact ends_lineStart_of_measured hs
      (Bool.eq_false_iff.2 fun he => ha.ne_nil (hs.pending_of_atEof he)) hline

theorem ends_measureIndent_spaces {gap rest : List Token} (hs : s.Sound)
    (hp : s.pending = gap ++ rest) (hgap : ∀ t ∈ gap, t.tag = .spaces)
    (hrest : ∀ t ∈ rest.head?, t.tag.isInlineSpace = false)
    (hmax : ∀ n ∈ ruler.maxColumns, Text.byteSize (Token.texts gap) ≤ n) (hk : s.Spare F k)
    (hk' : k < 97) :
    Ends F (measureIndent ruler) s (fun m t => m = Text.byteSize (Token.texts gap) / ruler.width ∧
      t.Sound ∧ t.source = s.source ∧ t.pending = rest) E :=
  Ends.seq (ends_indentColumns_spaces hs hp hgap hrest hmax hk hk') fun _ _ ⟨hn, hskip, hpt⟩ =>
    Ends.pure ⟨by rw [hn], hskip.sound, hskip.source, hpt⟩

structure Fathoms (ruler : Ruler) (src : Source) : Prop where
  width : 0 < ruler.width
  columns : ∀ n ∈ ruler.maxColumns, src.size ≤ n

theorem ends_continueParagraph_line {p : ParagraphContext} {toks : List Token} {nl : Token}
    (hs : s.Sound) (hsrc : s.source = src) (hp : s.pending = nl :: toks)
    (hbehind : Behind p.level.ruler.width ls (nl :: toks))
    (hruler : Fathoms p.level.ruler src)
    (hnext : ∀ l ∈ ls.head?, l.depth < p.indent ∨ p.level.room ≠ 0) :
    Ends Fault.IsInternal (continueParagraph p) s (fun r t => r = none ∧
      Reached src p.level.ruler.width ls t) E := by
  refine Ends.bind (Ends.eat (.refl hs) (s.spare_internal 0) (by decide) hp fun t ht hpt _ => ?_)
  have hsrct := ht.source.trans hsrc
  cases hbehind with
  | newline hnl =>
    have hgap : ∀ t ∈ ([] : List Token), t.tag = .spaces := by simp
    refine Ends.seq (ends_measureIndent_spaces ht.sound (hpt.trans (List.nil_append []).symm) hgap
      (by simp) (by simp) (t.spare_internal 0) (by decide)) ?_
    rintro - u ⟨-, hu, hsrcu, hpu⟩
    refine Ends.bind (Ends.peekTag (.refl hu) (by decide) (u.spare_internal 0) (by decide)
      fun v hv _ hz => ?_)
    rw [Lexer.ahead_zero_of_nil hpu]
    have hpv := hv.pending.trans hpu
    exact Ends.pure ⟨rfl, .ended hv.sound (hv.source.trans (hsrcu.trans hsrct)) hpv
      ((hv.sound.atEof_iff hz).2 hpv)⟩
  | @line l ls _ gap us hnl hgap hsize hahead =>
    have hcontent := hahead.isContent
    have hspace : ∀ u ∈ us.head?, u.tag.isInlineSpace = false := fun u hu => by
      rw [Option.mem_def.1 hu] at hcontent
      exact (Tag.isContent_iff.1 (by simpa using hcontent)).1
    have hle := ht.sound.byteSize_texts_le hpt
    refine Ends.seq (ends_measureIndent_spaces ht.sound hpt hgap hspace (fun n hn =>
      Nat.le_trans hle (hsrct ▸ hruler.columns n hn)) (t.spare_internal 0) (by decide)) ?_
    rw [hsize, Nat.mul_div_cancel_left _ hruler.width]
    rintro _ u ⟨rfl, hu, hsrcu, hpu⟩
    rw [← hpu, ← Lexer.isContent_ahead_iff] at hcontent
    refine Ends.look (.refl hu) (by decide) fun v hv => ?_
    rw [(Tag.isContent_iff.1 hcontent).2, if_neg Bool.false_ne_true]
    have hw : Reached src p.level.ruler.width (l :: ls) (v.onCursor (.onLine (some l.depth))) :=
      .line hv.sound.onCursor (hv.source.trans (hsrcu.trans hsrct))
        (by rwa [Lexer.pending_onCursor, hv.pending, hpu]) rfl
    refine Ends.bind (Ends.setLineIndent ?_)
    split
    · exact Ends.pure ⟨rfl, hw⟩
    · next hdeep =>
      have hroom := (hnext l rfl).resolve_left hdeep
      refine Ends.seq (ends_announced hw.sound (Lexer.spare_internal _ 0) (by decide)) ?_
      rintro _ x ⟨hx, -, rfl⟩
      rw [hw.announced hroom, if_neg (marker_ne_paragraph _)]
      exact Ends.pure ⟨rfl, hw.looks hx⟩

theorem ends_inlineTurn_behind {inner : List Style → Parse (List Inline × InlineStop)}
    {c : InlineContent} (hs : s.Sound) (hsrc : s.source = src)
    (hbehind : Behind level.ruler.width ls s.pending)
    (hruler : Fathoms level.ruler src) (hnext : ∀ l ∈ ls.head?, l.depth < i ∨ level.room ≠ 0) :
    Ends Fault.IsInternal (inlineTurn ⟨level, i, .block⟩ [] inner c) s (fun turn t =>
      turn = .done (c.flush i, .over) ∧ Reached src level.ruler.width ls t) E := by
  refine Ends.bind (Ends.peek (.refl hs) (by decide) (s.spare_internal 0) (by decide)
    fun t ht _ hz => ?_)
  have hsrct := ht.source.trans hsrc
  rcases hbehind.eq_nil_or_newline with ⟨rfl, hp⟩ | ⟨nl, us, hp, hnl⟩
  · rw [Lexer.ahead_zero_of_nil hp]
    have hpt := ht.pending.trans hp
    exact Ends.pure ⟨rfl, .ended ht.sound hsrct hpt ((ht.sound.atEof_iff hz).2 hpt)⟩
  · rw [Lexer.ahead_zero_of_cons hp, hnl]
    rw [hp] at hbehind
    refine Ends.seq (ends_continueParagraph_line (p := ⟨level, i, .block⟩) ht.sound hsrct
      (ht.pending.trans hp) hbehind hruler hnext) ?_
    rintro _ u ⟨rfl, hu⟩
    exact Ends.pure ⟨rfl, hu⟩

theorem ends_paragraph_single {p : ParagraphContext} {tok : Token} {toks : List Token}
    {Q : Lexer Cursor → Prop} (hs : s.Sound) (hp : s.pending = tok :: toks)
    (htok : tok.tag.isLiteral p.mode = true)
    (h : ∀ inner c t, t.Sound → t.source = s.source → t.pending = toks →
      Ends Fault.IsInternal (inlineTurn p [] inner c) t
        (fun turn u => turn = .done (c.flush p.indent, .over) ∧ Q u) E) :
    Ends Fault.IsInternal (paragraph p) s (fun b t =>
      b.bare = .paragraph ⟨0, 0, 0⟩ [.text ⟨0, 0, 0⟩ (String.ofList tok.text)] ∧ Q t) E := by
  refine Ends.bind (Ends.peek (.refl hs) (by decide) (s.spare_internal 0) (by decide)
    fun t ht _ _ => ?_)
  refine Ends.seq (Q := fun r u =>
    r.1 = [.text ⟨tok.start, tok.stop, p.indent⟩ (String.ofList tok.text)] ∧ Q u)
    (Ends.loop_internal (Ends.turns_internal ?_)) ?_
  · refine (ends_inlineTurn_literal ht.sound (ht.pending.trans hp) htok (t.spare_internal 0)
      (by decide)).imp ?_
    rintro _ u ⟨rfl, hu, hpu, -⟩
    refine Ends.turns_internal ((h _ _ u hu.sound (hu.source.trans ht.source) hpu).imp ?_)
    rintro _ v ⟨rfl, hv⟩
    exact ⟨rfl, hv⟩
  · rintro ⟨children, ending⟩ u ⟨hchildren, hu⟩
    obtain rfl : children = _ := hchildren
    exact Ends.bind (Ends.endFrom (Ends.pure ⟨rfl, hu⟩))

theorem ends_paragraph_word {word : Token} {toks : List Token} (hs : s.Sound)
    (hsrc : s.source = src) (hp : s.pending = word :: toks) (hword : word.tag = .word)
    (hbehind : Behind level.ruler.width ls toks)
    (hruler : Fathoms level.ruler src) (hnext : ∀ l ∈ ls.head?, l.depth < i ∨ level.room ≠ 0) :
    Ends Fault.IsInternal (paragraph ⟨level, i, .block⟩) s (fun b t =>
      b.bare = .paragraph ⟨0, 0, 0⟩ [.text ⟨0, 0, 0⟩ (String.ofList word.text)] ∧
        Reached src level.ruler.width ls t) E :=
  ends_paragraph_single hs hp (by rw [hword]; rfl) fun _ _ _ ht hsrct hpt =>
    ends_inlineTurn_behind ht (hsrct.trans hsrc) (hpt ▸ hbehind) hruler hnext

theorem ends_blockTurn_passes {bs : List Block} {Q : Lexer Cursor → Prop}
    (h : Ends F (lineStart level.ruler) s (fun r t => (∀ m ∈ r, m < i) ∧ Q t) E) :
    Ends F (blockTurn level body i bs) s (fun turn t => turn = .done bs ∧ Q t) E := by
  refine Ends.seq (Q := fun r t => r = none ∧ Q t) ?_
    (by rintro _ t ⟨rfl, ht⟩; exact Ends.pure ⟨rfl, ht⟩)
  rw [nextBlock_eq]
  refine Ends.seq h ?_
  rintro (_ | m) t ⟨hm, ht⟩
  · exact Ends.pure ⟨rfl, ht⟩
  · simp only [if_pos (hm m rfl)]
    exact Ends.pure ⟨rfl, ht⟩

theorem ends_blockTurn_closed {width : Nat} {bs : List Block} (h : Reached src width ls s)
    (hls : ∀ l ∈ ls.head?, l.depth < i) :
    Ends F (blockTurn level body i bs) s (fun turn t => turn = .done bs ∧ Reached src width ls t)
      E :=
  ends_blockTurn_passes ((ends_lineStart_reached h level.ruler).imp
    fun _ _ ⟨hr, ht⟩ => ⟨by simpa [hr] using hls, ht ▸ h⟩)

theorem ends_blockTurn_opened {bs : List Block} (hs : s.Sound) (hne : s.pending ≠ [])
    (hline : s.observer.lineIndent = some i) (h : Ends F (opened level body i) s Q E) :
    Ends F (blockTurn level body i bs) s (fun turn t => ∃ b, turn = .again (bs ++ [b]) ∧ Q b t)
      E := by
  refine Ends.seq (Q := fun r t => ∃ b, r = some b ∧ Q b t) ?_
    (by rintro _ t ⟨b, rfl, hb⟩; exact Ends.pure ⟨b, rfl, hb⟩)
  rw [nextBlock_eq]
  refine Ends.seq (ends_lineStart_of_measured hs
    (Bool.eq_false_iff.2 fun he => hne (hs.pending_of_atEof he)) hline) ?_
  rintro _ t ⟨rfl, rfl⟩
  simp only [if_neg (Nat.lt_irrefl i)]
  exact Ends.seq h fun b u hb => Ends.pure ⟨b, rfl, hb⟩

def Lists (E : Empty → Lexer Cursor → Prop) (src : Source) (ruler : Ruler) (room : Nat) : Prop :=
  ∀ {i first points rest s}, points ≠ [] → heights points ≤ room → s.Sound → s.source = src →
    Ahead ruler.width (allLines i first points ++ rest) s.pending →
    (∀ l ∈ rest.head?, l.depth < i) →
    Ends Fault.IsInternal (block ⟨ruler, room⟩ (Parse.body ruler room) i (marker first)) s
      (fun b t => b.bare = Point.list first points ∧ Reached src ruler.width rest t) E

section

variable {first : Option Nat} {points : List Point} {rest : List Line} {word : Token}
  {toks : List Token}

theorem announced_group (hahead : Ahead ruler.width (allLines i first points ++ rest) s.pending)
    (hne : points ≠ []) (hroom : room ≠ 0) : announced room s = marker first := by
  obtain ⟨word, ls, hls⟩ := exists_allLines hne i first
  rw [hls] at hahead
  exact hahead.announced hroom

theorem announced_word (room : Nat) (hp : s.pending = word :: toks) (hword : word.tag = .word) :
    announced room s = .paragraph := by
  simp [announced, classified, Lexer.ahead_zero_of_cons hp, hword, Marker.opensBody]

theorem ends_body_point (hruler : Fathoms ruler src) (hlists : Lists E src ruler room)
    (hheight : heights points ≤ room) (hs : s.Sound) (hsrc : s.source = src)
    (hp : s.pending = word :: toks) (hword : word.tag = .word)
    (hline : s.observer.lineIndent = some i)
    (hbehind : Behind ruler.width (allLines i first points ++ rest) toks)
    (hrest : ∀ l ∈ rest.head?, l.depth < i) :
    Ends Fault.IsInternal (Parse.body ruler (room + 1) i) s (fun bs t =>
      Block.container ⟨0, 0, 0⟩ .listItem (bs.map Block.bare) =
        (Point.mk word.text first points).node ∧ Reached src ruler.width rest t) E := by
  have hnext : ∀ l ∈ (allLines i first points ++ rest).head?, l.depth < i ∨ room ≠ 0 := by
    by_cases hne : points = []
    · subst hne
      exact fun l hl => .inl (hrest l hl)
    · exact fun _ _ => .inr (Nat.ne_of_gt (Nat.lt_of_lt_of_le (heights_pos hne) hheight))
  have hparagraph := ends_opened_announced (E := E) ⟨ruler, room⟩ (Parse.body ruler room) i hs
    (announced_word room hp hword) (s.spare_internal 0) (by decide) fun t ht _ =>
      ends_paragraph_word ht.sound (ht.source.trans hsrc) (ht.pending_eq.trans hp) hword hbehind
        hruler hnext
  refine Ends.loop_internal (Ends.turns_internal
    ((ends_blockTurn_opened hs (by simp [hp]) hline hparagraph).imp ?_))
  rintro _ t ⟨b, rfl, hb, ht⟩
  by_cases hne : points = []
  · subst hne
    refine Ends.turns_internal ((ends_blockTurn_closed ht hrest).imp ?_)
    rintro _ u ⟨rfl, hu⟩
    exact ⟨by simp [node, hb], hu⟩
  · have hroom : room ≠ 0 := Nat.ne_of_gt (Nat.lt_of_lt_of_le (heights_pos hne) hheight)
    obtain ⟨hahead, hlinet⟩ := ht.group hne
    have hlist := ends_opened_announced ⟨ruler, room⟩ (Parse.body ruler room) i ht.sound
      (announced_group hahead hne hroom) (t.spare_internal 0) (by decide) fun u hu _ =>
        hlists hne hheight hu.sound (hu.source.trans ht.source) (hu.pending_eq ▸ hahead) hrest
    refine Ends.turns_internal ((ends_blockTurn_opened ht.sound hahead.ne_nil hlinet hlist).imp ?_)
    rintro _ u ⟨b', rfl, hb', hu⟩
    refine Ends.turns_internal ((ends_blockTurn_closed hu hrest).imp ?_)
    rintro _ v ⟨rfl, hv⟩
    exact ⟨by simp [node, hb, hb', hne, Point.list], hv⟩

theorem ends_listItem_point {p : Point} {number : Option Nat} (hruler : Fathoms ruler src)
    (hlists : Lists E src ruler room) (hheight : p.height ≤ room + 1) (hs : s.Sound)
    (hsrc : s.source = src) (hahead : Ahead ruler.width (p.lines i number ++ rest) s.pending)
    (hrest : ∀ l ∈ rest.head?, l.depth ≤ i) :
    Ends Fault.IsInternal (listItem (Parse.body ruler (room + 1)) (size number) i) s (fun b t =>
      b.bare = p.node ∧ Reached src ruler.width rest t) E := by
  obtain ⟨letters, first, points⟩ := p
  obtain ⟨toks, hp⟩ : ∃ toks, s.pending = toks := ⟨_, rfl⟩
  rw [hp] at hahead
  cases hahead with
  | @line _ _ signs us space word hsigns hspace hword htext hbehind =>
  have hlength : signs.length = size number := hsigns.length
  refine Ends.bind (Ends.peek (.refl hs) (by decide) (s.spare_internal 0) (by decide)
    fun t ht _ _ => ?_)
  have hpt := ht.pending.trans hp
  refine Ends.seq (Ends.eatMany_append ht.sound hpt hlength (t.spare_internal 0) (by decide)) ?_
  rintro - u ⟨hu, hpu, -⟩
  refine Ends.seq (Q := fun _ v => v.Sound ∧ v.source = src ∧ v.pending = word :: us ∧
    v.observer.lineIndent = some (i + 1)) ?_ ?_
  · refine Ends.seq (Ends.eatInlineSpace hu.sound (u.spare_internal 0) (by decide)) ?_
    rintro - v ⟨hv, -⟩
    have hpv : v.pending = word :: us := by
      rw [hv.pending_of_takeWhile, hpu]
      simp [hspace, hword, Tag.isInlineSpace]
    refine Ends.look (.refl hv.sound) (by decide) fun w hw => ?_
    rw [Lexer.ahead_zero_of_cons hpv, hword]
    exact Ends.setLineIndent ⟨hw.sound.onCursor,
      hw.source.trans (hv.source.trans (hu.source.trans (ht.source.trans hsrc))),
      hw.pending.trans hpv, rfl⟩
  · rintro - v ⟨hv, hsrcv, hpv, hline⟩
    rw [height] at hheight
    refine Ends.seq (ends_body_point hruler hlists (by omega) hv hsrcv hpv hword hline hbehind
      fun l hl => Nat.lt_succ_of_le (hrest l hl)) ?_
    rintro bs w ⟨hbs, hw⟩
    refine Ends.bind (Ends.bind (Ends.endFrom (Ends.pure (Ends.pure ⟨?_, hw⟩))))
    rw [Block.bare_container, hbs, htext]

theorem ends_nextTurn_passes {α : Type} {continues : Marker → Bool} {a : α}
    {Q : Lexer Cursor → Prop}
    (h : Ends F (lineStart level.ruler) s (fun r t => (∀ m ∈ r, m ≠ i) ∧ Q t) E) :
    Ends F (nextTurn level i continues a) s (fun turn t => turn = .done a ∧ Q t) E := by
  refine Ends.seq h ?_
  rintro (_ | m) t ⟨hm, ht⟩
  · exact Ends.pure ⟨rfl, ht⟩
  · simp only [if_pos (hm m rfl)]
    exact Ends.pure ⟨rfl, ht⟩

theorem ends_nextTurn_takes {α : Type} {continues : Marker → Bool} {a : α}
    {Q : Lexer Cursor → Prop} (hQ : ∀ t u, Q t → t.Looks u → Q u)
    (h : Ends Fault.IsInternal (lineStart level.ruler) s (fun r t => r = some i ∧ t.Sound ∧
      continues (announced level.room t) = true ∧ Q t) E) :
    Ends Fault.IsInternal (nextTurn level i continues a) s (fun turn t => turn = .again a ∧ Q t)
      E := by
  refine Ends.seq h ?_
  rintro _ t ⟨rfl, hsound, hcontinues, ht⟩
  simp only [ne_eq, not_true_eq_false, if_false]
  refine Ends.seq (ends_announced hsound (Lexer.spare_internal _ 0) (by decide)) ?_
  rintro _ u ⟨hu, -, rfl⟩
  rw [hcontinues]
  exact Ends.pure ⟨rfl, hQ t u ht hu⟩

theorem ends_nextTurn_closed {width : Nat} {continues : Marker → Bool} {bs : List Block}
    (h : Reached src width ls s) (hls : ∀ l ∈ ls.head?, l.depth < i) :
    Ends F (nextTurn level i continues bs) s
      (fun turn t => turn = .done bs ∧ Reached src width ls t) E :=
  ends_nextTurn_passes ((ends_lineStart_reached h level.ruler).imp
    fun _ _ ⟨hr, ht⟩ => ⟨by simpa [hr] using fun l hl => Nat.ne_of_lt (hls l hl), ht ▸ h⟩)

theorem ends_nextTurn_group {width : Nat} {continues : Marker → Bool} {bs : List Block}
    (h : Reached src width (allLines i first points ++ rest) s) (hne : points ≠ [])
    (hroom : level.room ≠ 0) (hcontinues : continues (marker first) = true) :
    Ends Fault.IsInternal (nextTurn level i continues bs) s (fun turn t => turn = .again bs ∧
      Reached src width (allLines i first points ++ rest) t) E := by
  obtain ⟨letters, ls, hls⟩ := exists_allLines hne i first
  rw [hls] at h ⊢
  refine ends_nextTurn_takes (fun _ _ => Reached.looks)
    ((ends_lineStart_reached h level.ruler).imp ?_)
  rintro _ _ ⟨rfl, rfl⟩
  exact ⟨rfl, h.sound, by rwa [h.announced hroom], h⟩

theorem depth_le_of_head {number : Option Nat} (hrest : ∀ l ∈ rest.head?, l.depth < i) :
    ∀ l ∈ (allLines i number points ++ rest).head?, l.depth ≤ i := by
  by_cases hne : points = []
  · subst hne
    exact fun l hl => Nat.le_of_lt (hrest l hl)
  · obtain ⟨letters, ls, hls⟩ := exists_allLines hne i number
    rw [hls]
    rintro l ⟨⟩
    exact Nat.le_refl i

theorem size_map (number : Option Nat) (n : Nat) :
    Point.size (number.map (· + n)) = Point.size number := by
  cases number <;> rfl

theorem ends_items_points {items : List Block} (hruler : Fathoms ruler src)
    (hlists : Lists E src ruler room) (hheight : heights points ≤ room + 1) (hs : s.Sound)
    (hsrc : s.source = src) (hne : points ≠ [])
    (hahead : Ahead ruler.width
      (allLines i (first.map (· + items.length)) points ++ rest) s.pending)
    (hrest : ∀ l ∈ rest.head?, l.depth < i) (n : Nat) :
    Ends Fault.IsInternal (Rule.turns (itemTurn ⟨ruler, room + 1⟩ (Parse.body ruler (room + 1))
      (Point.size first) i fun count m => m = marker (first.map (· + count))) n items) s
      (fun bs t => bs.map Block.bare = items.map Block.bare ++ nodes points ∧
        Reached src ruler.width rest t) E := by
  -- By induction on the points that are left; `items` are those of the points so far.
  induction points generalizing items s n with
  | nil => exact absurd rfl hne
  | cons p ps ih =>
    rw [allLines, List.append_assoc] at hahead
    rw [heights] at hheight
    have hitem := ends_listItem_point (E := E) hruler hlists (by omega) hs hsrc hahead
      (depth_le_of_head hrest)
    rw [size_map] at hitem
    refine Ends.turns_internal (Ends.seq hitem ?_) n
    rintro item t ⟨hbare, ht⟩
    rw [show (first.map (· + items.length)).map (· + 1) =
      first.map (· + (items ++ [item]).length) by cases first <;> simp [Nat.add_assoc]] at ht
    by_cases hps : ps = []
    · subst hps
      refine (ends_nextTurn_closed ht hrest).imp ?_
      rintro _ u ⟨rfl, hu⟩
      exact ⟨by simp [nodes, hbare], hu⟩
    · refine (ends_nextTurn_group ht hps (Nat.succ_ne_zero room) (decide_eq_true rfl)).imp ?_
      rintro _ u ⟨rfl, hu⟩ m
      refine (ih (by omega) hu.sound hu.source hps (hu.group hps).1 m).imp ?_
      rintro bs v ⟨hbs, hv⟩
      exact ⟨by simp [hbs, nodes, hbare], hv⟩

theorem lists (hruler : Fathoms ruler src) (room : Nat) : Lists E src ruler room := by
  -- By induction on the room, of which each level of the outline takes one.
  induction room with
  | zero =>
    intro i first points rest s hne hheight
    exact absurd hheight (Nat.not_le_of_gt (heights_pos hne))
  | succ room ih =>
    intro i first points rest s hne hheight hs hsrc hahead hrest
    have hblock : block ⟨ruler, room + 1⟩ (Parse.body ruler (room + 1)) i (marker first) =
        listItems ⟨ruler, room + 1⟩ (Parse.body ruler (room + 1)) (Point.size first) i
          (fun count m => m = marker (first.map (· + count))) (kind first) := by
      cases first <;> rfl
    rw [hblock]
    refine Ends.bind (Ends.peek (.refl hs) (by decide) (s.spare_internal 0) (by decide)
      fun t ht _ _ => ?_)
    have hfirst : first.map (· + ([] : List Block).length) = first := by cases first <;> rfl
    refine Ends.seq (Ends.loop_internal (ends_items_points hruler ih hheight ht.sound
      (ht.source.trans hsrc) hne (by rwa [hfirst, ht.pending]) hrest)) ?_
    rintro items u ⟨hitems, hu⟩
    refine Ends.bind (Ends.bind (Ends.endFrom (Ends.pure (Ends.pure ⟨?_, hu⟩))))
    rw [Block.bare_container, hitems]
    rfl

end

end Parse

end TaskMarkup
