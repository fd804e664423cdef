import TaskMarkup.Proofs.Document.Origin
import TaskMarkup.Proofs.Origin.Paragraph

namespace TaskMarkup

def Source.NumberedAt (src : Source) (offset n : Nat) : Prop :=
  ∃ before number dot after, tokenize src.chars = before ++ number :: dot :: after ∧
    number.start = offset ∧ number.tag = .number ∧ number.value? = some n ∧ dot.tag = .dot

namespace Block

/-- Two blocks, one behind the other in a sequence, that could not have been one. -/
structure Neighbours (src : Source) (b c : Block) : Prop where
  lists : ∀ span items, b = .container span .list items →
    ∀ span' items', c ≠ .container span' .list items'
  ordered : ∀ span first items, b = .container span (.orderedList first) items →
    ∀ span' first' items', c = .container span' (.orderedList first') items' →
      first' ≠ first + items.length
  paragraphs : ∀ span cs, b = .paragraph span cs → ∀ span' cs', c = .paragraph span' cs' →
    src.BlankBetween span.stop span'.start

def body (src : Source) : Block → List Block
  | .container _ .listItem bs | .container _ (.task _) bs => bs
  | .container span (.tableCell _) bs => bs.filter fun b => '\n' ∈ src.slice span.start b.start
  | _ => []

/-- The body of the block is in sequence, and so are the numbers of its items. -/
structure Sequential (src : Source) (b : Block) : Prop where
  body : (b.body src).IsChain (Neighbours src)
  numbered : ∀ span first items, b = .container span (.orderedList first) items →
    ∀ k item, items[k]? = some item → src.NumberedAt item.start (first + k)

end Block

open Parse Rule Origin

variable {src : Source} {s t u u' t' : Lexer Cursor} {level : Level} {ruler : Ruler}
  {body : Nat → Parse (List Block)} {i n room : Nat} {b c : Block} {bs : List Block}

theorem Parse.classified_ordered (h : classified s = .ordered n) : (s.ahead 0).tag = .number ∧
    (s.ahead 1).tag = .dot ∧ (s.ahead 0).value?.getD 0 = n := by
  unfold classified at h
  dsimp only at h
  split at h
  case h_7 htag =>
    split at h
    · next hc =>
      obtain rfl := Marker.ordered.inj h
      exact ⟨htag, hc.1, rfl⟩
    · simp at h
  case h_4 | h_6 | h_8 => simp at h
  all_goals
    split at h
    · simp at h
    · simp at h

theorem Lexer.Sound.numberedAt (hs : s.Sound) (h : classified s = .ordered n) :
    s.source.NumberedAt s.nextOffset n := by
  obtain ⟨hnumber, hdot, hvalue⟩ := classified_ordered h
  obtain ⟨-, hp⟩ := hs.tag_ahead_zero.resolve_left fun h => by simp [h.1] at hnumber
  have hstart := hs.start_ahead
  have hchars := hs.position.2.2
  generalize s.ahead 0 = number, s.pending.tail = rest at hp hnumber hvalue hstart
  cases rest with
  | nil => simp [Lexer.ahead, hp, Token.eof] at hdot
  | cons dot rest =>
    have hdot : dot.tag = .dot := by simpa [Lexer.ahead, hp] using hdot
    rw [Token.value?, if_pos hnumber, Option.getD_some] at hvalue
    refine ⟨_, number, dot, rest, by rw [hchars, hp], hstart, hnumber, ?_, hdot⟩
    rw [Token.value?, if_pos hnumber, hvalue]

theorem Origin.Item.numberedAt (h : Item src level body i (fun m => m = .ordered n) b) :
    src.NumberedAt b.start n := by
  obtain ⟨s, stop, bs, rfl, hs, htakes, rfl, -⟩ := h
  exact hs.numberedAt (classified_of_announced (of_decide_eq_true htakes) (by simp))

theorem Lexer.Skips.nextOffset_lt (h : s.Skips t) (hs : s.Sound) (hnl : (s.ahead 0).tag = .newline)
    (hc : (t.ahead 0).tag.isContent = true) : s.nextOffset < t.nextOffset := by
  obtain ⟨ws, hp, -⟩ := h.white
  rw [Lexer.nextOffset_of_pending hs h.sound h.source hp]
  cases ws with
  | nil =>
    have hahead : t.ahead 0 = s.ahead 0 := by rw [Lexer.ahead, Lexer.ahead, hp, h.source]; rfl
    simp [hahead, hnl, Tag.isContent, Tag.endsLine] at hc
  | cons w ws =>
    have hpos := (hs.spelled (t := w) (by simp [hp])).size_pos
    rw [Token.texts_cons, Text.byteSize_append]
    simp only [Token.size] at hpos
    omega

theorem Parse.Opens.neighbours (hb : Opens (fun _ => True) level level.body i s u b t)
    (hc : Opens (fun _ => True) level level.body i t u' c t') (hsrc : s.source = src) :
    b.Neighbours src c := by
  obtain ⟨measured, hline, hle⟩ := hc.line
  have hst := hb.skips.toOnward.trans hb.spans.toOnward
  have hdeclined {takes : Marker → Bool} (h : Declines level i takes t) :
      takes (announced level.room u') = false := h measured u' hline hle
  obtain ⟨v, -, hv, hmade⟩ := hb.made bodied_body
  obtain ⟨v', -, -, hmade'⟩ := hc.made bodied_body
  generalize announced level.room u = marker at hmade
  generalize announced level.room u' = marker' at hmade' hdeclined
  refine ⟨?_, ?_, ?_⟩
  · rintro span items rfl span' items' rfl
    cases hmade with | list hitems =>
    cases hmade' with | list =>
    simpa using hdeclined hitems.last
  · rintro span first items rfl span' first' items' rfl rfl
    cases hmade with | ordered hitems =>
    cases hmade' with | ordered =>
    simpa using hdeclined hitems.last
  · rintro span cs rfl span' cs' rfl
    cases hmade with | paragraph hsupplied hread =>
    cases hmade' with | paragraph =>
    cases (ends_paragraph_parted hsupplied.toSteady.placed).of_ok hread with
    | ended hp =>
      have hnil := hc.skips.toOnward.pending_nil hp
      have hcontent := hc.content
      simp [Lexer.ahead_zero_of_nil hnil, Tag.isContent, Tag.endsLine] at hcontent
    | blank htag hblank =>
      rw [hst.source, hsrc] at hblank
      have hstop := hb.spans.covers (by simp)
      have hstart := hc.spans.start
      have hlt := hc.skips.nextOffset_lt hb.spans.steady.sound htag hc.content
      exact hblank.mono (Nat.le_of_eq hstop) (hlt.trans_eq hstart.symm)
    | known h => simpa using hdeclined h

theorem Origin.Strung.isChain (h : Strung level i s bs t) (hsrc : s.source = src) :
    bs.IsChain (Block.Neighbours src) := by
  induction h with
  | nil => exact .nil
  | @cons s u t v b bs hb hbs ih =>
    have hst := (hb.skips.toOnward.trans hb.spans.toOnward).source.trans hsrc
    cases hbs with
    | nil => exact .singleton b
    | cons hc hcs => exact .cons_cons (hb.neighbours hc hsrc) (ih hst)

theorem Origin.Body.isChain (h : Body src (Parse.body ruler room) i bs) :
    bs.IsChain (Block.Neighbours src) := by
  rcases h.strung with rfl | ⟨n, s, t, -, hsrc, hbs⟩
  · exact .nil
  · exact hbs.isChain hsrc

theorem Block.Sequential.of_isChain (h : (b.body src).IsChain (Neighbours src))
    (hb : ∀ span first items, b ≠ .container span (.orderedList first) items) : b.Sequential src where
  body := h
  numbered span first items hordered := absurd hordered (hb span first items)

theorem hereditary_sequential (src : Source) : Hereditary src (Block.Sequential src) where
  made hsrc h := by
    subst hsrc
    cases h with
    | task hbs => exact .of_isChain hbs.isChain (by simp)
    | ordered hitems =>
      refine ⟨.nil, ?_⟩
      rintro _ _ _ ⟨⟩ k item hk
      exact (hitems.item k item hk).numberedAt
    | header | list | table | separator | raw | paragraph => exact .of_isChain .nil (by simp)
  paragraph h := by
    obtain ⟨span, cs, rfl⟩ := h.exists_eq
    exact .of_isChain .nil (by simp)
  item h := by
    obtain ⟨s, stop, bs, -, -, -, rfl, hbs⟩ := h
    exact .of_isChain hbs.isChain (by simp)
  row h := by
    obtain ⟨start, stop, divider, cells, rfl, -⟩ := h
    exact .of_isChain .nil (by simp)
  cell h := by
    obtain ⟨start, stop, config, line, bs, rfl, hline, hbelow, hbs⟩ := h
    refine .of_isChain ?_ (by simp)
    have hfilter : (line.toList ++ bs).filter (fun c => '\n' ∈ src.slice start c.start) = bs := by
      rw [List.filter_append, List.filter_eq_nil_iff.2, List.nil_append, List.filter_eq_self.2]
      · simpa using hbelow
      · simpa using fun c hc => (hline c hc).2
    rw [Block.body, hfilter]
    rcases hbs with rfl | hbs
    · exact .nil
    · exact hbs.isChain

namespace Document

theorem read_sequential (o : Options) (text : String) :
    (read o text).blocks.IsChain (Block.Neighbours (Source.ofString text)) ∧
      Block.AllThroughout (Block.Sequential (Source.ofString text)) (read o text).blocks := by
  refine ⟨?_, read_throughout o text (hereditary_sequential _) (.of_isChain .nil (by simp))⟩
  rcases read_strung o text with ⟨s, t, hsrc, h⟩ | ⟨h, -⟩
  · exact h.isChain hsrc
  · rw [h]
    exact .singleton _

/-- A number that does not follow starts another list. -/
example : (read {} "1. a\n2. b\n4. c").blocks.map (·.blocks.length) = [2, 1] := by decide +kernel

end Document

end TaskMarkup
