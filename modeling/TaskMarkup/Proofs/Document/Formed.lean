import TaskMarkup.Proofs.Document.Origin
import TaskMarkup.Proofs.Formed.Block
import TaskMarkup.Proofs.Node.Locate

namespace TaskMarkup

variable {src : Source}

theorem Lexer.Sound.not_white {s : Lexer Cursor} (hs : s.Sound)
    (hc : (s.ahead 0).tag.isContent = true) : ¬Text.White s.source.chars := by
  rw [Tag.isContent_iff] at hc
  obtain ⟨-, hp⟩ := hs.tag_ahead_zero.resolve_left fun h => by simp [h.1, Tag.endsLine] at hc
  have hspell := hs.spelled (t := s.ahead 0) (by rw [hp]; simp)
  have hnl : (s.ahead 0).tag ≠ .newline := fun h => by simp [h, Tag.endsLine] at hc
  obtain ⟨c, hmem⟩ := List.exists_mem_of_ne_nil _ hspell.text_ne_nil
  obtain ⟨hspace, htab, hnewline⟩ := hspell.solid hc.1 hnl c hmem
  intro hwhite
  have : c ∈ s.source.chars := by
    rw [hs.position.1, hp, Token.texts_cons]
    simp [hmem]
  rcases hwhite c this with rfl | rfl | rfl
  · exact hspace rfl
  · exact htab rfl
  · exact hnewline rfl

theorem Parse.classified_of_white {s : Lexer Cursor} (hs : s.Sound)
    (h : Text.White s.source.chars) : Parse.classified s = .paragraph := by
  have hc : (s.ahead 0).tag.isContent ≠ true := fun hc => hs.not_white hc h
  unfold Parse.classified
  dsimp only
  split
  case h_8 => rfl
  all_goals
    next htag => exact absurd (by rw [htag]; rfl) hc

theorem Origin.Strung.not_white {level : Level} {i : Nat} {s t : Lexer Cursor} {b : Block}
    {bs : List Block} (h : Strung level i s bs t) (hsrc : s.source = src) (hb : b ∈ bs) :
    ¬Text.White src.chars := by
  cases h with
  | nil => simp at hb
  | cons hopens _ =>
    rw [← hsrc, ← hopens.skips.source]
    exact hopens.steady.sound.not_white hopens.content

namespace Document

theorem read_sits (o : Options) (text : String) :
    (∀ b ∈ (read o text).blocks, b.Sits (Source.ofString text) o.maxDepth 0 .body ∧
      ¬Text.White text.toList) ∨
    (read o text).blocks = [.dummy ⟨0, 0, 0⟩] ∧ Text.White text.toList := by
  rcases read_strung o text with ⟨s, t, hsrc, h⟩ | hdummy
  · exact .inl fun b hb => ⟨h.sits (Nat.zero_add _) hsrc b hb, h.not_white hsrc hb⟩
  · exact .inr hdummy

/-- The indentation of each node is the number of items, tasks and cells around it. It stays below
the limit, and at the limit no list, table or task stands: its marker is text there. -/
theorem read_levelled (o : Options) (text : String) :
    ∀ v ∈ Tree.depthsForest Node.holdsBody 0 (Block.trees (read o text).blocks),
      v.1.Lies (Source.ofString text) o.maxDepth v.2 := by
  rcases read_sits o text with h | ⟨h, hwhite⟩
  · exact levelled_trees.2 fun b hb => (h b hb).1.levelled
  · rw [h]
    refine levelled_trees.2 fun b hb => ?_
    obtain rfl := List.mem_singleton.1 hb
    refine levelled_node.2 ⟨⟨rfl, Nat.zero_le _, fun _ => rfl, fun _ b _ => ?_⟩, levelled_nil⟩
    intro s hs hsrc _ hopens
    rw [Parse.classified_of_white hs (hsrc ▸ hwhite)] at hopens
    simp [Marker.opensBody] at hopens

theorem read_levelled_item :
    let text := "- - a"
    let vs := Tree.depthsForest Node.holdsBody 0 (Block.trees (read { maxDepth := 1 } text).blocks)
    vs.map (fun v => (v.1.kindName, v.2)) =
        [("List", 0), ("ListItem", 0), ("Paragraph", 1), ("Text", 1)] ∧
      ∃ v ∈ vs, v.1.kindName = "Paragraph" ∧ v.2 = 1 ∧ v.1.Lies (Source.ofString text) 1 v.2 := by
  intro text vs
  have hkinds : vs.map (fun v => (v.1.kindName, v.2)) =
      [("List", 0), ("ListItem", 0), ("Paragraph", 1), ("Text", 1)] := by decide +kernel
  have hmem : ("Paragraph", 1) ∈ vs.map fun v => (v.1.kindName, v.2) := by simp [hkinds]
  obtain ⟨v, hv, heq⟩ := List.mem_map.1 hmem
  obtain ⟨hkind, hlevel⟩ := Prod.mk.inj heq
  exact ⟨hkinds, v, hv, hkind, hlevel, read_levelled { maxDepth := 1 } text v hv⟩

/-- What the blocks of a text are like. A text of white space has a dummy for its only block, and no
other text has one. -/
structure WellFormed (text : String) (bs : List Block) : Prop where
  ne_nil : bs ≠ []
  dummy_iff : (∃ span, Block.dummy span ∈ bs) ↔ Text.White text.toList
  alone : ∀ span, Block.dummy span ∈ bs → bs = [.dummy span]
  formed : ∀ b ∈ bs, (∃ span, b = .dummy span) ∨ b.role = .body ∧ b.Formed

theorem wellFormed_blocks {o : Options} {text : String} {bs : List Block}
    (h : blocks o text = .ok bs) : WellFormed text bs := by
  have hne := blocks_ne_nil h
  obtain ⟨-, rfl⟩ := blocks_eq_ok_iff.1 h
  rcases read_sits o text with hsits | ⟨hdummy, hwhite⟩
  · have hno (span : Span) : Block.dummy span ∉ (read o text).blocks :=
      fun hmem => (hsits _ hmem).1.formed
    obtain ⟨b, hb⟩ := List.exists_mem_of_ne_nil _ hne
    refine ⟨hne, ⟨fun ⟨span, hmem⟩ => absurd hmem (hno span), fun hwhite => ?_⟩,
      fun span hmem => absurd hmem (hno span), fun b hb => .inr ?_⟩
    · exact absurd hwhite (hsits b hb).2
    · exact ⟨(hsits b hb).1.role, (hsits b hb).1.formed⟩
  · rw [hdummy]
    refine ⟨by simp, ⟨fun _ => hwhite, fun _ => ⟨_, List.mem_singleton_self _⟩⟩, ?_, ?_⟩
    · intro span hmem
      rw [List.mem_singleton.1 hmem]
    · intro b hb
      exact .inl ⟨_, List.mem_singleton.1 hb⟩

theorem wellFormed_blocks_table :
    let text := "# h\n| a | *b* @c\n|-\n| d\n- e"
    blocks {} text = .ok (read {} text).blocks ∧ WellFormed text (read {} text).blocks ∧
      (read {} text).blocks.map Block.kindName = ["Header", "Table", "List"] := by
  intro text
  have hfault : (read {} text).fault = none := by decide +kernel
  have hblocks := blocks_eq_ok_iff.2 ⟨hfault, rfl⟩
  exact ⟨hblocks, wellFormed_blocks hblocks, by decide +kernel⟩

end Document

end TaskMarkup
