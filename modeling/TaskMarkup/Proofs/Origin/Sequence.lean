import TaskMarkup.Proofs.Origin.Block

namespace TaskMarkup

mutual

def Block.Throughout (P : Block → Prop) : Block → Prop
  | .dummy s => P (.dummy s)
  | .separator s => P (.separator s)
  | .raw s cs => P (.raw s cs)
  | .paragraph s cs => P (.paragraph s cs)
  | .header s size b => P (.header s size b) ∧ b.Throughout P
  | .container s kind bs => P (.container s kind bs) ∧ Block.AllThroughout P bs

def Block.AllThroughout (P : Block → Prop) : List Block → Prop
  | [] => True
  | b :: bs => b.Throughout P ∧ Block.AllThroughout P bs

end

theorem Block.allThroughout_iff {P : Block → Prop} {bs : List Block} :
    Block.AllThroughout P bs ↔ ∀ b ∈ bs, b.Throughout P := by
  induction bs with
  | nil => simp [Block.AllThroughout]
  | cons b bs ih => simp [Block.AllThroughout, ih]

open Parse Rule

abbrev Level.body (level : Level) : Nat → Parse (List Block) :=
  Parse.body level.ruler level.room

inductive Origin.Strung (level : Level) (i : Nat) :
    Lexer Cursor → List Block → Lexer Cursor → Prop
  | nil (s : Lexer Cursor) : Strung level i s [] s
  | cons {s u t v : Lexer Cursor} {b : Block} {bs : List Block} :
      Opens (fun _ => True) level level.body i s u b t → Strung level i t bs v →
      Strung level i s (b :: bs) v

namespace Origin

variable {src : Source} {s t u v : Lexer Cursor} {level : Level} {ruler : Ruler} {i room : Nat}
  {bs : List Block} {b : Block} {P : Block → Prop}

theorem Strung.concat (h : Strung level i s bs t)
    (hb : Opens (fun _ => True) level level.body i t u b v) : Strung level i s (bs ++ [b]) v := by
  induction h with
  | nil s => exact .cons hb (.nil v)
  | cons hc _ ih => exact .cons hc (ih hb)

theorem ends_blocks_strung (level : Level) (hs : s.Steady) (hi : Rests (fun _ => True) i s) :
    Ends (fun _ => True) (blocks level level.body i) s (fun bs _ => ∃ t, Strung level i s bs t)
      fun _ _ => True := by
  refine Ends.loop_true (fun bs t => Sequenced (fun _ => True) i s bs t ∧ Strung level i s bs t)
    ⟨⟨.refl s, hs, hi, .nil (Nat.le_max_left ..)⟩, .nil s⟩ ?_
  rintro bs t ⟨ht, hbs⟩
  have hturn : Ends (fun _ => True) (blockTurn level level.body i bs) t (fun turn u => turn.Gives
      (fun bs => ∃ t, Strung level i s bs t) fun bs => Strung level i s bs u) fun _ _ => True := by
    refine Ends.seq (ends_nextBlock (excused_true _) bodied_body ht.steady ht.rests) ?_
    intro r u hr
    cases r with
    | none => exact Ends.pure ⟨t, hbs⟩
    | some b =>
      obtain ⟨v, hb⟩ : ∃ v, Opens (fun _ => True) level level.body i t v b u := hr
      exact Ends.pure (hbs.concat hb)
  refine (hturn.also (ends_blockTurn (E := fun _ _ => True) (excused_true _) bodied_body hs.sound
    ht)).imp ?_
  rintro turn u ⟨hturn, hstate⟩
  cases turn with
  | done bs => exact hturn
  | again bs => exact ⟨hstate.1, hturn⟩

theorem Body.strung (h : Body src (Parse.body ruler room) i bs) :
    bs = [] ∨ ∃ n s t, room = n + 1 ∧ s.source = src ∧ Strung ⟨ruler, n⟩ i s bs t := by
  obtain ⟨s, t, hsrc, hs, hrests, hbody⟩ := h
  cases room with
  | zero =>
    injection hbody with hbs
    exact .inl hbs.symm
  | succ n =>
    obtain ⟨u, hu⟩ := (ends_blocks_strung ⟨ruler, n⟩ hs hrests).of_ok hbody
    exact .inr ⟨n, s, u, rfl, hsrc, hu⟩

/-- What holds of each block that a line announces and of each part of one. -/
structure Hereditary (src : Source) (P : Block → Prop) : Prop where
  made : ∀ {level i s marker b t}, s.source = src → Made level level.body i s marker b t → P b
  paragraph : ∀ {p b}, Paragraph src p b → P b
  item : ∀ {level i takes b}, Item src level level.body i takes b → P b
  row : ∀ {level i b}, Row src level level.body i b → P b
  cell : ∀ {level i b}, Cell src level level.body i b → P b

theorem Hereditary.throughout_paragraph {p : ParagraphContext} (h : Hereditary src P)
    (hb : Paragraph src p b) : b.Throughout P := by
  have hp := h.paragraph hb
  obtain ⟨span, cs, rfl⟩ := hb.exists_eq
  exact hp

theorem Strung.throughout (hP : Hereditary src P) (h : Strung ⟨ruler, room⟩ i s bs t)
    (hsrc : s.source = src) : ∀ b ∈ bs, b.Throughout P := by
  -- By induction on the number of bodies that may be opened: those of a body are fewer.
  induction room using Nat.strong_induction_on generalizing i s bs t with
  | _ room ih =>
  have hbody {i : Nat} {bs : List Block} (h : Body src (Parse.body ruler room) i bs) :
      Block.AllThroughout P bs := by
    rcases h.strung with rfl | ⟨n, s, t, rfl, hsrc, hbs⟩
    · trivial
    · exact Block.allThroughout_iff.2 (ih n (Nat.lt_succ_self n) hbs hsrc)
  have hitems {takes : Nat → Marker → Bool} {items : List Block} {t : Lexer Cursor}
      (h : Items src ⟨ruler, room⟩ (Parse.body ruler room) i takes items t) :
      Block.AllThroughout P items := by
    refine Block.allThroughout_iff.2 fun b hb => ?_
    obtain ⟨k, hk⟩ := List.mem_iff_getElem?.1 hb
    have hitem := h.item k b hk
    have hp := hP.item hitem
    obtain ⟨u, stop, bs, -, -, -, rfl, hbs⟩ := hitem
    exact ⟨hp, hbody hbs⟩
  have hcell {b : Block} (h : Cell src ⟨ruler, room⟩ (Parse.body ruler room) i b) :
      b.Throughout P := by
    have hp := hP.cell h
    obtain ⟨start, stop, config, line, bs, rfl, hline, -, hbs⟩ := h
    refine ⟨hp, Block.allThroughout_iff.2 fun c hc => ?_⟩
    rcases List.mem_append.1 hc with hc | hc
    · exact hP.throughout_paragraph (hline c (by simpa using hc)).1
    · rcases hbs with rfl | hbs
      · simp at hc
      · exact Block.allThroughout_iff.1 (hbody hbs) c hc
  have hrow {b : Block} (h : Row src ⟨ruler, room⟩ (Parse.body ruler room) i b) :
      b.Throughout P := by
    have hp := hP.row h
    obtain ⟨start, stop, divider, cells, rfl, -, hcells, -⟩ := h
    exact ⟨hp, Block.allThroughout_iff.2 fun c hc => hcell (hcells c hc)⟩
  induction h with
  | nil s => simp
  | @cons s u t v b bs hopens _ ihbs =>
    have hsrct := (hopens.skips.toOnward.trans hopens.spans.toOnward).source.trans hsrc
    refine List.forall_mem_cons.2 ⟨?_, ihbs hsrct⟩
    obtain ⟨w, hw, -, hmade⟩ := hopens.made bodied_body
    obtain rfl : w.source = src := hw.source.trans (hopens.skips.source.trans hsrc)
    have hp := hP.made rfl hmade
    generalize announced (Level.mk ruler room).room u = marker at hmade
    cases hmade with
    | header hchild => exact ⟨hp, hP.throughout_paragraph hchild⟩
    | task hbs => exact ⟨hp, hbody hbs⟩
    | list h => exact ⟨hp, hitems h⟩
    | ordered h => exact ⟨hp, hitems h⟩
    | table hrows => exact ⟨hp, Block.allThroughout_iff.2 fun row hr => hrow (hrows.row row hr)⟩
    | separator => exact hp
    | raw => exact hp
    | paragraph hs hb => exact hP.throughout_paragraph ⟨w, t, rfl, hs, hb⟩

end Origin

end TaskMarkup
