import TaskMarkup.Proofs.Formed.Paragraph
import TaskMarkup.Proofs.Origin.Sequence

/-!
What the block grammar makes. Each construct gives a block of its kind whose children have the kinds
it may hold; a body adds one to the indentation for each that may still be opened, so the two counts
add up to the same limit everywhere.
-/

namespace TaskMarkup

variable {src : Source} {limit i : Nat}

/-- A well-formed block of its role that may stand at indentation `i`. -/
structure Block.Sits (src : Source) (limit i : Nat) (role : Role) (b : Block) : Prop where
  role : b.role = role
  formed : b.Formed
  levelled : Levelled src limit i [b.tree]

theorem Block.Sits.container {role : Role} {kind : Container} {start stop : Nat} {bs : List Block}
    (hi : i < limit) (hrole : (Block.container ⟨start, stop, i⟩ kind bs).role = role)
    (hholds : kind.Holds bs) (hbs : ∀ b ∈ bs, b.Formed ∧
      Levelled src limit (if kind.holdsBody then i + 1 else i) [b.tree]) :
    (Block.container ⟨start, stop, i⟩ kind bs).Sits src limit i role where
  role := hrole
  formed := ⟨hholds, Block.allFormed_iff.2 fun b hb => (hbs b hb).1⟩
  levelled := by
    refine levelled_node.2 ⟨⟨rfl, Nat.le_of_lt hi, fun h => absurd h (Nat.ne_of_lt hi),
      fun h => absurd h (Nat.ne_of_lt hi)⟩, levelled_trees.2 fun b hb => (hbs b hb).2⟩

open Parse Rule

namespace Parse

variable {s : Lexer Cursor} {b : Block} {size : Nat}

theorem speaks_of_closed (hs : s.Sound) (hsrc : s.source = src) (hb : b.start = s.nextOffset)
    (hm : (classified s).opensBody = false) : b.Speaks src := by
  intro t ht htsrc hnext hopens
  have hsrc' := htsrc.trans hsrc.symm
  rw [classified_congr (hs.pending_unique ht hsrc' (hnext.trans hb)) hsrc', hm] at hopens
  simp at hopens

theorem classified_header (h : classified s = .header size) : 1 ≤ size ∧ size ≤ 5 := by
  unfold classified at h
  dsimp only at h
  split at h
  · split at h
    · next hc =>
      obtain rfl := Marker.header.inj h
      simp only [Bool.and_eq_true, decide_eq_true_eq] at hc
      exact hc.1
    · simp at h
  case h_4 | h_6 | h_8 => simp at h
  all_goals
    split at h
    · simp at h
    · simp at h

end Parse

namespace Origin

variable {s t : Lexer Cursor} {p : ParagraphContext} {level : Level} {ruler : Ruler} {room : Nat}
  {body : Nat → Parse (List Block)} {takes : Nat → Marker → Bool} {marker : Marker}
  {header : Bool} {b : Block} {bs : List Block}

theorem Paragraph.written (h : Paragraph src p b) (hi : p.indent ≤ limit) :
    Written src limit p.indent b ∧ (p.mode ≠ .singleLine → b.Formed) := by
  obtain ⟨s, t, hsrc, hs, hb⟩ := h
  obtain ⟨hwritten, hformed⟩ :=
    (ends_paragraph_written hi hs.toSteady.placed hsrc hs.bar).of_ok hb
  exact ⟨hwritten, fun hmode => hformed (hs.full hmode)⟩

theorem Paragraph.sits (h : Paragraph src p b) (hi : p.indent ≤ limit)
    (hmode : p.mode ≠ .singleLine) : b.Sits src limit p.indent .body := by
  obtain ⟨hwritten, hformed⟩ := h.written hi
  obtain ⟨span, cs, rfl, -⟩ := hwritten.paragraph
  exact ⟨rfl, hformed hmode, hwritten.levelled⟩

def Nests (src : Source) (limit i : Nat) (body : Nat → Parse (List Block)) : Prop :=
  ∀ bs, Body src body (i + 1) bs → ∀ b ∈ bs, b.Sits src limit (i + 1) .body

section

variable (hi : i < limit) (hbody : Nests src limit i body)

include hi hbody

theorem Body.sits {role : Block.Role} {kind : Container} {start stop : Nat}
    (h : Body src body (i + 1) bs) (hrole : (Block.container ⟨start, stop, i⟩ kind bs).role = role)
    (hholds : kind.Holds bs ↔ ∀ b ∈ bs, b.role = .body) (hkind : kind.holdsBody = true) :
    (Block.container ⟨start, stop, i⟩ kind bs).Sits src limit i role := by
  refine .container hi hrole (hholds.2 fun b hb => (hbody bs h b hb).role) fun b hb => ?_
  rw [hkind, if_pos rfl]
  exact ⟨(hbody bs h b hb).formed, (hbody bs h b hb).levelled⟩

theorem Items.sits {kind : Container} {start stop : Nat} (h : Items src level body i takes bs t)
    (hrole : (Block.container ⟨start, stop, i⟩ kind bs).role = .body)
    (hholds : kind.Holds bs ↔ bs ≠ [] ∧ ∀ b ∈ bs, b.role = .item) (hkind : kind.holdsBody = false) :
    (Block.container ⟨start, stop, i⟩ kind bs).Sits src limit i .body := by
  have hitems : ∀ b ∈ bs, b.Sits src limit i .item := by
    intro b hb
    obtain ⟨k, hk⟩ := List.mem_iff_getElem?.1 hb
    obtain ⟨u, stop, cs, -, -, -, rfl, hcs⟩ := h.item k b hk
    exact hcs.sits hi hbody rfl Iff.rfl rfl
  refine .container hi hrole (hholds.2 ⟨h.ne_nil, fun b hb => (hitems b hb).role⟩) fun b hb => ?_
  rw [hkind, if_neg (by decide)]
  exact ⟨(hitems b hb).formed, (hitems b hb).levelled⟩

theorem Cell.sits (h : Cell src level body i b) : b.Sits src limit i .cell := by
  obtain ⟨start, stop, config, line, bs, rfl, hline, -, hbs⟩ := h
  have hall : ∀ c ∈ line.toList ++ bs, c.Sits src limit (i + 1) .body := by
    intro c hc
    rcases List.mem_append.1 hc with hc | hc
    · exact (hline c (by simpa using hc)).1.sits hi (by simp)
    · rcases hbs with rfl | hbs
      · simp at hc
      · exact hbody bs hbs c hc
  exact .container hi rfl (fun c hc => (hall c hc).role) fun c hc =>
    ⟨(hall c hc).formed, (hall c hc).levelled⟩

theorem Row.sits (h : Row src level body i b) : b.Sits src limit i .row := by
  obtain ⟨start, stop, divider, cells, rfl, hne, hcells, -⟩ := h
  have hall : ∀ c ∈ cells, c.Sits src limit i .cell := fun c hc => (hcells c hc).sits hi hbody
  exact .container hi rfl ⟨hne, fun c hc => (hall c hc).role⟩ fun c hc =>
    ⟨(hall c hc).formed, (hall c hc).levelled⟩

theorem Rows.sits {start stop : Nat} (h : Rows src level body i header bs) :
    (Block.container ⟨start, stop, i⟩ (.table header) bs).Sits src limit i .body := by
  have hall : ∀ b ∈ bs, b.Sits src limit i .row := fun b hb => (h.row b hb).sits hi hbody
  exact .container hi rfl ⟨fun b hb => (hall b hb).role, h.divided, h.header⟩ fun b hb =>
    ⟨(hall b hb).formed, (hall b hb).levelled⟩

end

theorem Made.sits (h : Made level body i s marker b t) (hm : announced level.room s = marker)
    (hlevel : i + level.room = limit) (hbody : Nests src limit i body) (hs : s.Sound)
    (hsrc : s.source = src) : b.Sits src limit i .body := by
  subst hsrc
  have hopens := (announces_announced hs level.room).2
  rw [hm] at hopens
  have hlt (h : marker.opensBody = true) : i < limit := by
    have := hopens h
    omega
  have hle : i ≤ limit := by omega
  have hspeaks {b : Block} (hb : b.start = s.nextOffset) (hne : marker ≠ .paragraph)
      (hcloses : marker.opensBody = false) : b.Speaks s.source :=
    speaks_of_closed hs rfl hb (by rw [classified_of_announced hm hne, hcloses])
  cases h with
  | header hchild =>
    obtain ⟨hwritten, -⟩ := hchild.written hle
    refine ⟨rfl, ⟨classified_header (classified_of_announced hm (by simp)), hwritten.paragraph⟩,
      levelled_node.2 ⟨⟨rfl, hle, fun _ => rfl, ?_⟩, hwritten.levelled⟩⟩
    rintro _ b ⟨⟩
    exact hspeaks rfl (by simp) rfl
  | task hbs => exact hbs.sits (hlt rfl) hbody rfl Iff.rfl rfl
  | list hitems => exact hitems.sits (hlt rfl) hbody rfl Iff.rfl rfl
  | ordered hitems => exact hitems.sits (hlt rfl) hbody rfl Iff.rfl rfl
  | table hrows => exact hrows.sits (hlt rfl) hbody
  | separator =>
    refine ⟨rfl, trivial, levelled_node.2 ⟨⟨rfl, hle, fun _ => rfl, ?_⟩, levelled_nil⟩⟩
    rintro _ b ⟨⟩
    exact hspeaks rfl (by simp) rfl
  | raw =>
    refine ⟨rfl, ⟨_, _, rfl⟩, levelled_node.2 ⟨⟨rfl, hle, fun _ => rfl, ?_⟩,
      Inline.levelled_text hle⟩⟩
    rintro _ b ⟨⟩
    exact hspeaks rfl (by simp) rfl
  | paragraph hsupplied hb =>
    exact Paragraph.sits ⟨s, t, rfl, hsupplied, hb⟩ hle (by simp)

theorem Strung.sits (h : Strung ⟨ruler, room⟩ i s bs t) (hlevel : i + room = limit)
    (hsrc : s.source = src) : ∀ b ∈ bs, b.Sits src limit i .body := by
  -- By induction on the number of bodies that may be opened: those of a body are fewer.
  induction room using Nat.strong_induction_on generalizing i s bs t with
  | _ room ih =>
  have hbody : Nests src limit i (Parse.body ruler room) := by
    intro bs h
    rcases h.strung with rfl | ⟨n, s, t, rfl, hsrc, hbs⟩
    · simp
    · exact ih n (Nat.lt_succ_self n) hbs (by omega) hsrc
  induction h with
  | nil s => simp
  | @cons s u t v b bs hopens _ ihbs =>
    have hsrct := (hopens.skips.toOnward.trans hopens.spans.toOnward).source.trans hsrc
    refine List.forall_mem_cons.2 ⟨?_, ihbs hsrct⟩
    obtain ⟨w, hw, hsteady, hmade⟩ := hopens.made bodied_body
    have hm := announced_congr hw.pending.symm hw.source room
    exact hmade.sits hm hlevel hbody hsteady.sound (hw.source.trans (hopens.skips.source.trans hsrc))

end Origin

end TaskMarkup
