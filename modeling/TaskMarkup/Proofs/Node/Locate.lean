import TaskMarkup.Node.Locate
import TaskMarkup.Proofs.Document.Spans

namespace TaskMarkup

def Span.Within (s t : Span) : Prop := t.start ≤ s.start ∧ s.stop ≤ t.stop

namespace Tree

variable {α : Type}

mutual

def Nested (span : α → Span) : Tree α → Prop
  | .node a ts =>
    Span.Ordered (span a).start (span a).stop (ts.map fun t => span t.value) ∧ AllNested span ts

def AllNested (span : α → Span) : List (Tree α) → Prop
  | [] => True
  | t :: ts => t.Nested span ∧ AllNested span ts

end

variable {span : α → Span} {offset : Nat}

theorem contains_eq_false {s : Span} (h : offset < s.start ∨ s.stop ≤ offset) :
    s.contains offset = false := by
  simp only [Span.contains, Bool.and_eq_false_iff, decide_eq_false_iff_not]
  omega

mutual

theorem filter_preorder_eq_nil : (t : Tree α) → t.Nested span →
    (offset < (span t.value).start ∨ (span t.value).stop ≤ offset) →
    t.preorder.filter (fun a => (span a).contains offset) = []
  | .node a ts, h, hout => by
    have ha : (span a).contains offset = false := contains_eq_false hout
    rw [preorder, List.filter_cons_of_neg (by simp [ha]),
      filter_preorderForest_eq_nil _ _ ts h.1 h.2 hout]

theorem filter_preorderForest_eq_nil : (lo hi : Nat) → (ts : List (Tree α)) →
    Span.Ordered lo hi (ts.map fun t => span t.value) → AllNested span ts →
    (offset < lo ∨ hi ≤ offset) →
    (preorderForest ts).filter (fun a => (span a).contains offset) = []
  | _, _, [], _, _, _ => rfl
  | lo, hi, t :: ts, ⟨hlo, hle, hordered⟩, ⟨ht, hts⟩, hout => by
    have hlo : lo ≤ (span t.value).start := hlo
    have hle : (span t.value).start ≤ (span t.value).stop := hle
    have hhi : (span t.value).stop ≤ hi := hordered.le
    rw [preorderForest, List.filter_append, filter_preorder_eq_nil t ht (by omega),
      filter_preorderForest_eq_nil _ _ ts hordered hts (by omega), List.append_nil]

end

mutual

theorem filter_preorder_eq_descend : (t : Tree α) → t.Nested span →
    (span t.value).contains offset = true →
    t.preorder.filter (fun a => (span a).contains offset) =
      t.descend fun a => (span a).contains offset
  | .node a ts, h, hin => by
    have ha : (span a).contains offset = true := hin
    rw [preorder, List.filter_cons_of_pos (p := fun a => (span a).contains offset) ha, filter_preorderForest_eq_descendForest _ _ ts h.1 h.2,
      descend]

theorem filter_preorderForest_eq_descendForest : (lo hi : Nat) → (ts : List (Tree α)) →
    Span.Ordered lo hi (ts.map fun t => span t.value) → AllNested span ts →
    (preorderForest ts).filter (fun a => (span a).contains offset) =
      descendForest (fun a => (span a).contains offset) ts
  | _, _, [], _, _ => rfl
  | _, hi, t :: ts, ⟨_, _, hordered⟩, ⟨ht, hts⟩ => by
    rw [preorderForest, List.filter_append, descendForest]
    by_cases hin : (span t.value).contains offset = true
    -- Behind the span that contains the offset there is no other at the same level.
    · have hlt : offset < (span t.value).stop := by
        simp only [Span.contains, Bool.and_eq_true, decide_eq_true_eq] at hin
        exact hin.2
      rw [if_pos hin, filter_preorder_eq_descend t ht hin,
        filter_preorderForest_eq_nil _ _ ts hordered hts (.inl hlt), List.append_nil]
    · have hout : offset < (span t.value).start ∨ (span t.value).stop ≤ offset := by
        simp only [Span.contains, Bool.and_eq_true, decide_eq_true_eq] at hin
        omega
      rw [if_neg hin, filter_preorder_eq_nil t ht hout, List.nil_append,
        filter_preorderForest_eq_descendForest _ _ ts hordered hts]

end

theorem descend_eq_singleton (offset : Nat) (t : Tree α) (h : t.Nested span)
    (hout : offset < (span t.value).start ∨ (span t.value).stop ≤ offset) :
    t.descend (fun a => (span a).contains offset) = [t.value] := by
  cases t with
  | node a ts =>
    rw [descend, ← filter_preorderForest_eq_descendForest _ _ ts h.1 h.2,
      filter_preorderForest_eq_nil _ _ ts h.1 h.2 hout]
    rfl

theorem descendForest_append_cons {p : α → Bool} {t : Tree α} {ts us : List (Tree α)}
    (hts : ∀ u ∈ ts, p u.value = false) (ht : p t.value = true) :
    descendForest p (ts ++ t :: us) = t.descend p := by
  induction ts with
  | nil => rw [List.nil_append, descendForest, if_pos ht]
  | cons u ts ih =>
    rw [List.cons_append, descendForest, if_neg (by simp [hts u (by simp)])]
    exact ih fun v hv => hts v (by simp [hv])

mutual

theorem pairwise_descend (p : α → Bool) : (t : Tree α) → t.Nested span →
    (∀ a ∈ t.descend p, (span a).Within (span t.value)) ∧
      (t.descend p).Pairwise fun a b => (span b).Within (span a)
  | .node a ts, h => by
    obtain ⟨hwithin, hpair⟩ := pairwise_descendForest p _ _ ts h.1 h.2
    rw [descend]
    refine ⟨fun b hb => ?_, List.pairwise_cons.2 ⟨hwithin, hpair⟩⟩
    rcases List.mem_cons.1 hb with rfl | hb
    · exact ⟨Nat.le_refl _, Nat.le_refl _⟩
    · exact hwithin b hb

theorem pairwise_descendForest (p : α → Bool) : (lo hi : Nat) → (ts : List (Tree α)) →
    Span.Ordered lo hi (ts.map fun t => span t.value) → AllNested span ts →
    (∀ a ∈ descendForest p ts, lo ≤ (span a).start ∧ (span a).stop ≤ hi) ∧
      (descendForest p ts).Pairwise fun a b => (span b).Within (span a)
  | _, _, [], _, _ => ⟨by simp [descendForest], by simp [descendForest]⟩
  | lo, hi, t :: ts, ⟨hlo, hle, hordered⟩, ⟨ht, hts⟩ => by
    have hlo : lo ≤ (span t.value).start := hlo
    have hle : (span t.value).start ≤ (span t.value).stop := hle
    have hhi : (span t.value).stop ≤ hi := hordered.le
    rw [descendForest]
    split
    · obtain ⟨hwithin, hpair⟩ := pairwise_descend p t ht
      refine ⟨fun a ha => ?_, hpair⟩
      have := (hwithin a ha).1
      have := (hwithin a ha).2
      omega
    · obtain ⟨hwithin, hpair⟩ := pairwise_descendForest p _ _ ts hordered hts
      refine ⟨fun a ha => ?_, hpair⟩
      have := hwithin a ha
      omega

end

end Tree

variable {src : Source}

theorem Inline.value_tree (c : Inline) : c.tree.value = .inline c := Node.value_tree (.inline c)

theorem Block.value_tree (b : Block) : b.tree.value = .block b := Node.value_tree (.block b)

theorem Inline.map_value_trees (cs : List Inline) :
    (Inline.trees cs).map (fun t => t.value.span) = cs.map Inline.span := by
  induction cs with
  | nil => rfl
  | cons c cs ih => rw [Inline.trees, List.map_cons, List.map_cons, ih, Inline.value_tree]; rfl

theorem Block.map_value_trees (bs : List Block) :
    (Block.trees bs).map (fun t => t.value.span) = bs.map Block.span := by
  induction bs with
  | nil => rfl
  | cons b bs ih => rw [Block.trees, List.map_cons, List.map_cons, ih, Block.value_tree]; rfl

mutual

theorem Inline.Fits.nested : (c : Inline) → c.Fits src → c.tree.Nested Node.span
  | .text .., h => ⟨h.le, trivial⟩
  | .link .., h => ⟨h.le, trivial⟩
  | .styled _ _ cs, ⟨_, hcs, hfit⟩ =>
    ⟨by rw [Inline.map_value_trees]; exact hcs, Inline.AllFit.nested cs hfit⟩
  | .raw _ _ cs, ⟨_, hcs, hfit⟩ =>
    ⟨by rw [Inline.map_value_trees]; exact hcs, Inline.AllFit.nested cs hfit⟩
  | .tagRef _ c, ⟨_, hc, hfit⟩ =>
    ⟨by rw [List.map_singleton, Inline.value_tree]; exact hc, Inline.Fits.nested c hfit, trivial⟩

theorem Inline.AllFit.nested : (cs : List Inline) → Inline.AllFit src cs →
    Tree.AllNested Node.span (Inline.trees cs)
  | [], _ => trivial
  | c :: cs, h => ⟨Inline.Fits.nested c h.1, Inline.AllFit.nested cs h.2⟩

end

mutual

theorem Block.Fits.nested : (b : Block) → b.Fits src → b.tree.Nested Node.span
  | .dummy _, h => ⟨h.le, trivial⟩
  | .separator _, h => ⟨h.le, trivial⟩
  | .raw _ cs, ⟨_, hcs, hfit⟩ =>
    ⟨by rw [Inline.map_value_trees]; exact hcs,
      Inline.AllFit.nested cs (Inline.allFit_iff.2 hfit)⟩
  | .paragraph _ cs, ⟨_, hcs, hfit⟩ =>
    ⟨by rw [Inline.map_value_trees]; exact hcs,
      Inline.AllFit.nested cs (Inline.allFit_iff.2 hfit)⟩
  | .header _ _ b, ⟨_, hb, hfit⟩ =>
    ⟨by rw [List.map_singleton, Block.value_tree]; exact hb, Block.Fits.nested b hfit, trivial⟩
  | .container _ _ bs, ⟨_, hbs, hfit⟩ =>
    ⟨by rw [Block.map_value_trees]; exact hbs, Block.AllFit.nested bs hfit⟩

theorem Block.AllFit.nested : (bs : List Block) → Block.AllFit src bs →
    Tree.AllNested Node.span (Block.trees bs)
  | [], _ => trivial
  | b :: bs, h => ⟨Block.Fits.nested b h.1, Block.AllFit.nested bs h.2⟩

end

theorem Block.trees_eq_map (bs : List Block) : Block.trees bs = bs.map Block.tree := by
  induction bs with
  | nil => rfl
  | cons b bs ih => rw [Block.trees, List.map_cons, ih]

theorem Row.not_lt_start {lo hi n : Nat} {bs : List Block}
    (h : Row Block.span (Block.Fits src) lo hi bs) {b : Block} (hb : b ∈ bs) (hn : b.stop ≤ n) :
    ¬n < b.start := by
  have := (h.fits b hb).tidy.le
  have : b.start ≤ b.stop := this
  omega

theorem Row.start_le_of_mem_cons {lo hi : Nat} {as cs : List Block} {b c : Block}
    (h : Row Block.span (Block.Fits src) lo hi (as ++ b :: cs)) (hc : c ∈ b :: cs) :
    b.start ≤ c.start := by
  rcases List.mem_cons.1 hc with rfl | hc
  · exact Nat.le_refl _
  · obtain ⟨mid, -, hrow⟩ := h.of_append
    have hpair := List.pairwise_map.1 hrow.ordered.pairwise.2
    have hstop : b.stop ≤ c.start := (List.pairwise_cons.1 hpair).1 c hc
    have hle : b.start ≤ b.stop := (hrow.fits b (by simp)).tidy.le
    exact Nat.le_trans hle hstop

namespace Node

variable {bs : List Block} {lo hi n : Nat}

theorem contains_eq_false_of_stop_le {b : Block} (h : b.stop ≤ n) : b.span.contains n = false :=
  Tree.contains_eq_false (.inr h)

theorem locate_ne_nil (offset : Int) {siblings : List Node} (h : siblings ≠ []) :
    locate offset siblings ≠ [] := by
  obtain ⟨last, hlast⟩ := Option.ne_none_iff_exists'.1 (mt List.getLast?_eq_none_iff.1 h)
  simp only [locate, hlast]
  split
  · simp
  · generalize Option.getD _ _ = m
    cases m.tree
    simp [Tree.descend]

theorem locate_of_neg {offset : Int} (h : offset < 0) {siblings : List Node} {last : Node}
    (hlast : siblings.getLast? = some last) :
    locate offset siblings = locate ((last.span.stop - 1 : Nat) : Int) siblings := by
  simp only [locate, hlast, resolve, if_pos h, Int.not_ofNat_neg, if_false, Int.toNat_natCast]

theorem locate_natCast (n : Nat) {last : Block} (h : bs.getLast? = some last) :
    locate n (bs.map .block) =
      let b := (bs.find? fun b => n < b.stop).getD last
      if n < b.start then [.block b] else b.tree.descend (contains n) := by
  have hfind : (bs.map Node.block).find? (fun m => n < m.span.stop) =
      (bs.find? fun b => n < b.stop).map Node.block := by
    rw [List.find?_map]
    rfl
  have hget : ((bs.find? fun b => n < b.stop).map Node.block).getD (.block last) =
      .block ((bs.find? fun b => n < b.stop).getD last) := by
    cases bs.find? fun b => n < b.stop <;> rfl
  simp only [locate, List.getLast?_map, h, Option.map_some, resolve, Int.not_ofNat_neg, if_false,
    Int.toNat_natCast, hfind, hget]
  rfl

theorem locate_of_stop_le (h : Row Block.span (Block.Fits src) lo hi bs) (hne : bs ≠ [])
    (hn : ∀ b ∈ bs, b.stop ≤ n) :
    locate n (bs.map .block) =
      ((bs.find? fun b => n < b.start).or bs.getLast?).toList.map .block := by
  obtain ⟨last, hlast⟩ := Option.ne_none_iff_exists'.1 (mt List.getLast?_eq_none_iff.1 hne)
  have hmem := List.mem_of_getLast? hlast
  have hstop : bs.find? (fun b => n < b.stop) = none := by
    rw [List.find?_eq_none]
    intro b hb
    simpa using hn b hb
  have hstart : bs.find? (fun b => n < b.start) = none := by
    rw [List.find?_eq_none]
    intro b hb
    simpa using h.not_lt_start hb (hn b hb)
  have hdescend := Tree.descend_eq_singleton n last.tree (h.fits last hmem).nested
    (.inr (by rw [Block.value_tree]; exact hn last hmem))
  rw [locate_natCast n hlast, hstop, hstart, hlast]
  simp only [Option.getD_none, if_neg (h.not_lt_start hmem (hn last hmem))]
  exact hdescend.trans (by rw [Block.value_tree]; rfl)

theorem locate_of_lt_stop {as cs : List Block} {b : Block} (has : ∀ a ∈ as, a.stop ≤ n)
    (hb : n < b.stop) :
    locate n ((as ++ b :: cs).map .block) =
      if n < b.start then [.block b] else b.tree.descend (contains n) := by
  obtain ⟨last, hlast⟩ := Option.ne_none_iff_exists'.1
    (mt List.getLast?_eq_none_iff.1 (List.append_ne_nil_of_right_ne_nil as (List.cons_ne_nil b cs)))
  have hfind : (as ++ b :: cs).find? (fun b => n < b.stop) = some b := by
    rw [List.find?_append, List.find?_eq_none.2 (by simpa using has), List.find?_cons_of_pos (by simpa)]
    rfl
  rw [locate_natCast n hlast, hfind]
  rfl

theorem locate_of_row (h : Row Block.span (Block.Fits src) lo hi bs) (hne : bs ≠ []) (n : Nat) :
    ((∃ b ∈ bs, b.span.contains n = true) →
      locate n (bs.map .block) = (Tree.preorderForest (Block.trees bs)).filter (contains n) ∧
        (locate n (bs.map .block)).Pairwise fun a b => b.span.Within a.span) ∧
    ((∀ b ∈ bs, b.span.contains n = false) →
      locate n (bs.map .block) =
        ((bs.find? fun b => n < b.start).or bs.getLast?).toList.map .block) := by
  cases hfind : bs.find? fun b => n < b.stop with
  | none =>
    have hstop : ∀ b ∈ bs, b.stop ≤ n := by simpa using hfind
    refine ⟨?_, fun _ => locate_of_stop_le h hne hstop⟩
    rintro ⟨b, hb, hin⟩
    rw [contains_eq_false_of_stop_le (hstop b hb)] at hin
    contradiction
  | some b =>
    obtain ⟨hb, as, cs, rfl, has⟩ := List.find?_eq_some_iff_append.1 hfind
    have hb : n < b.stop := by simpa using hb
    have has : ∀ a ∈ as, a.stop ≤ n := by simpa using has
    have hout : ∀ a ∈ as, a.span.contains n = false := fun a ha =>
      contains_eq_false_of_stop_le (has a ha)
    rw [locate_of_lt_stop has hb]
    by_cases hstart : n < b.start
    · rw [if_pos hstart]
      refine ⟨?_, fun _ => ?_⟩
      -- The blocks behind an offset do not contain it, nor do those before it.
      · rintro ⟨c, hc, hin⟩
        have hcs : ∀ c ∈ b :: cs, c.span.contains n = false := fun c hc =>
          Tree.contains_eq_false (.inl (Nat.lt_of_lt_of_le hstart (h.start_le_of_mem_cons hc)))
        rcases List.mem_append.1 hc with hc | hc
        · simp [hout c hc] at hin
        · simp [hcs c hc] at hin
      · have hnone : as.find? (fun b => n < b.start) = none := by
          rw [List.find?_eq_none]
          intro a ha
          simpa using h.not_lt_start (List.mem_append_left _ ha) (has a ha)
        rw [List.find?_append, hnone, List.find?_cons_of_pos (by simpa)]
        rfl
    · rw [if_neg hstart]
      have hin : b.span.contains n = true := by
        simp only [Span.contains, Bool.and_eq_true, decide_eq_true_eq]
        exact ⟨Nat.le_of_not_lt hstart, hb⟩
      have hfit := (h.fits b (by simp)).nested
      refine ⟨fun _ => ⟨?_, (Tree.pairwise_descend _ b.tree hfit).2⟩, fun hall => ?_⟩
      · have hnested := Block.AllFit.nested _ (Block.allFit_iff.2 h.fits)
        have hordered := h.ordered
        rw [← Block.map_value_trees] at hordered
        refine Eq.trans ?_ (Tree.filter_preorderForest_eq_descendForest _ _ _ hordered hnested).symm
        rw [Block.trees_eq_map, List.map_append, List.map_cons]
        refine (Tree.descendForest_append_cons ?_ ?_).symm
        · intro u hu
          obtain ⟨a, ha, rfl⟩ := List.mem_map.1 hu
          rw [Block.value_tree]
          exact hout a ha
        · rw [Block.value_tree]
          exact hin
      · rw [hall b (by simp)] at hin
        contradiction

end Node

theorem Reader.next_ne_none {r r' : Reader} (hf : r.finished = false) (hs : r.started = false) :
    next.run r ≠ .ok none r' := by
  cases hres : rule r.options r.lexer with
  | ok x t =>
    cases x with
    | none => simp [next_of_none hf hres, hs]
    | some b => simp [next_of_some hf hres]
  | error e t =>
    cases e with
    | fault f => simp [next_of_fault hf hres]
    | rejected e => exact e.elim

theorem Document.blocks_ne_nil {o : Options} {text : String} {bs : List Block}
    (h : blocks o text = .ok bs) : bs ≠ [] := by
  rintro rfl
  obtain ⟨hfault, hblocks⟩ := blocks_eq_ok_iff.1 h
  unfold read readFrom at hfault hblocks
  cases hnext : Reader.next.run (Reader.start o text) with
  | ok x r =>
    cases x with
    | none => exact Reader.next_ne_none rfl rfl hnext
    | some b => simp [hnext] at hblocks
  | error f r => simp [hnext] at hfault

theorem Document.row_of_blocks {o : Options} {text : String} {bs : List Block}
    (h : blocks o text = .ok bs) :
    Row Block.span (Block.Fits (Source.ofString text)) 0 (Source.ofString text).size bs := by
  obtain ⟨-, rfl⟩ := blocks_eq_ok_iff.1 h
  exact (Reader.start_stands (F := fun _ => True) text (.inl fun _ => trivial)).blocks
    (Reader.excused_true o _)

/-- What the way to an offset among blocks is. Inside a block it is all that stands around the offset,
from the outermost in; elsewhere it is the next block, or the last one behind all of them. A negative
offset stands for the last that the last block covers. -/
structure Node.IsWay (bs : List Block) (offset : Int) (way : List Node) : Prop where
  ne_nil : way ≠ []
  around {n : Nat} : offset = n → (∃ b ∈ bs, b.span.contains n = true) →
    way = (Tree.preorderForest (Block.trees bs)).filter (contains n)
  inward {n : Nat} : offset = n → (∃ b ∈ bs, b.span.contains n = true) →
    way.Pairwise fun a b => b.span.Within a.span
  next {n : Nat} : offset = n → (∀ b ∈ bs, b.span.contains n = false) →
    way = ((bs.find? fun b => n < b.start).or bs.getLast?).toList.map .block
  negative {last : Block} : offset < 0 → last ∈ bs.getLast? →
    way = locate ((last.stop - 1 : Nat) : Int) (bs.map .block)

/-- Every offset leads into the blocks of a document. -/
theorem Document.locate_blocks (o : Options) (text : String) (bs : List Block)
    (h : blocks o text = .ok bs) (offset : Int) :
    Node.IsWay bs offset (Node.locate offset (bs.map .block)) where
  ne_nil := Node.locate_ne_nil offset (by simpa using blocks_ne_nil h)
  around {n} hn hin := by
    subst hn
    exact ((Node.locate_of_row (row_of_blocks h) (blocks_ne_nil h) n).1 hin).1
  inward {n} hn hin := by
    subst hn
    exact ((Node.locate_of_row (row_of_blocks h) (blocks_ne_nil h) n).1 hin).2
  next {n} hn hout := by
    subst hn
    exact (Node.locate_of_row (row_of_blocks h) (blocks_ne_nil h) n).2 hout
  negative {last} hneg hlast := by
    have hback : (bs.map Node.block).getLast? = some (.block last) := by
      rw [List.getLast?_map, Option.mem_def.1 hlast]
      rfl
    have hway := Node.locate_of_neg hneg hback
    exact hway

theorem Document.locate_blocks_italic :
    let bs := (read {} "x\n\n- *a*").blocks
    let way := Node.locate 6 (bs.map .block)
    blocks {} "x\n\n- *a*" = .ok bs ∧ Node.IsWay bs 6 way ∧
      way.map Node.kindName = ["List", "ListItem", "Paragraph", "Italic", "Text"] := by
  have hfault : (read {} "x\n\n- *a*").fault = none := by decide +kernel
  have hblocks := blocks_eq_ok_iff.2 ⟨hfault, rfl⟩
  exact ⟨hblocks, locate_blocks {} "x\n\n- *a*" _ hblocks 6, by decide +kernel⟩

end TaskMarkup
