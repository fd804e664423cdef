import TaskMarkup.Proofs.Document.Excerpts
import TaskMarkup.Proofs.Grammar.Grid

namespace TaskMarkup

namespace Document

/-- The last line may end with a newline. -/
theorem blocks_table (o : Options) (closed : List Grid.Row) (opened : Option Grid.Row)
    (ending : List Char) (hpeeks : 100 ≤ o.maxPeeks) (hdepth : o.maxDepth ≠ 0)
    (hne : closed ++ opened.toList ≠ []) (hfit : ∀ row ∈ closed ++ opened.toList, row.Fits)
    (hending : ending = [] ∨ ending = ['\n']) :
    (blocks o (String.ofList (Grid.render closed opened ++ ending))).map (List.map Block.bare) =
      .ok [Grid.table closed opened] := by
  obtain ⟨l, ls, rest, hlines, hwritten, hbehind⟩ :=
    Grid.exists_written_render hfit hne hending
  obtain ⟨bar, us, htoks, hbar⟩ := hwritten.exists_head
  have hcontent : ((tokenize (Grid.render closed opened ++ ending)).head?.map Token.tag).any
      Tag.isContent = true := by
    simp [htoks, hbar, Tag.isContent, Tag.isInlineSpace, Tag.endsLine]
  have hmarker (f : Lexer Cursor)
      (hp : f.pending = tokenize (Grid.render closed opened ++ ending)) :
      Parse.announced o.level.room f = .table := (hp.symm ▸ hwritten).announced hdepth
  obtain ⟨b, hbare, hblocks⟩ := Reader.exists_block
    (P := fun b => b.bare = Grid.table closed opened) hpeeks hcontent hmarker fun f t hf ht => by
      have hpt := ht.pending_eq.trans hf.pending
      exact Parse.ends_table_written hdepth (fun row hrow => (hfit row hrow).ne_nil) ht.sound
        hlines (hpt ▸ hwritten) hbehind
  rw [hblocks]
  exact congrArg Except.ok (congrArg (fun b => [b]) hbare)

theorem blocks_table_header :
    let o : Options := {}
    let closed : List Grid.Row := [[[⟨none, ['a']⟩, ⟨some .hidden, ['b']⟩]],
      [[⟨some (.size (.count 20) .fill), ['c']⟩], [⟨none, ['d']⟩]]]
    let opened : Option Grid.Row := some [[⟨none, ['e']⟩]]
    let cell (config : CellConfig) (word : String) : Block := .container ⟨0, 0, 0⟩
      (.tableCell config) [.paragraph ⟨0, 0, 0⟩ [.text ⟨0, 0, 0⟩ word]]
    let row (divider : Bool) (cells : List Block) : Block :=
      .container ⟨0, 0, 0⟩ (.tableRow divider) cells
    100 ≤ o.maxPeeks ∧ o.maxDepth ≠ 0 ∧ closed ++ opened.toList ≠ [] ∧
      (∀ row ∈ closed ++ opened.toList, row.Fits) ∧
      String.ofList (Grid.render closed opened ++ []) = "|a|[#]b\n|-\n|[20:*]c\n|d\n|-\n|e" ∧
      (blocks o "|a|[#]b\n|-\n|[20:*]c\n|d\n|-\n|e").map (List.map Block.bare) =
        .ok [.container ⟨0, 0, 0⟩ (.table true) [
          row true [cell {} "a", cell { invisible := true } "b"],
          row true [cell { width := .count 20, height := .fill } "c", cell {} "d"],
          row false [cell {} "e"]]] := by
  intro o closed opened cell row
  have hne : closed ++ opened.toList ≠ [] := List.cons_ne_nil _ _
  have hfit : ∀ row ∈ closed ++ opened.toList, row.Fits := by
    have hcells (row : Grid.Row) (hrow : row ≠ []) (hlines : ∀ cs ∈ row, cs ≠ [])
        (hcells : ∀ cs ∈ row, ∀ c ∈ cs, ∃ a, a.isAlpha = true ∧ c.word = [a] ∧
          ∀ b ∈ c.brackets, b.Fits) : row.Fits := by
      refine ⟨hrow, fun cs hcs => ⟨hlines cs hcs, fun c hc => ?_⟩⟩
      obtain ⟨a, ha, hword, hbrackets⟩ := hcells cs hcs c hc
      exact ⟨by simp [hword], by simpa [hword] using ha, hbrackets⟩
    simp only [closed, opened, Option.toList, List.cons_append, List.nil_append,
      List.forall_mem_cons]
    refine ⟨hcells _ ?_ ?_ ?_, hcells _ ?_ ?_ ?_, hcells _ ?_ ?_ ?_, by simp⟩ <;>
      simp [Grid.Brackets.Fits, Grid.FitsSpan]
  have hsource : String.ofList (Grid.render closed opened ++ []) =
      "|a|[#]b\n|-\n|[20:*]c\n|d\n|-\n|e" := by decide +kernel
  refine ⟨by decide, by decide, hne, hfit, hsource, ?_⟩
  have hblocks := blocks_table o closed opened [] (by decide) (by decide) hne hfit (.inl rfl)
  rw [hsource] at hblocks
  exact hblocks

end Document

end TaskMarkup
