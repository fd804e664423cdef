import TaskMarkup.Proofs.Document.Excerpts
import TaskMarkup.Proofs.Grammar.Outline

namespace TaskMarkup

namespace Document

/-- The last line may end with a newline. No line is indented by more spaces than there are in the
text, so that they can be counted where its bytes can. -/
theorem blocks_outline (o : Options) (first : Option Nat) (points : List Point) (ending : List Char)
    (hpeeks : 100 ≤ o.maxPeeks) (hwidth : 1 ≤ o.indentWidth) (hne : points ≠ [])
    (hfit : Point.AllFit first points) (hheight : Point.heights points ≤ o.maxDepth)
    (hending : ending = [] ∨ ending = ['\n'])
    (hcolumns : ∀ n ∈ o.maxColumns,
      Text.byteSize (Point.render o.indentWidth first points ++ ending) ≤ n) :
    (blocks o (String.ofList (Point.render o.indentWidth first points ++ ending))).map
      (List.map Block.bare) = .ok [Point.list first points] := by
  have hruler : o.level.ruler.width = o.indentWidth := Nat.max_eq_left hwidth
  have hahead : Point.Ahead o.level.ruler.width (Point.allLines 0 first points)
      (tokenize (Point.render o.indentWidth first points ++ ending)) :=
    hruler ▸ Point.ahead_render hne hfit hending
  have hroom : o.level.room ≠ 0 :=
    Nat.ne_of_gt (Nat.lt_of_lt_of_le (Point.heights_pos hne) hheight)
  have hnext {f : Lexer Cursor}
      (hp : f.pending = tokenize (Point.render o.indentWidth first points ++ ending)) :
      Point.Ahead o.level.ruler.width (Point.allLines 0 first points ++ []) f.pending := by
    rwa [hp, List.append_nil]
  obtain ⟨b, hbare, hblocks⟩ := Reader.exists_block (P := fun b => b.bare = Point.list first points)
    hpeeks hahead.isContent (fun f hp => Parse.announced_group (hnext hp) hne hroom)
    fun f t hf ht => by
      have hfathoms : Parse.Fathoms o.level.ruler f.source := by
        refine ⟨Nat.lt_of_lt_of_le Nat.one_pos (Nat.le_max_right ..), fun n hn => ?_⟩
        rw [f.source.size_eq, hf.source]
        exact hcolumns n hn
      refine (Parse.lists hfathoms o.level.room hne hheight ht.sound ht.source
        (hnext (ht.pending_eq.trans hf.pending)) (by simp)).imp ?_
      rintro b g ⟨hbare, hg⟩
      exact ⟨hbare, hg.pending_nil⟩
  rw [hblocks]
  exact congrArg Except.ok (congrArg (fun b => [b]) hbare)

theorem blocks_outline_numbered :
    let o : Options := { indentWidth := 3, maxDepth := 3 }
    let points : List Point := [.mk ['a'] none [.mk ['b'] none [], .mk ['c'] (some 1)
      [.mk ['d'] none []]], .mk ['e'] none []]
    let item (word : String) (below : List Block) : Block := .container ⟨0, 0, 0⟩ .listItem
      (.paragraph ⟨0, 0, 0⟩ [.text ⟨0, 0, 0⟩ word] :: below)
    100 ≤ o.maxPeeks ∧ 1 ≤ o.indentWidth ∧ points ≠ [] ∧ Point.AllFit (some 9) points ∧
      Point.heights points ≤ o.maxDepth ∧
      String.ofList (Point.render o.indentWidth (some 9) points ++ []) =
        "9. a\n   - b\n   - c\n      1. d\n10. e" ∧
      (blocks o "9. a\n   - b\n   - c\n      1. d\n10. e").map (List.map Block.bare) =
        .ok [.container ⟨0, 0, 0⟩ (.orderedList 9) [item "a" [.container ⟨0, 0, 0⟩ .list
          [item "b" [], item "c" [.container ⟨0, 0, 0⟩ (.orderedList 1) [item "d" []]]]],
          item "e" []]] := by
  intro o points item
  have hne : points ≠ [] := List.cons_ne_nil _ _
  have hfit : Point.AllFit (some 9) points := by
    simp [points, Point.AllFit, Point.Fits]
  have hheight : Point.heights points ≤ o.maxDepth := by decide
  have hsource : String.ofList (Point.render o.indentWidth (some 9) points ++ []) =
      "9. a\n   - b\n   - c\n      1. d\n10. e" := by decide
  have hcolumns : ∀ n ∈ o.maxColumns,
      Text.byteSize (Point.render o.indentWidth (some 9) points ++ []) ≤ n := by decide
  refine ⟨by decide, by decide, hne, hfit, hheight, hsource, ?_⟩
  have hblocks := blocks_outline o (some 9) points [] (by decide) (by decide) hne hfit hheight
    (.inl rfl) hcolumns
  rw [hsource] at hblocks
  exact hblocks

end Document

end TaskMarkup
