import Mathlib
import TaskMarkup.Proofs.Document.Origin

namespace TaskMarkup

open Origin

/-- A row with a divider is ruled off behind its last cell. -/
def Block.RuledOff (src : Source) (b : Block) : Prop :=
  ∀ span cells, b = .container span (.tableRow true) cells → Origin.RuledOff src cells span.stop

theorem hereditary_ruledOff (src : Source) : Hereditary src (Block.RuledOff src) where
  made _ h := by cases h <;> rintro _ _ ⟨⟩
  paragraph h := by
    obtain ⟨span, cs, rfl⟩ := h.exists_eq
    rintro _ _ ⟨⟩
  item h := by
    obtain ⟨s, stop, bs, -, -, -, rfl, -⟩ := h
    rintro _ _ ⟨⟩
  row h := by
    obtain ⟨start, stop, divider, cells, rfl, -, -, hruled⟩ := h
    rintro _ _ ⟨⟩
    exact hruled rfl
  cell h := by
    obtain ⟨start, stop, config, line, bs, rfl, -⟩ := h
    rintro _ _ ⟨⟩

namespace Document

theorem read_ruledOff (o : Options) (text : String) :
    Block.AllThroughout (Block.RuledOff (Source.ofString text)) (read o text).blocks :=
  read_throughout o text (hereditary_ruledOff _) fun _ _ h => nomatch h

/-- A dash at the start of a cell closes the row on the line of the cell before it: there is no line
that begins with a bar and a dash. -/
theorem exists_divided_within_line : ∃ span cells c,
    (read {} "| a |- b").blocks =
      [.container ⟨0, 8, 0⟩ (.table true) [.container span (.tableRow true) cells]] ∧
    c ∈ cells.getLast? ∧ ¬∃ p, c.start ≤ p ∧ p + 2 ≤ 8 ∧
      (Source.ofString "| a |- b").slice p (p + 2) = ['|', '-'] ∧
      ((∀ d ∈ (Source.ofString "| a |- b").before p, d = ' ' ∨ d = '\t') ∨
        Text.OpensLine ((Source.ofString "| a |- b").before p)) := by
  refine ⟨_, _, _, by cbv, rfl, ?_⟩
  rintro ⟨p, -, hp, hslice, hline⟩
  have hdash : ∀ p < 7, (Source.ofString "| a |- b").slice p (p + 2) = ['|', '-'] → p = 4 := by
    decide
  obtain rfl := hdash p (by omega) hslice
  have hbefore : (Source.ofString "| a |- b").before 4 = ['|', ' ', 'a', ' '] := by decide
  rw [hbefore] at hline
  rcases hline with hblank | ⟨as, ws, has, -⟩
  · simpa using hblank '|' (by simp)
  · have hmem : '\n' ∈ ['|', ' ', 'a', ' '] := by simp [has]
    simp at hmem

end Document

end TaskMarkup
