import TaskMarkup.Proofs.Document.Origin
import TaskMarkup.Proofs.Formed.Nested

namespace TaskMarkup

open Parse Rule Origin

/-- The spans of a block's text nest, at most six deep. The text of a header stands on one line, and
so does the paragraph of a cell that starts on the line of its bar. -/
structure Block.Nested (src : Source) (b : Block) : Prop where
  spans : Inline.AllNested [] false b.inlines
  depth : Inline.stylesDepth b.inlines ≤ 6
  header : ∀ span size child, b = .header span size child →
    ∃ s cs, child = .paragraph s cs ∧ Inline.AllNested [] true cs
  cell : ∀ span config bs, b = .container span (.tableCell config) bs → ∀ c ∈ bs,
    '\n' ∉ src.slice span.start c.start → ∃ s cs, c = .paragraph s cs ∧ Inline.AllNested [] true cs

variable {src : Source} {b : Block}

theorem Block.Nested.of_spans (h : Inline.AllNested [] false b.inlines)
    (hheader : ∀ span size child, b ≠ .header span size child)
    (hcell : ∀ span config bs, b ≠ .container span (.tableCell config) bs) : b.Nested src where
  spans := h
  depth := by simpa [Style.all] using h.depth_le List.nodup_nil
  header span size child hb := absurd hb (hheader span size child)
  cell span config bs hb := absurd hb (hcell span config bs)

theorem Origin.Paragraph.allNested {p : ParagraphContext} (h : Paragraph src p b)
    (hp : p.mode ≠ .block) : ∃ s cs, b = .paragraph s cs ∧ Inline.AllNested [] true cs := by
  obtain ⟨span, cs, rfl⟩ := h.exists_eq
  obtain ⟨s, t, hsrc, hs, hb⟩ := h
  have hnested := ((yields_paragraph_nested p s hs.toSteady.placed hsrc).of_ok hb).2
  exact ⟨span, cs, rfl, by simpa [Block.inlines, hp] using hnested⟩

theorem Origin.Paragraph.nested {p : ParagraphContext} (h : Paragraph src p b) : b.Nested src := by
  obtain ⟨span, cs, rfl⟩ := h.exists_eq
  obtain ⟨s, t, hsrc, hs, hb⟩ := h
  have hnested := ((yields_paragraph_nested p s hs.toSteady.placed hsrc).of_ok hb).2
  have hspans : Inline.AllNested [] false cs := hnested.relax (by simp)
  exact .of_spans hspans (by simp) (by simp)

theorem hereditary_nested (src : Source) : Hereditary src (Block.Nested src) where
  made hsrc h := by
    subst hsrc
    have hraw {span : Span} {text : String} :
        Inline.AllNested [] false [.text span text] := ⟨fun h => absurd h (by decide), trivial⟩
    cases h with
    | header hchild =>
      refine ⟨trivial, Nat.zero_le _, ?_, by simp⟩
      rintro _ _ _ ⟨⟩
      exact hchild.allNested (by simp)
    | raw => exact .of_spans hraw (by simp) (by simp)
    | paragraph hs hb => exact Paragraph.nested ⟨_, _, rfl, hs, hb⟩
    | task | list | ordered | table | separator => exact .of_spans trivial (by simp) (by simp)
  paragraph := Paragraph.nested
  item h := by
    obtain ⟨s, stop, bs, -, -, -, rfl, -⟩ := h
    exact .of_spans trivial (by simp) (by simp)
  row h := by
    obtain ⟨start, stop, divider, cells, rfl, -⟩ := h
    exact .of_spans trivial (by simp) (by simp)
  cell h := by
    obtain ⟨start, stop, config, line, bs, rfl, hline, hbelow, -⟩ := h
    refine ⟨trivial, Nat.zero_le _, by simp, ?_⟩
    rintro _ _ _ ⟨⟩ c hc hbreak
    rcases List.mem_append.1 hc with hc | hc
    · exact (hline c (by simpa using hc)).1.allNested (by simp)
    · exact absurd (hbelow c hc) hbreak

namespace Document

theorem read_nested (o : Options) (text : String) :
    Block.AllThroughout (Block.Nested (Source.ofString text)) (read o text).blocks :=
  read_throughout o text (hereditary_nested _) (.of_spans trivial (by simp) (by simp))

/-- All six styles can be open at once. -/
example : (read {} "***a **b *c ~~d ~e ^f").blocks.map (Inline.stylesDepth ·.inlines) = [6] := by
  decide +kernel

end Document

end TaskMarkup
