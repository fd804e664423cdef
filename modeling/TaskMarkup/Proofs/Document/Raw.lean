import TaskMarkup.Proofs.Document.Excerpts
import TaskMarkup.Proofs.Grammar.Raw

namespace TaskMarkup

namespace Document

def rawSource (width : Nat) (first : String) (lines : List String) : String :=
  "\n".intercalate (("> " ++ first) ::
    lines.map fun line => String.ofList (Text.indented width line.toList))

theorem toList_intercalate_newline (first : String) (lines : List String) :
    ("\n".intercalate (first :: lines)).toList =
      first.toList ++ Text.below (lines.map String.toList) := by
  rw [String.toList_intercalate, List.map_cons]
  exact Text.intercalate_cons '\n' first.toList (lines.map String.toList)

theorem toList_rawSource (width : Nat) (first : String) (lines : List String) :
    (rawSource width first lines).toList = '>' :: ' ' :: (first.toList ++
      Text.below ((lines.map String.toList).map (Text.indented width))) := by
  rw [rawSource, toList_intercalate_newline, List.map_map, List.map_map, String.toList_append]
  simp [Function.comp_def]

theorem blocks_raw_lines {o : Options} {first : List Char} {lines : List (List Char)}
    {text : List Char} (hpeeks : 100 ≤ o.maxPeeks) (hwidth : 1 ≤ o.indentWidth)
    (htext : text = '>' :: ' ' :: (first ++ Text.below (lines.map (Text.indented o.indentWidth))))
    (hfirst : '\n' ∉ first) (hlines : ∀ line ∈ lines, line = [] ∨ Text.Spaced line)
    (hlast : ∀ line ∈ lines.getLast?, line ≠ [])
    (hcolumns : ∀ n ∈ o.maxColumns, o.indentWidth ≤ n ∧ 2 * Text.byteSize text ≤ n) :
    blocks o (String.ofList text) = .ok [.raw ⟨0, Text.byteSize text, 0⟩
      [.text ⟨2, Text.byteSize text, 0⟩ (String.ofList (first ++ Text.below lines))]] := by
  have hruler : (0 + 1) * o.level.ruler.width = o.indentWidth := by
    rw [Nat.zero_add, Nat.one_mul]
    exact Nat.max_eq_left hwidth
  obtain ⟨angle, rest, htoks, hangle, -⟩ := Token.exists_cons_of_char?
    (fun t ht => spelled_of_mem_tokenize ht) (show Tag.rightAngle.char? = some '>' from rfl)
    ((texts_tokenize text).trans htext)
  have hcontent : ((tokenize text).head?.map Token.tag).any Tag.isContent = true := by
    simp [htoks, hangle, Tag.isContent, Tag.isInlineSpace, Tag.endsLine]
  have hmarker (f : Lexer Cursor) (hp : f.pending = tokenize text) :
      Parse.announced o.level.room f = .raw := by
    have hahead : f.ahead 0 = angle := Lexer.ahead_zero_of_cons (hp.trans htoks)
    simp [Parse.announced, Parse.classified, hahead, hangle, Marker.opensBody]
  obtain ⟨b, rfl, hblocks⟩ := Reader.exists_block (P := fun b => b = .raw _ [.text _ _])
    hpeeks hcontent hmarker fun f t hf ht => by
    have hsize : f.source.size = Text.byteSize text := by rw [f.source.size_eq, hf.source]
    have hstart := (ht.nextOffset_eq hf.steady.sound).trans hf.nextOffset_eq_zero
    have hfaces : Lexer.Faces f.source ('>' :: ' ' :: (first ++
        Text.below (lines.map (Text.indented ((0 + 1) * o.level.ruler.width))))) t := by
      refine ⟨ht.sound, ht.paused.trans hf.steady.unpaused, ht.source, ?_⟩
      rw [hruler, ← htext, ht.pending_eq, hf.pending, texts_tokenize]
    refine (Parse.ends_rawBlock_faces hfaces (Nat.lt_of_lt_of_le Nat.one_pos
      (Nat.le_max_right ..)) hfirst hlines hlast (by rwa [hruler, hsize])).imp ?_
    rintro _ u ⟨rfl, hpu⟩
    rw [hstart, hsize]
    exact ⟨rfl, hpu⟩
  exact hblocks

/-- A line below the first is empty, or there is something else than white space on it and no tab
before that. The last one is not empty. A text has at most half as many bytes as columns can be
counted. -/
theorem blocks_raw (o : Options) (first : String) (lines : List String)
    (hpeeks : 100 ≤ o.maxPeeks) (hwidth : 1 ≤ o.indentWidth) (hfirst : '\n' ∉ first.toList)
    (hlines : ∀ line ∈ lines, line = "" ∨ Text.Spaced line.toList)
    (hlast : ∀ line ∈ lines.getLast?, line ≠ "")
    (hcolumns : ∀ n ∈ o.maxColumns, o.indentWidth ≤ n ∧
      2 * (Source.ofString (rawSource o.indentWidth first lines)).size ≤ n) :
    let source := rawSource o.indentWidth first lines
    let size := (Source.ofString source).size
    blocks o source = .ok [.raw ⟨0, size, 0⟩
      [.text ⟨2, size, 0⟩ ("\n".intercalate (first :: lines))]] := by
  intro source size
  have hempty (line : String) : line.toList = [] ↔ line = "" := String.toList_eq_nil_iff
  have hlines' : ∀ line ∈ lines.map String.toList, line = [] ∨ Text.Spaced line := by
    intro _ hmem
    obtain ⟨line, hline, rfl⟩ := List.mem_map.1 hmem
    exact (hlines line hline).imp_left (hempty line).2
  have hlast' : ∀ line ∈ (lines.map String.toList).getLast?, line ≠ [] := by
    intro _ hmem
    rw [List.getLast?_map] at hmem
    obtain ⟨line, hline, rfl⟩ := by simpa using hmem
    exact fun hnil => hlast line hline ((hempty line).1 hnil)
  have hblocks := blocks_raw_lines hpeeks hwidth (toList_rawSource ..) hfirst hlines' hlast'
    hcolumns
  rw [String.ofList_toList, ← toList_intercalate_newline, String.ofList_toList] at hblocks
  exact hblocks

theorem blocks_raw_verbatim :
    let o : Options := { indentWidth := 4 }
    let lines := ["", "  *deep*", "", "- [ ] x "]
    100 ≤ o.maxPeeks ∧ 1 ≤ o.indentWidth ∧ '\n' ∉ "| a".toList ∧
      (∀ line ∈ lines, line = "" ∨ Text.Spaced line.toList) ∧
      (∀ line ∈ lines.getLast?, line ≠ "") ∧
      rawSource o.indentWidth "| a" lines = "> | a\n\n      *deep*\n\n    - [ ] x " ∧
      blocks o "> | a\n\n      *deep*\n\n    - [ ] x " = .ok [.raw ⟨0, 33, 0⟩
        [.text ⟨2, 33, 0⟩ "| a\n\n  *deep*\n\n- [ ] x "]] := by
  intro o lines
  have hfirst : '\n' ∉ "| a".toList := by decide
  have hdeep : Text.Spaced "  *deep*".toList := ⟨by decide, ⟨'d', by decide⟩, by decide⟩
  have hitem : Text.Spaced "- [ ] x ".toList := ⟨by decide, ⟨'x', by decide⟩, by decide⟩
  have hlines : ∀ line ∈ lines, line = "" ∨ Text.Spaced line.toList := by
    intro line hline
    simp only [lines, List.mem_cons, List.not_mem_nil, or_false] at hline
    obtain rfl | rfl | rfl | rfl := hline
    exacts [.inl rfl, .inr hdeep, .inl rfl, .inr hitem]
  have hlast : ∀ line ∈ lines.getLast?, line ≠ "" := by decide
  have hsource : rawSource o.indentWidth "| a" lines = "> | a\n\n      *deep*\n\n    - [ ] x " := by
    decide +kernel
  refine ⟨by decide, by decide, hfirst, hlines, hlast, hsource, ?_⟩
  have hblocks := blocks_raw o "| a" lines (by decide) (by decide) hfirst hlines hlast
    (by rw [hsource]; decide)
  have hsize : (Source.ofString "> | a\n\n      *deep*\n\n    - [ ] x ").size = 33 := by
    decide +kernel
  have htext : "\n".intercalate ("| a" :: lines) = "| a\n\n  *deep*\n\n- [ ] x " := by
    decide +kernel
  simpa only [hsize, htext, hsource] using hblocks

end Document

end TaskMarkup
