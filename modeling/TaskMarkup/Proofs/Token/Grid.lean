import TaskMarkup.Grammar.Table
import TaskMarkup.Proofs.Token.Prose

namespace TaskMarkup

namespace Grid

inductive Brackets
  | hidden
  | size (width height : CellSpan)

structure Cell where
  brackets : Option Brackets
  word : List Char

abbrev Row := List (List Cell)

inductive Line
  | cells (cs : List Cell)
  | divider

def renderSpan : CellSpan → List Char
  | .count n => Nat.toDigits 10 n
  | .fill => ['*']

def Brackets.render : Brackets → List Char
  | .hidden => ['[', '#', ']']
  | .size width height => '[' :: (renderSpan width ++ ':' :: (renderSpan height ++ [']']))

def Cell.render (c : Cell) : List Char := '|' :: (c.brackets.elim [] Brackets.render ++ c.word)

def Line.render : Line → List Char
  | .cells cs => cs.flatMap Cell.render
  | .divider => ['|', '-']

def lines (closed : List Row) (opened : Option Row) : List Line :=
  closed.flatMap (fun row => row.map .cells ++ [.divider]) ++ opened.elim [] (List.map .cells)

def render (closed : List Row) (opened : Option Row) : List Char :=
  ['\n'].intercalate ((lines closed opened).map Line.render)

def FitsSpan : CellSpan → Prop
  | .count n => n < 10 ^ 8
  | .fill => True

def Brackets.Fits : Brackets → Prop
  | .hidden => True
  | .size width height => FitsSpan width ∧ FitsSpan height

structure Cell.Fits (c : Cell) : Prop where
  word : c.word ≠ []
  letters : ∀ a ∈ c.word, a.isAlpha = true
  brackets : ∀ b ∈ c.brackets, b.Fits

def Line.Fits : Line → Prop
  | .cells cs => cs ≠ [] ∧ ∀ c ∈ cs, c.Fits
  | .divider => True

structure Row.Fits (row : Row) : Prop where
  ne_nil : row ≠ []
  lines : ∀ cs ∈ row, Line.Fits (.cells cs)

inductive Bracketed : Option Brackets → List Token → Prop
  | none : Bracketed none []
  | hidden {opening hash closing : Token} : opening.tag = .leftBracket → hash.tag = .hash →
      closing.tag = .rightBracket → Bracketed (some .hidden) [opening, hash, closing]
  | size {opening w colon h closing : Token} {width height : CellSpan} :
      opening.tag = .leftBracket → CellSpan.ofToken? w = some width → colon.tag = .colon →
      CellSpan.ofToken? h = some height → closing.tag = .rightBracket →
      Bracketed (some (.size width height)) [opening, w, colon, h, closing]

inductive Cells : List Cell → List Token → List Token → Prop
  | nil {rest : List Token} : Cells [] rest rest
  | cons {c : Cell} {cs : List Cell} {bar word : Token} {brackets toks rest : List Token} :
      bar.tag = .pipe → Bracketed c.brackets brackets → word.tag = .word → word.text = c.word →
      Cells cs toks rest → Cells (c :: cs) (bar :: (brackets ++ word :: toks)) rest

inductive Written : Line → List Token → List Token → Prop
  | cells {cs : List Cell} {toks rest : List Token} : cs ≠ [] → Cells cs toks rest →
      Written (.cells cs) toks rest
  | divider {bar dash : Token} {rest : List Token} : bar.tag = .pipe → dash.tag = .dash →
      Written .divider (bar :: dash :: rest) rest

inductive Behind : List Line → List Token → Prop
  | nil : Behind [] []
  | newline {nl : Token} : nl.tag = .newline → Behind [] [nl]
  | line {l : Line} {ls : List Line} {nl : Token} {toks rest : List Token} : nl.tag = .newline →
      Written l toks rest → Behind ls rest → Behind (l :: ls) (nl :: toks)

open Text Token

variable {c : Char} {tag : Tag} {cs : List Cell} {l : Line} {ls : List Line} {row : Row}
  {closed : List Row} {opened : Option Row} {tail : List Char}

theorem exists_place_reserved (hc : Tag.ofChar? c = some tag) (cs : List Char) (start : Nat) :
    ∃ t start', t.tag = tag ∧ place start (runs (c :: cs)) = t :: place start' (runs cs) := by
  rw [runs_cons hc]
  exact ⟨_, _, Tag.ofRun_reserved hc, rfl⟩

theorem exists_place_span {span : CellSpan} (h : FitsSpan span) (hc : Tag.ofChar? c = some tag)
    (tail : List Char) (start : Nat) : ∃ t start', CellSpan.ofToken? t = some span ∧
      place start (runs (renderSpan span ++ c :: tail)) = t :: place start' (runs (c :: tail)) := by
  cases span with
  | count n =>
    rw [renderSpan, runs_append_cons hc, runs_toDigits, ← runs_cons hc]
    have htag := Tag.ofRun_toDigits h
    have hvalue : (Token.mk .number start (Nat.toDigits 10 n)).value? = some n :=
      value?_of_toDigits rfl rfl
    refine ⟨_, _, ?_, rfl⟩
    simp [CellSpan.ofToken?, htag, hvalue]
  | fill =>
    obtain ⟨t, start', htag, hplace⟩ := exists_place_reserved
      (show Tag.ofChar? '*' = some .asterisk from rfl) (c :: tail) start
    exact ⟨t, start', by simp [CellSpan.ofToken?, htag], hplace⟩

theorem exists_place_brackets {brackets : Option Brackets} (h : ∀ b ∈ brackets, b.Fits)
    (tail : List Char) (start : Nat) : ∃ ts start', Bracketed brackets ts ∧
      place start (runs (brackets.elim [] Brackets.render ++ tail)) =
        ts ++ place start' (runs tail) := by
  have hopening : Tag.ofChar? '[' = some .leftBracket := rfl
  have hclosing : Tag.ofChar? ']' = some .rightBracket := rfl
  cases brackets with
  | none => exact ⟨[], start, .none, rfl⟩
  | some b =>
    cases b with
    | hidden =>
      have hhash : Tag.ofChar? '#' = some .hash := rfl
      obtain ⟨opening, s₁, htag₁, hplace₁⟩ := exists_place_reserved hopening
        ('#' :: ']' :: tail) start
      obtain ⟨hash, s₂, htag₂, hplace₂⟩ := exists_place_reserved hhash (']' :: tail) s₁
      obtain ⟨closing, s₃, htag₃, hplace₃⟩ := exists_place_reserved hclosing tail s₂
      refine ⟨_, s₃, .hidden htag₁ htag₂ htag₃, ?_⟩
      rw [hplace₃] at hplace₂
      rw [hplace₂] at hplace₁
      exact hplace₁
    | size width height =>
      have hcolon : Tag.ofChar? ':' = some .colon := rfl
      obtain ⟨hwidth, hheight⟩ := h _ rfl
      obtain ⟨opening, s₁, htag₁, hplace₁⟩ := exists_place_reserved hopening
        (renderSpan width ++ ':' :: (renderSpan height ++ ']' :: tail)) start
      obtain ⟨w, s₂, hw, hplace₂⟩ := exists_place_span hwidth hcolon
        (renderSpan height ++ ']' :: tail) s₁
      obtain ⟨colon, s₃, htag₃, hplace₃⟩ := exists_place_reserved hcolon
        (renderSpan height ++ ']' :: tail) s₂
      obtain ⟨h, s₄, hh, hplace₄⟩ := exists_place_span hheight hclosing tail s₃
      obtain ⟨closing, s₅, htag₅, hplace₅⟩ := exists_place_reserved hclosing tail s₄
      refine ⟨_, s₅, .size htag₁ hw htag₃ hh htag₅, ?_⟩
      have hrender : Brackets.render (.size width height) ++ tail =
          '[' :: (renderSpan width ++ ':' :: (renderSpan height ++ ']' :: tail)) := by
        simp [Brackets.render]
      rw [Option.elim, hrender, hplace₁, hplace₂, hplace₃, hplace₄, hplace₅]
      rfl

theorem exists_place_cells (h : ∀ c ∈ cs, c.Fits) (htail : Sealed tail) (start : Nat) :
    ∃ start', Cells cs (place start (runs (cs.flatMap Cell.render ++ tail)))
      (place start' (runs tail)) := by
  have hbar : Tag.ofChar? '|' = some .pipe := rfl
  induction cs generalizing start with
  | nil => exact ⟨start, .nil⟩
  | cons c cs ih =>
    obtain ⟨hc, hcs⟩ := List.forall_mem_cons.1 h
    have hnext : Sealed (cs.flatMap Cell.render ++ tail) := by
      cases cs with
      | nil => exact htail
      | cons c cs => exact sealed_cons hbar _
    rw [List.flatMap_cons, Cell.render, List.append_assoc, List.cons_append, List.append_assoc,
      runs_cons hbar, place]
    obtain ⟨ts, start', hts, hplace⟩ := exists_place_brackets hc.brackets
      (c.word ++ (cs.flatMap Cell.render ++ tail)) (start + byteSize ['|'])
    rw [hplace, place_letters hc.word hc.letters hnext]
    obtain ⟨start'', hrest⟩ := ih hcs (start' + byteSize c.word)
    exact ⟨start'', .cons rfl hts rfl rfl hrest⟩

theorem exists_written (h : l.Fits) (htail : Sealed tail) (start : Nat) :
    ∃ start', Written l (place start (runs (l.render ++ tail))) (place start' (runs tail)) := by
  cases l with
  | cells cs =>
    obtain ⟨start', hcells⟩ := exists_place_cells h.2 htail start
    exact ⟨start', .cells h.1 hcells⟩
  | divider =>
    have hbar : Tag.ofChar? '|' = some .pipe := rfl
    have hdash : Tag.ofChar? '-' = some .dash := rfl
    simp only [Line.render, List.cons_append, List.nil_append, runs_cons hbar, runs_cons hdash]
    exact ⟨_, .divider rfl rfl⟩

theorem behind_lines (h : ∀ l ∈ ls, l.Fits) (htail : tail = [] ∨ tail = ['\n']) (start : Nat) :
    Behind ls (place start (runs (ls.flatMap (fun l => '\n' :: l.render) ++ tail))) := by
  induction ls generalizing start with
  | nil =>
    rcases htail with rfl | rfl
    · exact .nil
    · exact .newline rfl
  | cons l ls ih =>
    obtain ⟨hl, hls⟩ := List.forall_mem_cons.1 h
    have hnewline : Tag.ofChar? '\n' = some .newline := rfl
    rw [List.flatMap_cons, List.append_assoc, List.cons_append, runs_cons hnewline, place]
    obtain ⟨start', hwritten⟩ := exists_written hl (sealed_lines Line.render ls htail)
      (start + byteSize ['\n'])
    exact .line rfl hwritten (ih hls start')

theorem fits_lines (h : ∀ row ∈ closed ++ opened.toList, row.Fits) :
    ∀ l ∈ lines closed opened, l.Fits := by
  have hrow : ∀ row ∈ closed ++ opened.toList, ∀ l ∈ row.map Line.cells, l.Fits := by
    intro row hrow l hl
    obtain ⟨cs, hcs, rfl⟩ := List.mem_map.1 hl
    exact (h row hrow).lines cs hcs
  intro l hl
  rcases List.mem_append.1 hl with hl | hl
  · obtain ⟨row, hmem, hl⟩ := List.mem_flatMap.1 hl
    rcases List.mem_append.1 hl with hl | hl
    · exact hrow row (by simp [hmem]) l hl
    · obtain rfl := List.mem_singleton.1 hl
      trivial
  · cases opened with
    | none => simp at hl
    | some row => exact hrow row (by simp) l hl

theorem lines_ne_nil (h : ∀ row ∈ closed ++ opened.toList, row.Fits)
    (hne : closed ++ opened.toList ≠ []) : lines closed opened ≠ [] := by
  cases closed with
  | cons row closed => simp [lines]
  | nil =>
    cases opened with
    | none => simp at hne
    | some row => simpa [lines] using (h row (by simp)).ne_nil

theorem exists_written_render (h : ∀ row ∈ closed ++ opened.toList, row.Fits)
    (hne : closed ++ opened.toList ≠ []) (htail : tail = [] ∨ tail = ['\n']) :
    ∃ l ls rest, lines closed opened = l :: ls ∧
      Written l (tokenize (render closed opened ++ tail)) rest ∧ Behind ls rest := by
  obtain ⟨l, ls, hlines⟩ := List.exists_cons_of_ne_nil (lines_ne_nil h hne)
  have hfits := fits_lines h
  rw [hlines] at hfits
  obtain ⟨hl, hls⟩ := List.forall_mem_cons.1 hfits
  obtain ⟨start, hwritten⟩ := exists_written hl (sealed_lines Line.render ls htail) 0
  refine ⟨l, ls, _, hlines, ?_, behind_lines hls htail start⟩
  rw [render, hlines, List.map_cons, intercalate_cons, List.flatMap_map, List.append_assoc]
  exact hwritten

end Grid

end TaskMarkup
