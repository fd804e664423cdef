import TaskMarkup.Grammar.Table
import TaskMarkup.Proofs.Grammar.Collect
import TaskMarkup.Proofs.Token.Tiling

namespace TaskMarkup

variable {origin indent : Nat}

def Span.moved (origin : Nat) (s : Span) : Span :=
  { s with start := s.start + origin, stop := s.stop + origin }

theorem Span.relativeTo_moved (origin : Nat) (s : Span) :
    (s.moved origin).relativeTo origin = s := by
  simp [moved, relativeTo]

namespace Inline

mutual

theorem mapSpan_mapSpan (f g : Span → Span) : (c : Inline) →
    (c.mapSpan f).mapSpan g = c.mapSpan (g ∘ f)
  | .text .. => rfl
  | .styled _ _ cs => by simp only [mapSpan, mapSpans_mapSpans f g cs, Function.comp_apply]
  | .raw _ _ cs => by simp only [mapSpan, mapSpans_mapSpans f g cs, Function.comp_apply]
  | .link .. => rfl
  | .tagRef _ c => by simp only [mapSpan, mapSpan_mapSpan f g c, Function.comp_apply]

theorem mapSpans_mapSpans (f g : Span → Span) : (cs : List Inline) →
    mapSpans g (mapSpans f cs) = mapSpans (g ∘ f) cs
  | [] => rfl
  | c :: cs => by simp only [mapSpans, mapSpan_mapSpan f g c, mapSpans_mapSpans f g cs]

end

mutual

theorem mapSpan_id : (c : Inline) → c.mapSpan id = c
  | .text .. => rfl
  | .styled _ _ cs => by simp only [mapSpan, mapSpans_id cs, id]
  | .raw _ _ cs => by simp only [mapSpan, mapSpans_id cs, id]
  | .link .. => rfl
  | .tagRef _ c => by simp only [mapSpan, mapSpan_id c, id]

theorem mapSpans_id : (cs : List Inline) → mapSpans id cs = cs
  | [] => rfl
  | c :: cs => by simp only [mapSpans, mapSpan_id c, mapSpans_id cs]

end

def moved (origin : Nat) (c : Inline) : Inline := c.mapSpan (.moved origin)

theorem span_mapSpan (f : Span → Span) (c : Inline) : (c.mapSpan f).span = f c.span := by
  cases c <;> rfl

@[simp] theorem span_moved (c : Inline) : (c.moved origin).span = c.span.moved origin :=
  span_mapSpan _ c

theorem mapSpans_moved (cs : List Inline) : mapSpans (.moved origin) cs = cs.map (moved origin) :=
  mapSpans_eq_map _ cs

theorem styled_moved (start stop : Nat) (style : Style) (cs : List Inline) :
    (Inline.styled ⟨start, stop, indent⟩ style cs).moved origin =
      .styled ⟨start + origin, stop + origin, indent⟩ style (cs.map (moved origin)) := by
  rw [moved, mapSpan, mapSpans_moved]
  rfl

theorem lastStop_moved (lo : Nat) (cs : List Inline) :
    ((cs.map (moved origin)).getLast?.map (·.span.stop)).getD (lo + origin) =
      (cs.getLast?.map (·.span.stop)).getD lo + origin := by
  rw [List.getLast?_map]
  cases cs.getLast? with
  | none => rfl
  | some c =>
    simp only [Option.map_some, Option.getD_some, span_moved]
    rfl

end Inline

namespace Block

mutual

theorem mapSpan_mapSpan (f g : Span → Span) : (b : Block) →
    (b.mapSpan f).mapSpan g = b.mapSpan (g ∘ f)
  | .dummy _ => rfl
  | .separator _ => rfl
  | .raw _ cs => by simp only [mapSpan, Inline.mapSpans_mapSpans f g cs, Function.comp_apply]
  | .paragraph _ cs => by simp only [mapSpan, Inline.mapSpans_mapSpans f g cs, Function.comp_apply]
  | .header _ _ b => by simp only [mapSpan, mapSpan_mapSpan f g b, Function.comp_apply]
  | .container _ _ bs => by simp only [mapSpan, mapSpans_mapSpans f g bs, Function.comp_apply]

theorem mapSpans_mapSpans (f g : Span → Span) : (bs : List Block) →
    mapSpans g (mapSpans f bs) = mapSpans (g ∘ f) bs
  | [] => rfl
  | b :: bs => by simp only [mapSpans, mapSpan_mapSpan f g b, mapSpans_mapSpans f g bs]

end

mutual

theorem mapSpan_id : (b : Block) → b.mapSpan id = b
  | .dummy _ => rfl
  | .separator _ => rfl
  | .raw _ cs => by simp only [mapSpan, Inline.mapSpans_id cs, id]
  | .paragraph _ cs => by simp only [mapSpan, Inline.mapSpans_id cs, id]
  | .header _ _ b => by simp only [mapSpan, mapSpan_id b, id]
  | .container _ _ bs => by simp only [mapSpan, mapSpans_id bs, id]

theorem mapSpans_id : (bs : List Block) → mapSpans id bs = bs
  | [] => rfl
  | b :: bs => by simp only [mapSpans, mapSpan_id b, mapSpans_id bs]

end

def moved (origin : Nat) (b : Block) : Block := b.mapSpan (.moved origin)

theorem span_mapSpan (f : Span → Span) (b : Block) : (b.mapSpan f).span = f b.span := by
  cases b <;> rfl

@[simp] theorem span_moved (b : Block) : (b.moved origin).span = b.span.moved origin :=
  span_mapSpan _ b

theorem stop_moved (b : Block) : (b.moved origin).stop = b.stop + origin := by
  rw [stop, span_moved]
  rfl

theorem paragraph_moved (start stop : Nat) (cs : List Inline) :
    (Block.paragraph ⟨start, stop, indent⟩ cs).moved origin =
      .paragraph ⟨start + origin, stop + origin, indent⟩ (cs.map (Inline.moved origin)) := by
  rw [moved, mapSpan, Inline.mapSpans_moved]
  rfl

theorem mapSpans_moved (bs : List Block) : mapSpans (.moved origin) bs = bs.map (moved origin) :=
  mapSpans_eq_map _ bs

theorem relativeTo_moved (origin : Nat) (b : Block) : (b.moved origin).relativeTo origin = b := by
  rw [relativeTo, moved, mapSpan_mapSpan]
  refine Eq.trans (congrArg b.mapSpan ?_) b.mapSpan_id
  funext s
  exact s.relativeTo_moved origin

end Block

theorem foldl_max_moved {α : Type} (stop : α → Nat) (move : α → α)
    (h : ∀ c, stop (move c) = stop c + origin) (cs : List α) (m : Nat) :
    (cs.map move).foldl (fun m c => max m (stop c)) (m + origin) =
      cs.foldl (fun m c => max m (stop c)) m + origin := by
  induction cs generalizing m with
  | nil => rfl
  | cons c cs ih =>
    rw [List.map_cons, List.foldl_cons, List.foldl_cons, h, Nat.add_max_add_right]
    exact ih _

namespace TextRun

def moved (origin : Nat) (r : TextRun) : TextRun :=
  { r with start := r.start + origin, stop := r.stop + origin }

theorem extend_moved (run : Option TextRun) (t : Token) (text : List Char) :
    extend (run.map (moved origin)) (t.moved origin) text = (extend run t text).moved origin := by
  cases run with
  | none => simp [extend, moved]
  | some r => simp [extend, moved]

theorem toList_moved (run : Option TextRun) :
    ((run.map (moved origin)).map (toInline indent)).toList =
      ((run.map (toInline indent)).toList).map (Inline.moved origin) := by
  cases run <;> rfl

end TextRun

namespace InlineContent

def moved (origin : Nat) (c : InlineContent) : InlineContent where
  nodes := c.nodes.map (.moved origin)
  pending := c.pending.map (.moved origin)

variable {c : InlineContent}

theorem push_moved (t : Token) (text : List Char) :
    (c.moved origin).push (t.moved origin) text = (c.push t text).moved origin := by
  simp [push, moved, TextRun.extend_moved]

theorem flush_moved :
    (c.moved origin).flush indent = (c.flush indent).map (Inline.moved origin) := by
  simp only [flush, moved, List.map_append, TextRun.toList_moved]

theorem add_moved (node : Inline) :
    (c.moved origin).add indent (node.moved origin) = (c.add indent node).moved origin := by
  rw [add, flush_moved, add]
  simp [moved]

end InlineContent

def TableState.moved (origin : Nat) (st : TableState) : TableState :=
  { st with
    rows := st.rows.map (.moved origin)
    cells := st.cells.map (.moved origin)
    rowStart := st.rowStart + origin }

end TaskMarkup
