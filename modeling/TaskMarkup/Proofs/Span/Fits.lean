import TaskMarkup.Block
import TaskMarkup.Proofs.Span.Offsets

/-!
Well-spanned trees. A node covers a stretch of the source between two of its characters, its
children stand inside that stretch one behind the other, and the stretch of a block does not reach
into the indentation of a line.
-/

namespace TaskMarkup

namespace Span

variable {src : Source}

structure Proper (src : Source) (s : Span) : Prop where
  le : s.start ≤ s.stop
  start : src.IsBoundary s.start
  stop : src.IsBoundary s.stop

/-- The span of a block: what it covers does not end within an indentation. -/
structure Tidy (src : Source) (s : Span) : Prop extends s.Proper src where
  not_dangles : ¬ Text.Dangles (src.slice s.start s.stop)

def Ordered (lo hi : Nat) : List Span → Prop
  | [] => lo ≤ hi
  | s :: ss => lo ≤ s.start ∧ s.start ≤ s.stop ∧ Ordered s.stop hi ss

theorem Tidy.of_before {s : Span} (h : s.Proper src)
    (hd : ¬ Text.Dangles (src.before s.stop)) : s.Tidy src where
  toProper := h
  not_dangles hs := by
    rw [Source.before_eq_append_slice h.start h.stop h.le] at hd
    exact hd (hs.append_left _)

theorem Ordered.le {lo hi : Nat} {ss : List Span} (h : Ordered lo hi ss) : lo ≤ hi := by
  induction ss generalizing lo with
  | nil => exact h
  | cons s ss ih => exact Nat.le_trans h.1 (Nat.le_trans h.2.1 (ih h.2.2))

theorem Ordered.pairwise {lo hi : Nat} {ss : List Span} (h : Ordered lo hi ss) :
    (∀ s ∈ ss, lo ≤ s.start) ∧ ss.Pairwise fun s t => s.stop ≤ t.start := by
  induction ss generalizing lo with
  | nil => simp
  | cons s ss ih =>
    obtain ⟨hlo, hle, h⟩ := h
    obtain ⟨hstart, hpair⟩ := ih h
    refine ⟨?_, List.pairwise_cons.2 ⟨hstart, hpair⟩⟩
    intro t ht
    rcases List.mem_cons.1 ht with rfl | ht
    · exact hlo
    · have := hstart t ht
      omega

theorem ordered_append {lo hi : Nat} {ss ts : List Span} :
    Ordered lo hi (ss ++ ts) ↔ ∃ mid, Ordered lo mid ss ∧ Ordered mid hi ts := by
  induction ss generalizing lo with
  | nil =>
    constructor
    · exact fun h => ⟨lo, Nat.le_refl _, h⟩
    · rintro ⟨mid, hlo, h⟩
      cases ts with
      | nil => exact Nat.le_trans hlo h
      | cons t ts => exact ⟨Nat.le_trans hlo h.1, h.2⟩
  | cons s ss ih =>
    simp only [List.cons_append, Ordered, ih]
    constructor
    · rintro ⟨h1, h2, mid, h3, h4⟩
      exact ⟨mid, ⟨h1, h2, h3⟩, h4⟩
    · rintro ⟨mid, ⟨h1, h2, h3⟩, h4⟩
      exact ⟨h1, h2, mid, h3, h4⟩

end Span

mutual

def Inline.Fits (src : Source) : Inline → Prop
  | .text s _ => s.Proper src
  | .styled s _ cs =>
    s.Proper src ∧ Span.Ordered s.start s.stop (cs.map Inline.span) ∧ Inline.AllFit src cs
  | .raw s _ cs =>
    s.Proper src ∧ Span.Ordered s.start s.stop (cs.map Inline.span) ∧ Inline.AllFit src cs
  | .link s _ _ => s.Proper src
  | .tagRef s c => s.Proper src ∧ Span.Ordered s.start s.stop [c.span] ∧ c.Fits src

def Inline.AllFit (src : Source) : List Inline → Prop
  | [] => True
  | c :: cs => c.Fits src ∧ Inline.AllFit src cs

end

mutual

/-- The block and all below it cover proper stretches, those of siblings in order inside that of
their parent, and no block ends within an indentation. -/
def Block.Fits (src : Source) : Block → Prop
  | .dummy s => s.Tidy src
  | .separator s => s.Tidy src
  | .raw s cs =>
    s.Tidy src ∧ Span.Ordered s.start s.stop (cs.map Inline.span) ∧ ∀ c ∈ cs, c.Fits src
  | .paragraph s cs =>
    s.Tidy src ∧ Span.Ordered s.start s.stop (cs.map Inline.span) ∧ ∀ c ∈ cs, c.Fits src
  | .header s _ b => s.Tidy src ∧ Span.Ordered s.start s.stop [b.span] ∧ b.Fits src
  | .container s _ bs =>
    s.Tidy src ∧ Span.Ordered s.start s.stop (bs.map Block.span) ∧ Block.AllFit src bs

def Block.AllFit (src : Source) : List Block → Prop
  | [] => True
  | b :: bs => b.Fits src ∧ Block.AllFit src bs

end

variable {src : Source} {α : Type} {span : α → Span} {Fits : α → Prop} {lo mid hi hi' : Nat}
  {cs ds : List α} {c : α}

theorem Inline.allFit_iff {cs : List Inline} : Inline.AllFit src cs ↔ ∀ c ∈ cs, c.Fits src := by
  induction cs with
  | nil => simp [Inline.AllFit]
  | cons c cs ih => simp [Inline.AllFit, ih]

theorem Block.allFit_iff {bs : List Block} : Block.AllFit src bs ↔ ∀ b ∈ bs, b.Fits src := by
  induction bs with
  | nil => simp [Block.AllFit]
  | cons b bs ih => simp [Block.AllFit, ih]

structure Row (span : α → Span) (Fits : α → Prop) (lo hi : Nat) (cs : List α) : Prop where
  ordered : Span.Ordered lo hi (cs.map span)
  fits : ∀ c ∈ cs, Fits c

namespace Row

theorem nil (h : lo ≤ hi) : Row span Fits lo hi [] := ⟨h, by simp⟩

theorem le (h : Row span Fits lo hi cs) : lo ≤ hi := h.ordered.le

theorem append (h : Row span Fits lo mid cs) (h' : Row span Fits mid hi ds) :
    Row span Fits lo hi (cs ++ ds) where
  ordered := by
    rw [List.map_append]
    exact Span.ordered_append.2 ⟨mid, h.ordered, h'.ordered⟩
  fits c hc := (List.mem_append.1 hc).elim (h.fits c) (h'.fits c)

theorem mono (h : Row span Fits lo hi cs) (hhi : hi ≤ hi') : Row span Fits lo hi' cs := by
  simpa using h.append (nil hhi)

theorem singleton (hc : Fits c) (hlo : lo ≤ (span c).start) (hle : (span c).start ≤ (span c).stop)
    (hhi : (span c).stop ≤ hi) : Row span Fits lo hi [c] :=
  ⟨⟨hlo, hle, hhi⟩, by simpa using hc⟩

theorem concat (h : Row span Fits lo mid cs) (hc : Fits c) (hm : mid ≤ (span c).start)
    (hle : (span c).start ≤ (span c).stop) (hhi : (span c).stop ≤ hi) :
    Row span Fits lo hi (cs ++ [c]) :=
  h.append (singleton hc hm hle hhi)

theorem of_append (h : Row span Fits lo hi (cs ++ ds)) :
    ∃ mid, Row span Fits lo mid cs ∧ Row span Fits mid hi ds := by
  have := h.ordered
  rw [List.map_append] at this
  obtain ⟨mid, h1, h2⟩ := Span.ordered_append.1 this
  exact ⟨mid, ⟨h1, fun c hc => h.fits c (List.mem_append_left _ hc)⟩,
    ⟨h2, fun c hc => h.fits c (List.mem_append_right _ hc)⟩⟩

theorem stop_le (h : Row span Fits lo hi cs) : ∀ c ∈ cs, (span c).stop ≤ hi := by
  intro c hc
  obtain ⟨as, bs, rfl⟩ := List.append_of_mem hc
  obtain ⟨mid, -, h⟩ := h.of_append
  exact h.ordered.2.2.le

theorem stop_le_start {i j : Nat} {d : α} (h : Row span Fits lo hi cs) (hi : cs[i]? = some c)
    (hj : cs[j]? = some d) (hij : i < j) : (span c).stop ≤ (span d).start := by
  have hpair := List.pairwise_map.1 h.ordered.pairwise.2
  obtain ⟨hi', rfl⟩ := List.getElem?_eq_some_iff.1 hi
  obtain ⟨hj', rfl⟩ := List.getElem?_eq_some_iff.1 hj
  exact List.pairwise_iff_getElem.1 hpair i j hi' hj' hij

end Row

theorem Inline.Fits.proper {c : Inline} (h : c.Fits src) : c.span.Proper src := by
  cases c with
  | text | link => exact h
  | styled | raw | tagRef => exact h.1

theorem Block.Fits.tidy {b : Block} (h : b.Fits src) : b.span.Tidy src := by
  cases b with
  | dummy | separator => exact h
  | raw | paragraph | header | container => exact h.1

end TaskMarkup
