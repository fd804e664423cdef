import TaskMarkup.Proofs.Span.Fits
import TaskMarkup.Proofs.Text.Shown

/-!
The leaves of a paragraph: the nodes that stand for text of the source. A styled node has none of
its own but those inside it, so its delimiters lie in no leaf.
-/

namespace TaskMarkup

def Text.Delimiter (c : Char) : Prop := c = '*' ∨ c = '~' ∨ c = '^'

namespace Inline

mutual

def leaves : Inline → List Inline
  | .text s t => [.text s t]
  | .styled _ _ cs => leavesOf cs
  | .raw s monospace cs => [.raw s monospace cs]
  | .link s target caption => [.link s target caption]
  | .tagRef s c => [.tagRef s c]

def leavesOf : List Inline → List Inline
  | [] => []
  | c :: cs => c.leaves ++ leavesOf cs

end

def Quotes (src : Source) : Inline → Prop
  | .text s t => t.toList = src.slice s.start s.stop
  | .styled .. | .raw .. | .link .. | .tagRef .. => False

/-- The texts of a leaf are those of the source: raw text and the name of a tag word by word, other
text with its escapes resolved and without indentation. -/
def Cites (src : Source) : Inline → Prop
  | .text s t => t.toList = Text.shown .line (src.slice s.start s.stop)
  | .raw _ _ cs => ∀ c ∈ cs, c.Quotes src
  | .tagRef _ c => c.Quotes src
  | .styled .. | .link .. => True

def Covered (src : Source) (lo hi : Nat) (leaves : List Inline) : Prop :=
  ∀ (as : List Char) (c : Char) (cs : List Char), src.chars = as ++ c :: cs →
    lo ≤ Text.byteSize as → Text.byteSize as < hi → Text.White [c] ∨ Text.Delimiter c ∨
      ∃ leaf ∈ leaves, leaf.span.start ≤ Text.byteSize as ∧ Text.byteSize as < leaf.span.stop

structure Tell (src : Source) (lo hi : Nat) (nodes : List Inline) : Prop where
  cites : ∀ leaf ∈ leavesOf nodes, leaf.Cites src
  covered : Covered src lo hi (leavesOf nodes)

/-- Each character of the span is white space or a delimiter or lies in exactly one leaf, and the
texts of the leaves are those of the source. -/
structure Renders (src : Source) (span : Span) (nodes : List Inline) : Prop where
  account : ∀ (as : List Char) (c : Char) (cs : List Char), src.chars = as ++ c :: cs →
    span.start ≤ Text.byteSize as → Text.byteSize as < span.stop →
      Text.White [c] ∨ Text.Delimiter c ∨ ∃ (i : Nat) (leaf : Inline),
        (leavesOf nodes)[i]? = some leaf ∧ leaf.span.start ≤ Text.byteSize as ∧
          Text.byteSize as + c.utf8Size ≤ leaf.span.stop ∧
            ∀ (j : Nat) (leaf' : Inline), (leavesOf nodes)[j]? = some leaf' →
              leaf'.span.start < Text.byteSize as + c.utf8Size →
                Text.byteSize as < leaf'.span.stop → j = i
  cites : ∀ leaf ∈ leavesOf nodes, leaf.Cites src

variable {src : Source} {lo mid hi hi' : Nat} {nodes nodes' : List Inline} {node : Inline}
  {ls ls' : List Inline}

@[simp] theorem leavesOf_append : leavesOf (nodes ++ nodes') = leavesOf nodes ++ leavesOf nodes' := by
  induction nodes with
  | nil => rfl
  | cons c cs ih => simp [leavesOf, ih]

@[simp] theorem leavesOf_singleton : leavesOf [node] = node.leaves := by
  simp [leavesOf]

namespace Covered

theorem nil (h : hi ≤ lo) : Covered src lo hi ls := fun _ _ _ _ hle hlt => by omega

theorem append (h : Covered src lo mid ls) (h' : Covered src mid hi ls') :
    Covered src lo hi (ls ++ ls') := by
  intro as c cs hchars hle hlt
  rcases Nat.lt_or_ge (Text.byteSize as) mid with hm | hm
  · refine (h as c cs hchars hle hm).imp_right (Or.imp_right ?_)
    rintro ⟨leaf, hleaf, hin⟩
    exact ⟨leaf, List.mem_append_left _ hleaf, hin⟩
  · refine (h' as c cs hchars hm hlt).imp_right (Or.imp_right ?_)
    rintro ⟨leaf, hleaf, hin⟩
    exact ⟨leaf, List.mem_append_right _ hleaf, hin⟩

theorem singleton (hlo : node.span.start ≤ lo) (hhi : hi ≤ node.span.stop) :
    Covered src lo hi [node] :=
  fun _ _ _ _ hle hlt => .inr (.inr ⟨node, by simp, by omega, by omega⟩)

theorem between {xs ys zs : List Char} (hchars : src.chars = xs ++ ys ++ zs)
    (hys : ∀ c ∈ ys, Text.White [c] ∨ Text.Delimiter c) :
    Covered src (Text.byteSize xs) (Text.byteSize (xs ++ ys)) ls := by
  intro as c cs h hle hlt
  rw [h, List.append_assoc] at hchars
  obtain ⟨es, rfl, htail⟩ := Text.exists_append_of_byteSize_le hchars.symm hle
  rcases Text.append_eq_append_cons htail with ⟨us, rfl⟩ | ⟨us, rfl, -⟩
  · exact (hys c (by simp)).imp_right .inl
  · simp only [Text.byteSize_append] at hlt
    omega

theorem shrink (h : Covered src lo hi ls) (hhi : hi' ≤ hi) : Covered src lo hi' ls :=
  fun as c cs hchars hle hlt => h as c cs hchars hle (by omega)

theorem grow (h : Covered src lo hi ls)
    (hls : ∀ l ∈ ls, ∃ l' ∈ ls', l'.span.start ≤ l.span.start ∧ l.span.stop ≤ l'.span.stop) :
    Covered src lo hi ls' := by
  intro as c cs hchars hle hlt
  refine (h as c cs hchars hle hlt).imp_right (Or.imp_right ?_)
  rintro ⟨l, hl, hstart, hstop⟩
  obtain ⟨l', hl', hstart', hstop'⟩ := hls l hl
  exact ⟨l', hl', by omega, by omega⟩

end Covered

namespace Tell

theorem nil (h : hi ≤ lo) : Tell src lo hi [] := ⟨by simp [leavesOf], .nil h⟩

theorem append (h : Tell src lo mid nodes) (h' : Tell src mid hi nodes') :
    Tell src lo hi (nodes ++ nodes') where
  cites leaf hleaf := by
    rw [leavesOf_append] at hleaf
    exact (List.mem_append.1 hleaf).elim (h.cites leaf) (h'.cites leaf)
  covered := by
    rw [leavesOf_append]
    exact h.covered.append h'.covered

theorem between {xs ys zs : List Char} (hchars : src.chars = xs ++ ys ++ zs)
    (hys : ∀ c ∈ ys, Text.White [c] ∨ Text.Delimiter c) :
    Tell src (Text.byteSize xs) (Text.byteSize (xs ++ ys)) [] :=
  ⟨by simp [leavesOf], .between hchars hys⟩

theorem shrink (h : Tell src lo hi nodes) (hhi : hi' ≤ hi) : Tell src lo hi' nodes :=
  ⟨h.cites, h.covered.shrink hhi⟩

theorem styled {span : Span} {style : Style} (h : Tell src lo hi nodes) :
    Tell src lo hi [.styled span style nodes] := by
  have hleaves : leavesOf [.styled span style nodes] = leavesOf nodes := by
    simp [leavesOf, leaves]
  exact ⟨hleaves ▸ h.cites, hleaves ▸ h.covered⟩

theorem leaf (hleaf : node.leaves = [node]) (hcites : node.Cites src) (hlo : node.span.start ≤ lo)
    (hhi : hi ≤ node.span.stop) : Tell src lo hi [node] := by
  have hleaves : leavesOf [node] = [node] := by simp [hleaf]
  refine ⟨?_, ?_⟩
  · rw [hleaves]
    simpa using hcites
  · rw [hleaves]
    exact .singleton hlo hhi

end Tell

mutual

theorem row_leaves (c : Inline) (h : c.Fits src) :
    Row Inline.span (Inline.Fits src) c.span.start c.span.stop c.leaves := by
  cases c with
  | text span t => exact .singleton h (Nat.le_refl _) h.le (Nat.le_refl _)
  | styled span style cs =>
    obtain ⟨-, hordered, hfits⟩ := h
    exact row_leavesOf cs hordered hfits
  | raw span monospace cs => exact .singleton h (Nat.le_refl _) h.1.le (Nat.le_refl _)
  | link span target caption => exact .singleton h (Nat.le_refl _) h.le (Nat.le_refl _)
  | tagRef span c => exact .singleton h (Nat.le_refl _) h.1.le (Nat.le_refl _)

theorem row_leavesOf {lo hi : Nat} (cs : List Inline) (h : Span.Ordered lo hi (cs.map Inline.span))
    (hfits : AllFit src cs) : Row Inline.span (Inline.Fits src) lo hi (leavesOf cs) := by
  cases cs with
  | nil => exact .nil h
  | cons c cs =>
    obtain ⟨hlo, -, hrest⟩ := h
    have hhead : Row Inline.span (Inline.Fits src) lo c.span.stop c.leaves := by
      simpa using (Row.nil hlo).append (row_leaves c hfits.1)
    exact hhead.append (row_leavesOf cs hrest hfits.2)

end

theorem Tell.renders {span : Span} (h : Tell src span.start span.stop nodes)
    (hrow : Row Inline.span (Inline.Fits src) span.start span.stop nodes) :
    Renders src span nodes where
  account as c cs hchars hlo hhi := by
    have hleaves := row_leavesOf nodes hrow.ordered (allFit_iff.2 hrow.fits)
    refine (h.covered as c cs hchars hlo hhi).imp_right (Or.imp_right ?_)
    rintro ⟨leaf, hmem, hstart, hstop⟩
    have hend := (hleaves.fits leaf hmem).proper.stop.add_le hchars hstop
    obtain ⟨i, hi⟩ := List.mem_iff_getElem?.1 hmem
    refine ⟨i, leaf, hi, hstart, hend, fun j leaf' hj hlt hlt' => ?_⟩
    have hpos := c.utf8Size_pos
    rcases Nat.lt_trichotomy j i with hji | hji | hji
    · have := hleaves.stop_le_start hj hi hji
      omega
    · exact hji
    · have := hleaves.stop_le_start hi hj hji
      omega
  cites := h.cites

end Inline

namespace Block

variable {src : Source}

mutual

def EachParagraph (P : Span → List Inline → Prop) : Block → Prop
  | .paragraph s cs => P s cs
  | .header _ _ b => b.EachParagraph P
  | .container _ _ bs => AllParagraphs P bs
  | .dummy _ | .separator _ | .raw .. => True

def AllParagraphs (P : Span → List Inline → Prop) : List Block → Prop
  | [] => True
  | b :: bs => b.EachParagraph P ∧ AllParagraphs P bs

end

theorem allParagraphs_iff {P : Span → List Inline → Prop} {bs : List Block} :
    AllParagraphs P bs ↔ ∀ b ∈ bs, b.EachParagraph P := by
  induction bs with
  | nil => simp [AllParagraphs]
  | cons b bs ih => simp [AllParagraphs, ih]

structure Faithful (src : Source) (b : Block) : Prop where
  fits : b.Fits src
  renders : b.EachParagraph (Inline.Renders src)

theorem Faithful.tidy {b : Block} (h : b.Faithful src) : b.span.Tidy src := h.fits.tidy

end Block

end TaskMarkup
