import Mathlib
import TaskMarkup.Node
import TaskMarkup.Proofs.Filter.Printed
import TaskMarkup.Proofs.Span.Offsets
import TaskMarkup.Proofs.Token.Slices

/-!
Where the nodes of a filter stand in its query. Each of them covers a stretch of the query, and that
stretch alone is read as the node again. Reading it depends neither on what stands around it nor on
where it starts.
-/

namespace TaskMarkup.Filter

open Token

variable {ℓ : Layer} {ph : Phrase ℓ} {ts : List Token}

theorem withSpan_sameStructure (f g : Filter) (s : Span) :
    (f.withSpan s).sameStructure g = f.sameStructure g := by
  cases f <;> cases g <;> rfl

@[simp] theorem operands_withSpan (f : Filter) (s : Span) : (f.withSpan s).operands = f.operands := by
  cases f <;> rfl

theorem mem_preorder_withSpan {f n : Filter} {s : Span}
    (h : Node.filter n ∈ (f.withSpan s).tree.preorder) :
    n = f.withSpan s ∨ Node.filter n ∈ f.tree.preorder := by
  cases f <;> simp only [withSpan, tree, Tree.preorder, List.mem_cons, Node.filter.injEq] at h ⊢ <;>
    exact h.imp_right .inr

/-- What a node covers does not reach outside of what another one covers. -/
structure Inside (n f : Filter) : Prop where
  start : f.span.start ≤ n.span.start
  stop : n.span.stop ≤ f.span.stop

theorem Inside.trans {n f g : Filter} (h : Inside n f) (h' : Inside f g) : Inside n g :=
  ⟨Nat.le_trans h'.start h.start, Nat.le_trans h.stop h'.stop⟩

/-- The node stands in the query where its span says. -/
structure Exact (q : Source) (n : Filter) : Prop where
  nonempty : n.span.start < n.span.stop
  stop_le : n.span.stop ≤ q.size
  start_isBoundary : q.IsBoundary n.span.start
  stop_isBoundary : q.IsBoundary n.span.stop
  operands_inside : ∀ c ∈ n.operands, Inside c n
  operands_ordered : n.operands.Pairwise fun c d => c.span.stop ≤ d.span.start
  read : ∃ g, parse? (String.ofList (q.slice n.span.start n.span.stop)) = some g ∧
    g.sameStructure n = true

section

variable {f : Token → Token} (htag : ∀ t, (f t).tag = t.tag) (htext : ∀ t, (f t).text = t.text)

def Sign.map {tag : Tag} (sign : Sign tag) : Sign tag :=
  ⟨f sign.val, (htag sign.val).trans sign.property⟩

def Gap.map (gap : Gap) : Gap :=
  ⟨gap.val.map f, by simpa [htag] using gap.property⟩

include htag htext

theorem Literal.map {delimiter : Tag} {text : List Char} (h : Literal delimiter ts text) :
    Literal delimiter (ts.map f) text := by
  induction h with
  | nil => exact .nil
  | plain hline hdel hback _ ih =>
    rw [← htext]
    exact .plain (by rwa [htag]) (by rwa [htag]) (by rwa [htag]) ih
  | escaped backslash hline _ ih =>
    rw [← htext]
    exact .escaped (Sign.map htag backslash) (by rwa [htag]) ih

theorem Spells.map {p : Predicate} (h : Spells ts p) : Spells (ts.map f) p := by
  cases h with
  | any sign => exact .any (Sign.map htag sign)
  | word t hword => exact .word (Sign.map htag t) (by rwa [Sign.map, htext])
  | anyTag sign => exact .anyTag (Sign.map htag sign)
  | tag sign ht hname =>
    rw [← htext] at hname ⊢
    exact .tag (Sign.map htag sign) (by rwa [htag]) hname
  | anyPriority sign => exact .anyPriority (Sign.map htag sign)
  | priority sign number =>
    rw [← value?_map htag htext]
    exact .priority (Sign.map htag sign) (Sign.map htag number)
  | track t colon number hword =>
    rw [← value?_map htag htext]
    exact .track (Sign.map htag t) (Sign.map htag colon) (Sign.map htag number)
      (by rwa [Sign.map, htext])
  | literal opening closing hliteral =>
    rw [List.map_cons, List.map_append]
    exact .literal (Sign.map htag opening) (Sign.map htag closing) (hliteral.map htag htext)
  | fuzzy opening closing hliteral =>
    rw [List.map_cons, List.map_append]
    exact .fuzzy (Sign.map htag opening) (Sign.map htag closing) (hliteral.map htag htext)

def Atom.map (a : Atom) : Atom := ⟨a.tokens.map f, a.predicate, a.spells.map htag htext⟩

namespace Phrase

def map {ℓ : Layer} : Phrase ℓ → Phrase ℓ
  | .predicate a => .predicate (Atom.map htag htext a)
  | .not bang gap operand => .not (Sign.map htag bang) (Gap.map htag gap) operand.map
  | .group opening before inner after closing =>
    .group (Sign.map htag opening) (Gap.map htag before) inner.map (Gap.map htag after)
      (Sign.map htag closing)
  | .first op part => .first op part.map
  | .more op left before sign after right =>
    .more op left.map (Gap.map htag before) (Sign.map htag sign) (Gap.map htag after) right.map

variable (ph)

@[simp] theorem tokens_map : (ph.map htag htext).tokens = ph.tokens.map f := by
  induction ph with
  | predicate => rfl
  | not _ _ _ ih => simp [map, tokens, ih, Sign.map, Gap.map]
  | group _ _ _ _ _ ih => simp [map, tokens, ih, Sign.map, Gap.map]
  | first _ _ ih => exact ih
  | more _ _ _ _ _ _ ihl ihr => simp [map, tokens, ihl, ihr, Sign.map, Gap.map]

theorem sameStructure_map : (ph.map htag htext).filter.sameStructure ph.filter = true := by
  induction ph with
  | predicate => simp [map, Atom.map, filter, sameStructure]
  | not _ _ _ ih => exact ih
  | group _ _ _ _ _ ih =>
    rw [map, filter, filter, withSpan_sameStructure, sameStructure_withSpan]
    exact ih
  | first _ _ ih => exact ih
  | more _ _ _ _ _ _ ihl ihr => simp [map, filter, sameStructure, ihl, ihr]

@[simp] theorem nesting_map : (ph.map htag htext).nesting = ph.nesting := by
  induction ph with
  | predicate => rfl
  | not _ _ _ ih | group _ _ _ _ _ ih => simp [map, nesting, ih]
  | first _ _ ih => exact ih
  | more _ _ _ _ _ _ ihl ihr => simp [map, nesting, ihl, ihr]

@[simp] theorem bangs_map : (ph.map htag htext).bangs = ph.bangs := by
  induction ph with
  | predicate | group | first | more => rfl
  | not _ _ _ ih => simp [map, bangs, ih]

@[simp] theorem longestBangs_map : (ph.map htag htext).longestBangs = ph.longestBangs := by
  induction ph with
  | predicate => rfl
  | not _ _ _ ih => simp [map, longestBangs, ih]
  | group _ _ _ _ _ ih | first _ _ ih => exact ih
  | more _ _ _ _ _ _ ihl ihr => simp [map, longestBangs, ihl, ihr]

end Phrase

end

namespace Phrase

def whole : {ℓ : Layer} → Phrase ℓ → Phrase (.chain .or)
  | .operand, u => .first .or (.first .and u)
  | .chain .and, c => .first .or c
  | .chain .or, ph => ph

@[simp] theorem tokens_whole (ph : Phrase ℓ) : ph.whole.tokens = ph.tokens := by
  rcases ℓ with _ | _ | _ <;> rfl

@[simp] theorem filter_whole (ph : Phrase ℓ) : ph.whole.filter = ph.filter := by
  rcases ℓ with _ | _ | _ <;> rfl

@[simp] theorem nesting_whole (ph : Phrase ℓ) : ph.whole.nesting = ph.nesting := by
  rcases ℓ with _ | _ | _ <;> rfl

@[simp] theorem longestBangs_whole (ph : Phrase ℓ) :
    ph.whole.longestBangs = ph.longestBangs := by
  rcases ℓ with _ | _ | _ <;> rfl

structure Within {ℓ ℓ' : Layer} (part : Phrase ℓ') (ph : Phrase ℓ) : Prop where
  tokens : part.tokens <:+: ph.tokens
  nesting : part.nesting ≤ ph.nesting
  longestBangs : part.longestBangs ≤ ph.longestBangs

namespace Within

theorem refl (ph : Phrase ℓ) : ph.Within ph :=
  ⟨List.infix_refl _, Nat.le_refl _, Nat.le_refl _⟩

theorem trans {ℓ' ℓ'' : Layer} {part : Phrase ℓ'} {inner : Phrase ℓ''} (h : inner.Within part)
    (h' : part.Within ph) : inner.Within ph :=
  ⟨h.tokens.trans h'.tokens, Nat.le_trans h.nesting h'.nesting,
    Nat.le_trans h.longestBangs h'.longestBangs⟩

theorem not (bang : Sign .bang) (gap : Gap) (operand : Phrase .operand) :
    operand.Within (.not bang gap operand) :=
  ⟨⟨bang.val :: gap.val, [], by simp [Phrase.tokens]⟩, Nat.le_succ _, Nat.le_max_right ..⟩

theorem group (opening : Sign .leftParen) (before : Gap) (inner : Phrase (.chain .or)) (after : Gap)
    (closing : Sign .rightParen) : inner.Within (.group opening before inner after closing) :=
  ⟨⟨opening.val :: before.val, after.val ++ [closing.val], by simp [Phrase.tokens]⟩, Nat.le_succ _,
    Nat.le_refl _⟩

variable (op : Operator) (l : Phrase (.chain op)) (before : Gap) (sign : Sign op.tag)
  (after : Gap) (r : Phrase (.joinedBy op))

theorem left : l.Within (.more op l before sign after r) :=
  ⟨(List.prefix_append ..).isInfix, Nat.le_max_left .., Nat.le_max_left ..⟩

theorem right : r.Within (.more op l before sign after r) :=
  ⟨⟨l.tokens ++ (before.val ++ sign.val :: after.val), [], by simp [Phrase.tokens]⟩,
    Nat.le_trans (Nat.le_succ _) (Nat.le_max_right ..), Nat.le_max_right ..⟩

end Within

theorem exists_within {n : Filter} (ph : Phrase ℓ) (h : Node.filter n ∈ ph.filter.tree.preorder) :
    ∃ (ℓ' : Layer) (part : Phrase ℓ'), n = part.filter ∧ part.Within ph := by
  induction ph with
  | predicate a =>
    refine ⟨_, .predicate a, ?_, .refl _⟩
    simpa [filter, tree, Tree.preorder, Tree.preorderForest] using h
  | not bang gap operand ih =>
    simp only [filter, tree, Tree.preorder, Tree.preorderForest, List.mem_cons, Node.filter.injEq,
      List.append_nil] at h
    rcases h with rfl | h
    · exact ⟨_, .not bang gap operand, rfl, .refl _⟩
    · obtain ⟨_, part, hn, hpart⟩ := ih h
      exact ⟨_, part, hn, hpart.trans (.not bang gap operand)⟩
  | group opening before inner after closing ih =>
    -- A group has no node of its own: the node inside covers the parentheses too.
    rcases mem_preorder_withSpan h with rfl | h
    · exact ⟨_, .group opening before inner after closing, rfl, .refl _⟩
    · obtain ⟨_, part, hn, hpart⟩ := ih h
      exact ⟨_, part, hn, hpart.trans (.group opening before inner after closing)⟩
  | first op part ih =>
    obtain ⟨_, inner, hn, hinner⟩ := ih h
    exact ⟨_, inner, hn, hinner.tokens, hinner.nesting, hinner.longestBangs⟩
  | more op left before sign after right ihl ihr =>
    simp only [filter, tree, Tree.preorder, Tree.preorderForest, List.mem_cons, List.mem_append,
      Node.filter.injEq, List.append_nil] at h
    rcases h with rfl | h | h
    · exact ⟨_, .more op left before sign after right, rfl, .refl _⟩
    · obtain ⟨_, part, hn, hpart⟩ := ihl h
      exact ⟨_, part, hn, hpart.trans (.left op left before sign after right)⟩
    · obtain ⟨_, part, hn, hpart⟩ := ihr h
      exact ⟨_, part, hn, hpart.trans (.right op left before sign after right)⟩

variable {cs : List Char} {before after : List Token}

theorem span_of_tokenize (h : tokenize cs = before ++ (ph.tokens ++ after)) :
    ph.filter.span.start = Text.byteSize (texts before) ∧
      ph.filter.span.stop = Text.byteSize (texts before) + Text.byteSize (texts ph.tokens) := by
  obtain ⟨t, us, hhead, -⟩ := ph.exists_head
  obtain ⟨vs, u, hlast, -⟩ := ph.exists_last
  rw [span_filter]
  constructor
  · rw [hhead, start_spanOf_cons]
    rw [hhead] at h
    exact start_of_tokenize_eq_append h
  · have htokens : tokenize cs = (before ++ vs) ++ u :: after := by
      rw [h, hlast]
      simp
    rw [hlast, stop_spanOf_concat, ← Text.byteSize_append, ← texts_append, ← List.append_assoc]
    exact stop_of_tokenize_eq_append htokens

theorem tokenize_part {ℓ' : Layer} {part : Phrase ℓ'} (us vs : List Token)
    (h : tokenize cs = before ++ (ph.tokens ++ after))
    (hpart : ph.tokens = us ++ (part.tokens ++ vs)) :
    tokenize cs = (before ++ us) ++ (part.tokens ++ (vs ++ after)) := by
  rw [h, hpart]
  simp

theorem inside_of_tokenize {ℓ' : Layer} {part : Phrase ℓ'} (us vs : List Token)
    (h : tokenize cs = before ++ (ph.tokens ++ after))
    (hpart : ph.tokens = us ++ (part.tokens ++ vs)) : Inside part.filter ph.filter := by
  obtain ⟨hstart, hstop⟩ := span_of_tokenize h
  obtain ⟨hstart', hstop'⟩ := span_of_tokenize (tokenize_part us vs h hpart)
  rw [hpart] at hstop
  simp only [texts_append, Text.byteSize_append] at hstart' hstop hstop'
  constructor <;> omega

theorem operands_of_tokenize (h : tokenize cs = before ++ (ph.tokens ++ after)) :
    (∀ c ∈ ph.filter.operands, Inside c ph.filter) ∧
      ph.filter.operands.Pairwise fun c d => c.span.stop ≤ d.span.start := by
  induction ph generalizing before after with
  | predicate => simp [filter, operands]
  | not bang gap operand =>
    simp only [filter, operands, List.mem_singleton, List.pairwise_singleton, and_true, forall_eq]
    exact inside_of_tokenize (bang.val :: gap.val) [] h (by simp [tokens])
  | group opening gap inner gap' closing ih =>
    -- The operands are those of what the parentheses are around, which covers less.
    have hpart : (group opening gap inner gap' closing).tokens =
        (opening.val :: gap.val) ++ (inner.tokens ++ (gap'.val ++ [closing.val])) := rfl
    have hinner := inside_of_tokenize _ _ h hpart
    obtain ⟨hall, hpairwise⟩ := ih (tokenize_part _ _ h hpart)
    simp only [filter, operands_withSpan] at hinner ⊢
    exact ⟨fun c hc => (hall c hc).trans hinner, hpairwise⟩
  | first _ _ ih => exact ih h
  | more op left gap sign gap' right =>
    have hl : (more op left gap sign gap' right).tokens =
        [] ++ (left.tokens ++ (gap.val ++ sign.val :: (gap'.val ++ right.tokens))) := rfl
    have hr : (more op left gap sign gap' right).tokens =
        (left.tokens ++ (gap.val ++ sign.val :: gap'.val)) ++ (right.tokens ++ []) := by
      simp [tokens]
    have hstop := (span_of_tokenize (tokenize_part _ _ h hl)).2
    have hstart := (span_of_tokenize (tokenize_part _ _ h hr)).1
    simp only [List.append_nil, texts_append, Text.byteSize_append] at hstart hstop
    have hordered : left.filter.span.stop ≤ right.filter.span.start := by omega
    have hinside := And.intro (inside_of_tokenize _ _ h hl) (inside_of_tokenize _ _ h hr)
    exact ⟨by simpa [filter, operands] using hinside, by simpa [filter, operands] using hordered⟩

theorem eq_texts_of_tokenize (h : tokenize cs = before ++ (ph.tokens ++ after)) :
    cs = texts before ++ texts ph.tokens ++ texts after := by
  rw [← texts_tokenize cs, h]
  simp

theorem byteSize_tokens_pos (h : tokenize cs = before ++ (ph.tokens ++ after)) :
    0 < Text.byteSize (texts ph.tokens) := by
  obtain ⟨t, us, hhead, -⟩ := ph.exists_head
  have hspelled : t.Spelled := spelled_of_mem_tokenize (by rw [h, hhead]; simp)
  rw [hhead, texts_cons, Text.byteSize_append]
  exact Nat.lt_of_lt_of_le hspelled.size_pos (Nat.le_add_right ..)

theorem parse?_texts (h : tokenize cs = before ++ (ph.tokens ++ after)) (hn : ph.nesting < maxDepth)
    (hb : ph.longestBangs ≤ maxBangs) :
    ∃ g, parse? (String.ofList (texts ph.tokens)) = some g ∧ g.sameStructure ph.filter = true := by
  -- The tokens as they are where nothing stands before them.
  let origin := Text.byteSize (texts before)
  let alone := ph.map (relativeTo_tag origin) (relativeTo_text origin)
  have htokens : alone.tokens = tokenize (texts ph.tokens) :=
    (ph.tokens_map ..).trans (tokenize_texts h).symm
  have hderives : Derives (String.ofList (texts ph.tokens)) alone.whole :=
    derives_of_tokens (by simp [htokens])
  refine ⟨_, parse?_eq_some_of_derives hderives (by simpa [alone] using hn)
    (by simpa [alone] using hb), ?_⟩
  rw [filter_whole]
  exact ph.sameStructure_map ..

theorem exact_of_tokenize (h : tokenize cs = before ++ (ph.tokens ++ after))
    (hn : ph.nesting < maxDepth) (hb : ph.longestBangs ≤ maxBangs) :
    Exact (Source.ofChars cs) ph.filter := by
  have hcs := eq_texts_of_tokenize h
  have hpos := byteSize_tokens_pos h
  obtain ⟨hstart, hstop⟩ := span_of_tokenize h
  obtain ⟨hinside, hordered⟩ := operands_of_tokenize h
  rw [← Text.byteSize_append] at hstop
  have hboundary : (Source.ofChars cs).IsBoundary ph.filter.span.stop := ⟨_, _, hcs, hstop.symm⟩
  refine ⟨?_, hboundary.le_size, ?_, hboundary, hinside, hordered, ?_⟩
  · rw [hstart, hstop, Text.byteSize_append]
    omega
  · exact ⟨_, _, hcs.trans (List.append_assoc ..), hstart.symm⟩
  · obtain ⟨g, hread, hsame⟩ := parse?_texts h hn hb
    refine ⟨g, ?_, hsame⟩
    rw [hstart, hstop, Source.slice, show (Source.ofChars cs).chars = cs from rfl, hcs,
      Text.slice_append_append, hread]

end Phrase

/-- Every node of a filter stands where its span says, and what stands there is read as the node. -/
theorem exact_of_parse? {q : String} {f : Filter} {ph : Phrase (.chain .or)} (h : parse? q = some f)
    (hd : Derives q ph) (hb : ph.longestBangs ≤ maxBangs) :
    ∀ n, Node.filter n ∈ f.tree.preorder → Exact (Source.ofString q) n := by
  obtain ⟨hn, rfl⟩ := filter_of_parse? hd h
  obtain ⟨gap, space, -, htokens⟩ := hd
  intro n hmem
  obtain ⟨_, part, rfl, hpart⟩ := ph.exists_within hmem
  obtain ⟨before, after, hsplit⟩ := hpart.tokens
  have hcut : tokenize q.toList = (gap.val ++ before) ++ (part.tokens ++ (after ++ space)) := by
    rw [htokens, ← hsplit]
    simp
  exact part.exact_of_tokenize hcut (Nat.lt_of_le_of_lt hpart.nesting hn)
    (Nat.le_trans hpart.longestBangs hb)

theorem exact_of_parse?_group : ∃ f, parse? "x & (#)" = some f ∧
    f = .binary ⟨0, 7, 0⟩ .and (.predicate ⟨0, 1, 0⟩ .done) (.predicate ⟨4, 7, 0⟩ (.priority none)) ∧
      ∀ n, Node.filter n ∈ f.tree.preorder → Exact (Source.ofString "x & (#)") n := by
  have h : parse? "x & (#)" = some (.binary ⟨0, 7, 0⟩ .and (.predicate ⟨0, 1, 0⟩ .done)
      (.predicate ⟨4, 7, 0⟩ (.priority none))) := by cbv
  obtain ⟨ph, hd, -, -⟩ := derives_of_parse? h
  have hlength : (tokenize "x & (#)".toList).length = 7 := by cbv
  have hbangs : ph.longestBangs ≤ maxBangs := by
    have hle := ph.longestBangs_le_nesting
    have hlt := ph.nesting_lt_length
    have htokens := length_tokens_le_of_derives hd
    simp only [maxBangs]
    omega
  exact ⟨_, h, rfl, exact_of_parse? h hd hbangs⟩

end TaskMarkup.Filter
