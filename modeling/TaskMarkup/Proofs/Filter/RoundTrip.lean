import Mathlib
import TaskMarkup.Proofs.Filter.Printed

namespace TaskMarkup.Filter

variable {ℓ : Layer} {ts : List Token} {text : List Char} {f : Filter} {q : String}

theorem Literal.newline_not_mem {delimiter : Tag} (h : Literal delimiter ts text)
    (hts : ∀ t ∈ ts, t.Spelled) : '\n' ∉ text := by
  induction h with
  | nil => simp
  | plain hline _ _ _ ih =>
    simp only [List.mem_append, not_or]
    refine ⟨(hts _ (by simp)).newline_not_mem ?_, ih fun t ht => hts t (by simp [ht])⟩
    rintro htag
    simp [htag, Tag.endsLine] at hline
  | escaped _ hline _ ih =>
    simp only [List.mem_append, not_or]
    refine ⟨(hts _ (by simp)).newline_not_mem ?_, ih fun t ht => hts t (by simp [ht])⟩
    rintro htag
    simp [htag, Tag.endsLine] at hline

theorem Sign.value?_lt (number : Sign .number) (h : number.val.Spelled) :
    ∃ n, number.val.value? = some n ∧ n < 10 ^ 8 := by
  have hlt := h.value_lt number.property
  rw [Token.value?, if_pos number.property] at hlt ⊢
  exact ⟨_, rfl, hlt⟩

theorem Spells.printable {p : Predicate} (h : Spells ts p) (hts : ∀ t ∈ ts, t.Spelled) :
    p.printable = true := by
  cases h with
  | any | anyTag | anyPriority => rfl
  | word t hword =>
    unfold word? at hword
    split at hword
    all_goals simp only [Option.some.injEq, reduceCtorEq] at hword
    all_goals subst hword; rfl
  | tag _ _ hname => simpa [Predicate.printable] using hname
  | priority sign number =>
    obtain ⟨n, hn, hlt⟩ := Sign.value?_lt number (hts _ (by simp))
    rw [hn]
    simpa [Predicate.printable] using hlt
  | track t colon number =>
    obtain ⟨n, hn, hlt⟩ := Sign.value?_lt number (hts _ (by simp))
    rw [hn]
    simpa [Predicate.printable] using hlt
  | literal _ _ h | fuzzy _ _ h =>
    simpa [Predicate.printable] using h.newline_not_mem fun t ht => hts t (by simp [ht])

theorem printable_withSpan (f : Filter) (sp : Span) : (f.withSpan sp).printable = f.printable := by
  cases f <;> rfl

theorem Phrase.printable (ph : Phrase ℓ) (hts : ∀ t ∈ ph.tokens, t.Spelled) :
    ph.filter.printable = true := by
  induction ph with
  | predicate a => exact a.spells.printable hts
  | not _ _ _ ih => exact ih fun t ht => hts t (by simp [tokens, ht])
  | group _ _ _ _ _ ih =>
    rw [filter, printable_withSpan]
    exact ih fun t ht => hts t (by simp [tokens, ht])
  | first _ _ ih => exact ih hts
  | more _ _ _ _ _ _ ihl ihr =>
    have hl := ihl fun t ht => hts t (by simp [tokens, ht])
    have hr := ihr fun t ht => hts t (by simp [tokens, ht])
    simp [filter, Filter.printable, hl, hr]

theorem printable_of_parse? (h : parse? q = some f) : f.printable = true := by
  obtain ⟨ph, ⟨before, after, -, htokens⟩, -, rfl⟩ := derives_of_parse? h
  exact ph.printable fun t ht => spelled_of_mem_tokenize (by rw [htokens]; simp [ht])

/-- The canonical text of a query is read as the same filter, exactly if the filter is not too deep
for the parentheses in that text. -/
theorem parse?_canonical_iff (h : parse? q = some f) (hn : f.longestNots ≤ maxBangs) :
    (∃ g, parse? f.canonical = some g ∧ f.sameStructure g = true) ↔ f.topDepth ≤ maxDepth := by
  have hf := printable_of_parse? h
  constructor
  · rintro ⟨g, hg, -⟩
    by_contra htop
    obtain ⟨offset, hdeep⟩ := parse_canonical_of_lt_topDepth hf hn (Nat.not_le.1 htop)
    rw [parse?, hdeep] at hg
    contradiction
  · exact parse?_canonical_of_topDepth_le hf hn

theorem parse?_canonical_iff_negated :
    parse? "!@a" = some (.not ⟨0, 3, 0⟩ (.predicate ⟨1, 3, 0⟩ (.tag (some "a")))) ∧
      ∃ g, parse? (Filter.not ⟨0, 3, 0⟩ (.predicate ⟨1, 3, 0⟩ (.tag (some "a")))).canonical = some g ∧
        (Filter.not ⟨0, 3, 0⟩ (.predicate ⟨1, 3, 0⟩ (.tag (some "a")))).sameStructure g = true := by
  have h : parse? "!@a" = some (.not ⟨0, 3, 0⟩ (.predicate ⟨1, 3, 0⟩ (.tag (some "a")))) := by cbv
  exact ⟨h, (parse?_canonical_iff h (by decide)).2 (by decide)⟩

def conjunction : Nat → List Char
  | 0 => ['x']
  | n + 1 => conjunction n ++ ['&', 'x']

theorem exists_conjunction (n : Nat) : ∃ c : Phrase (.chain .and),
    c.tokens = tokenize (conjunction n) ∧ c.nesting ≤ 1 ∧ c.longestBangs = 0 ∧
      max c.filter.depth 1 = n + 1 ∧ c.filter.topDepth = n + 1 ∧ c.filter.longestNots = 0 := by
  induction n with
  | zero =>
    refine ⟨.first .and (.predicate ⟨[⟨.word, 0, ['x']⟩], .done, .word ⟨_, rfl⟩ rfl⟩), ?_⟩
    exact ⟨rfl, Nat.zero_le 1, rfl, rfl, rfl, rfl⟩
  | succ n ih =>
    obtain ⟨c, htokens, hnesting, hbangs, hdepth, -, hnots⟩ := ih
    have hruns : Text.runs (conjunction (n + 1)) = Text.runs (conjunction n) ++ [['&'], ['x']] :=
      Text.runs_append_cons (c := '&') rfl _ _
    obtain ⟨sign, s₁, hsign, -, h₁⟩ := Token.exists_place_cons
      (0 + Text.byteSize (Text.runs (conjunction n)).flatten) ['&'] [['x']]
    obtain ⟨word, s₂, hword, htext, h₂⟩ := Token.exists_place_cons s₁ ['x'] []
    have hdone : word? (String.ofList word.text) = some .done := by
      rw [htext]
      rfl
    refine ⟨.more .and c .none ⟨sign, hsign⟩ .none
      (.predicate ⟨[word], .done, .word ⟨word, hword⟩ hdone⟩), ?_, ?_, ?_, ?_, ?_, ?_⟩
    · rw [tokenize, hruns, Token.place_append, h₁, h₂]
      show c.tokens ++ [sign, word] = _
      rw [htokens]
      rfl
    · simp only [Phrase.nesting]
      omega
    · simp only [Phrase.longestBangs]
      omega
    · simp only [Phrase.filter, depth]
      omega
    · simp only [Phrase.filter, topDepth, depth]
      omega
    · simp only [Phrase.filter, longestNots]
      omega

/-- As many operators as the reader opens expressions are too many for the canonical text. -/
theorem exists_parse_canonical_tooDeep : ∃ f, parse? (String.ofList (conjunction 64)) = some f ∧
    ∃ offset, parse f.canonical = .error (.rejected (.tooDeep offset)) := by
  obtain ⟨c, htokens, hnesting, hbangs, -, htop, hnots⟩ := exists_conjunction 64
  have hderives : Derives (String.ofList (conjunction 64)) (.first .or c) :=
    derives_of_tokens (by rw [String.toList_ofList, ← htokens]; rfl)
  have hparse : parse? (String.ofList (conjunction 64)) = some c.filter :=
    parse?_eq_some_of_derives hderives (Nat.lt_of_le_of_lt hnesting (by decide))
      (Nat.le_trans (Nat.le_of_eq hbangs) (by decide))
  refine ⟨c.filter, hparse, parse_canonical_of_lt_topDepth (printable_of_parse? hparse) ?_ ?_⟩
  · rw [hnots]
    exact Nat.zero_le _
  · rw [htop]
    decide

end TaskMarkup.Filter
