import TaskMarkup.Filter.Grammar

/-!
The grammar of queries, in layers: alternatives joined by `|`, each of them operands joined by `&`,
and an operand is a predicate or a group in parentheses behind any number of `!`. A `Phrase` is a
derivation. White space may stand between its parts, but not within a predicate.
-/

namespace TaskMarkup

def Operator.tag : Operator → Tag
  | .and => .ampersand
  | .or => .pipe

@[simp] theorem Operator.isInlineSpace_tag (op : Operator) : op.tag.isInlineSpace = false := by
  cases op <;> rfl

namespace Filter

abbrev Gap := { ts : List Token // ∀ t ∈ ts, t.tag.isInlineSpace = true }

def isSpace (t : Token) : Bool := t.tag.isInlineSpace || t.tag == .newline

abbrev Sign (tag : Tag) := { t : Token // t.tag = tag }

inductive Literal (delimiter : Tag) : List Token → List Char → Prop
  | nil : Literal delimiter [] []
  | plain {t : Token} {ts : List Token} {text : List Char} : t.tag.endsLine = false →
      t.tag ≠ delimiter → t.tag ≠ .backslash → Literal delimiter ts text →
      Literal delimiter (t :: ts) (t.text ++ text)
  | escaped (backslash : Sign .backslash) {t : Token} {ts : List Token} {text : List Char} :
      t.tag.endsLine = false → Literal delimiter ts text →
      Literal delimiter (backslash :: t :: ts) (t.text ++ text)

def word? : String → Option Predicate
  | "x" | "done" => some .done
  | "due" => some .due
  | "pin" => some .pin
  | "hide" => some .hide
  | "track" => some (.track none)
  | _ => none

inductive Spells : List Token → Predicate → Prop
  | any (sign : Sign .asterisk) : Spells [sign] .any
  | word (t : Sign .word) {p : Predicate} : word? (String.ofList t.val.text) = some p →
      Spells [t] p
  | anyTag (sign : Sign .at) : Spells [sign] (.tag none)
  | tag (sign : Sign .at) {name : Token} : name.tag = .word ∨ name.tag = .number →
      isTagName name.text = true → Spells [sign, name] (.tag (some (String.ofList name.text)))
  | anyPriority (sign : Sign .hash) : Spells [sign] (.priority none)
  | priority (sign : Sign .hash) (number : Sign .number) :
      Spells [sign, number] (.priority number.val.value?)
  | track (t : Sign .word) (colon : Sign .colon) (number : Sign .number) :
      String.ofList t.val.text = "track" → Spells [t, colon, number] (.track number.val.value?)
  | literal (opening closing : Sign .quote) {ts : List Token} {text : List Char} :
      Literal .quote ts text → Spells (opening :: (ts ++ [closing.val])) (.literal (String.ofList text))
  | fuzzy (opening closing : Sign .slash) {ts : List Token} {text : List Char} :
      Literal .slash ts text → Spells (opening :: (ts ++ [closing.val])) (.fuzzy (String.ofList text))

structure Atom where
  tokens : List Token
  predicate : Predicate
  spells : Spells tokens predicate

/-- Operands are the innermost layer; the layers around it join phrases by one operator each. -/
inductive Layer
  | operand
  | chain (op : Operator)
  deriving DecidableEq

def Layer.joinedBy : Operator → Layer
  | .and => .operand
  | .or => .chain .and

def Layer.precedence : Layer → Nat
  | .operand => notPrecedence
  | .chain op => op.precedence

inductive Phrase : Layer → Type
  | predicate (a : Atom) : Phrase .operand
  | not (bang : Sign .bang) (gap : Gap) (operand : Phrase .operand) : Phrase .operand
  | group (opening : Sign .leftParen) (before : Gap) (inner : Phrase (.chain .or)) (after : Gap)
      (closing : Sign .rightParen) : Phrase .operand
  | first (op : Operator) (part : Phrase (.joinedBy op)) : Phrase (.chain op)
  | more (op : Operator) (left : Phrase (.chain op)) (before : Gap) (sign : Sign op.tag)
      (after : Gap) (right : Phrase (.joinedBy op)) : Phrase (.chain op)

def spanOf (ts : List Token) : Span :=
  spanning ((ts.head?.map Token.start).getD 0) ((ts.getLast?.map Token.stop).getD 0)

namespace Phrase

def tokens {ℓ : Layer} : Phrase ℓ → List Token
  | .predicate a => a.tokens
  | .not bang gap operand => bang :: (gap.val ++ operand.tokens)
  | .group opening before inner after closing =>
    opening :: (before.val ++ (inner.tokens ++ (after.val ++ [closing.val])))
  | .first _ part => part.tokens
  | .more _ left before sign after right =>
    left.tokens ++ (before.val ++ sign.val :: (after.val ++ right.tokens))

def filter {ℓ : Layer} : Phrase ℓ → Filter
  | .predicate a => .predicate (spanOf a.tokens) a.predicate
  | .not bang gap operand => .not (spanOf (tokens (.not bang gap operand))) operand.filter
  | .group opening before inner after closing =>
    inner.filter.withSpan (spanOf (tokens (.group opening before inner after closing)))
  | .first _ part => part.filter
  | .more op left before sign after right =>
    .binary (spanOf (tokens (.more op left before sign after right))) op left.filter right.filter

/-- How many expressions are open around one another inside the phrase: each `!`, each parenthesis
and each right operand opens one. -/
def nesting {ℓ : Layer} : Phrase ℓ → Nat
  | .predicate _ => 0
  | .not _ _ operand => operand.nesting + 1
  | .group _ _ inner _ _ => inner.nesting + 1
  | .first _ part => part.nesting
  | .more _ left _ _ _ right => max left.nesting (right.nesting + 1)

def bangs {ℓ : Layer} : Phrase ℓ → Nat
  | .not _ _ operand => operand.bangs + 1
  | _ => 0

def longestBangs {ℓ : Layer} : Phrase ℓ → Nat
  | .predicate _ => 0
  | .not _ _ operand => max (operand.bangs + 1) operand.longestBangs
  | .group _ _ inner _ _ => inner.longestBangs
  | .first _ part => part.longestBangs
  | .more _ left _ _ _ right => max left.longestBangs right.longestBangs

def operators {ℓ : Layer} : Phrase ℓ → List Operator
  | .first _ part => part.operators
  | .more op left _ _ _ right => left.operators ++ op :: right.operators
  | _ => []

end Phrase

/-- The phrase that a text spells, with white space around it. Behind it there may be newlines. -/
def Derives (text : String) (ph : Phrase (.chain .or)) : Prop :=
  ∃ (before : Gap) (after : List Token),
    (∀ t ∈ after, isSpace t = true) ∧
      tokenize text.toList = before.val ++ (ph.tokens ++ after)

theorem derives_of_tokens {text : String} {ph : Phrase (.chain .or)}
    (h : ph.tokens = tokenize text.toList) : Derives text ph :=
  ⟨⟨[], by simp⟩, [], by simp, by simp [h]⟩

theorem ofTag?_eq_some_iff {tag : Tag} {op : Operator} :
    Operator.ofTag? tag = some op ↔ tag = op.tag := by
  cases tag <;> cases op <;> simp [Operator.ofTag?, Operator.tag]

@[simp] theorem start_spanOf_cons (t : Token) (ts : List Token) :
    (spanOf (t :: ts)).start = t.start := rfl

theorem start_spanOf_append {ts : List Token} (h : ts ≠ []) (us : List Token) :
    (spanOf (ts ++ us)).start = (spanOf ts).start := by
  obtain ⟨t, ts, rfl⟩ := List.exists_cons_of_ne_nil h
  rfl

@[simp] theorem stop_spanOf_concat (ts : List Token) (t : Token) :
    (spanOf (ts ++ [t])).stop = t.stop := by
  simp [spanOf, spanning]

theorem stop_spanOf_append (ts : List Token) {us : List Token} (h : us ≠ []) :
    (spanOf (ts ++ us)).stop = (spanOf us).stop := by
  obtain ⟨us, u, rfl⟩ := (List.eq_nil_or_concat us).resolve_left h
  rw [List.concat_eq_append, ← List.append_assoc, stop_spanOf_concat, stop_spanOf_concat]

theorem precedence_lt_joinedBy (op : Operator) :
    op.precedence < (Layer.joinedBy op).precedence := by
  cases op <;> decide

theorem Spells.exists_head {ts : List Token} {p : Predicate} (h : Spells ts p) :
    ∃ t us, ts = t :: us ∧ t.tag.isInlineSpace = false := by
  cases h with
  | any t | word t | anyTag t | tag t | anyPriority t | priority t | track t | literal t
  | fuzzy t => exact ⟨_, _, rfl, by rw [t.property]; rfl⟩

theorem isSpace_of_tag {t : Token} {tag : Tag} (h : t.tag = tag)
    (htag : (tag.isInlineSpace || tag == .newline) = false) : isSpace t = false := by
  rw [isSpace, h, htag]

theorem Spells.exists_last {ts : List Token} {p : Predicate} (h : Spells ts p) :
    ∃ us t, ts = us ++ [t] ∧ isSpace t = false := by
  cases h with
  | any t | word t | anyTag t | anyPriority t =>
    exact ⟨[], _, rfl, isSpace_of_tag t.property rfl⟩
  | @tag sign name ht =>
    exact ⟨[sign.val], name, rfl, ht.elim (isSpace_of_tag · rfl) (isSpace_of_tag · rfl)⟩
  | priority sign number => exact ⟨[sign.val], _, rfl, isSpace_of_tag number.property rfl⟩
  | track t colon number => exact ⟨[t.val, colon.val], _, rfl, isSpace_of_tag number.property rfl⟩
  | literal opening closing =>
    exact ⟨opening.val :: _, _, rfl, isSpace_of_tag closing.property rfl⟩
  | fuzzy opening closing =>
    exact ⟨opening.val :: _, _, rfl, isSpace_of_tag closing.property rfl⟩

namespace Phrase

variable {ℓ : Layer}

theorem exists_head (ph : Phrase ℓ) : ∃ t us, ph.tokens = t :: us ∧ t.tag.isInlineSpace = false := by
  induction ph with
  | predicate a => exact a.spells.exists_head
  | not bang => exact ⟨_, _, rfl, by rw [bang.property]; rfl⟩
  | group opening => exact ⟨_, _, rfl, by rw [opening.property]; rfl⟩
  | first _ part ih => exact ih
  | more _ left _ _ _ _ ih _ =>
    obtain ⟨t, us, hl, ht⟩ := ih
    exact ⟨t, _, by rw [tokens, hl]; rfl, ht⟩

theorem exists_last (ph : Phrase ℓ) : ∃ us t, ph.tokens = us ++ [t] ∧ isSpace t = false := by
  induction ph with
  | predicate a => exact a.spells.exists_last
  | not bang gap _ ih =>
    obtain ⟨us, t, ho, ht⟩ := ih
    exact ⟨bang.val :: (gap.val ++ us), t, by rw [tokens, ho]; simp, ht⟩
  | group opening before inner after closing =>
    refine ⟨opening.val :: (before.val ++ (inner.tokens ++ after.val)), closing.val, ?_, ?_⟩
    · simp [tokens]
    · exact isSpace_of_tag closing.property rfl
  | first _ part ih => exact ih
  | more _ left before sign after _ _ ih =>
    obtain ⟨us, t, hr, ht⟩ := ih
    exact ⟨left.tokens ++ (before.val ++ sign.val :: (after.val ++ us)), t, by
      rw [tokens, hr]; simp, ht⟩

theorem tokens_ne_nil (ph : Phrase ℓ) : ph.tokens ≠ [] := by
  obtain ⟨t, us, h, -⟩ := ph.exists_head
  simp [h]

theorem precedence_le (ph : Phrase ℓ) {op : Operator} (h : op ∈ ph.operators) :
    ℓ.precedence ≤ op.precedence := by
  induction ph with
  | predicate | not | group => simp [operators] at h
  | first op' _ ih => exact Nat.le_trans (Nat.le_of_lt (precedence_lt_joinedBy op')) (ih h)
  | more op' _ _ _ _ _ ihl ihr =>
    rcases List.mem_append.1 h with h | h
    · exact ihl h
    · rcases List.mem_cons.1 h with rfl | h
      · exact Nat.le_refl _
      · exact Nat.le_trans (Nat.le_of_lt (precedence_lt_joinedBy op')) (ihr h)

theorem nesting_lt_length (ph : Phrase ℓ) : ph.nesting < ph.tokens.length := by
  induction ph with
  | predicate a => exact List.length_pos_iff.2 (tokens_ne_nil (.predicate a))
  | not | group | more =>
    simp only [nesting, tokens, List.length_cons, List.length_append]
    omega
  | first _ _ ih => exact ih

theorem bangs_le_nesting (ph : Phrase ℓ) : ph.bangs ≤ ph.nesting := by
  induction ph with
  | predicate | group | first | more => exact Nat.zero_le _
  | not _ _ _ ih => exact Nat.succ_le_succ ih

theorem longestBangs_le_nesting (ph : Phrase ℓ) : ph.longestBangs ≤ ph.nesting := by
  induction ph with
  | predicate => exact Nat.le_refl 0
  | not _ _ operand =>
    have := operand.bangs_le_nesting
    simp only [longestBangs, nesting]
    omega
  | group | more =>
    simp only [longestBangs, nesting]
    omega
  | first _ _ ih => exact ih

theorem operators_operand (u : Phrase .operand) : u.operators = [] := by
  cases u <;> rfl

@[simp] theorem span_filter (ph : Phrase ℓ) : ph.filter.span = spanOf ph.tokens := by
  induction ph with
  | predicate | not | more => rfl
  | group _ _ inner => cases h : inner.filter <;> simp [filter, h, Filter.withSpan, Filter.span]
  | first _ _ ih => exact ih

theorem filter_not (bang : Sign .bang) (gap : Gap) (operand : Phrase .operand) :
    (Phrase.not bang gap operand).filter =
      .not (spanning bang.val.start operand.filter.span.stop) operand.filter := by
  have hstop : (spanOf (tokens (.not bang gap operand))).stop = (spanOf operand.tokens).stop :=
    stop_spanOf_append (bang.val :: gap.val) operand.tokens_ne_nil
  rw [span_filter, ← hstop]
  rfl

theorem filter_group (opening : Sign .leftParen) (before : Gap) (inner : Phrase (.chain .or))
    (after : Gap) (closing : Sign .rightParen) :
    (Phrase.group opening before inner after closing).filter = inner.filter.withSpan
      { inner.filter.span with start := opening.val.start, stop := closing.val.stop } := by
  have htokens : tokens (.group opening before inner after closing) =
      (opening.val :: (before.val ++ (inner.tokens ++ after.val))) ++ [closing.val] := by
    simp [tokens]
  have hstop := stop_spanOf_concat (opening.val :: (before.val ++ (inner.tokens ++ after.val)))
    closing.val
  rw [← htokens] at hstop
  rw [span_filter, ← hstop]
  rfl

theorem filter_more (op : Operator) (left : Phrase (.chain op)) (before : Gap)
    (sign : Sign op.tag) (after : Gap) (right : Phrase (.joinedBy op)) :
    (Phrase.more op left before sign after right).filter =
      .binary { left.filter.span with stop := right.filter.span.stop } op left.filter
        right.filter := by
  have hstart : (spanOf (tokens (.more op left before sign after right))).start =
      (spanOf left.tokens).start := start_spanOf_append left.tokens_ne_nil _
  have htokens : tokens (.more op left before sign after right) =
      (left.tokens ++ (before.val ++ sign.val :: after.val)) ++ right.tokens := by
    simp [tokens]
  have hstop := stop_spanOf_append (left.tokens ++ (before.val ++ sign.val :: after.val))
    right.tokens_ne_nil
  rw [← htokens] at hstop
  rw [span_filter, span_filter, ← hstop]
  show _ = Filter.binary ⟨(spanOf left.tokens).start, _, 0⟩ op left.filter right.filter
  rw [← hstart]
  rfl

/-- How often the reader has looked since the last token, when it has just read the phrase. -/
def looks {ℓ : Layer} : Phrase ℓ → Nat
  | .predicate _ => 1
  | .not _ _ operand => operand.looks + 2
  | .group .. => 0
  | .first _ part => part.looks
  | .more _ _ _ _ _ right => right.looks + 2

theorem looks_le (ph : Phrase ℓ) :
    ph.looks + ℓ.precedence * 2 ≤ 2 * ph.longestBangs + 2 * notPrecedence + 1 ∧
      (ℓ = .operand → ph.looks ≤ 2 * ph.bangs + 1) := by
  induction ph with
  | predicate => simp [looks, longestBangs, bangs, Layer.precedence]; omega
  | not _ _ operand ih =>
    have := ih.2 rfl
    simp only [looks, longestBangs, bangs, Layer.precedence]
    omega
  | group => simp [looks, longestBangs, bangs, Layer.precedence]; omega
  | first op part ih =>
    have := precedence_lt_joinedBy op
    simp only [looks, longestBangs, Layer.precedence, reduceCtorEq, false_implies, and_true] at *
    omega
  | more op left _ _ _ right ihl ihr =>
    have := precedence_lt_joinedBy op
    simp only [looks, longestBangs, Layer.precedence, reduceCtorEq, false_implies, and_true] at *
    omega

end Phrase

end Filter

end TaskMarkup
