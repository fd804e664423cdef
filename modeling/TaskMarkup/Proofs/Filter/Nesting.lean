import TaskMarkup.Proofs.Filter.Query
import TaskMarkup.Proofs.Token.Spelling

/-!
How deep a query may nest. The reader opens an expression for each `!` and each parenthesis, but
also for each right operand, so parentheses that stand to the right of operators count up to three
times.
-/

namespace TaskMarkup.Filter

/-- How deep `!` and parentheses nest. -/
def Phrase.enclosures {ℓ : Layer} : Phrase ℓ → Nat
  | .predicate _ => 0
  | .not _ _ operand => operand.enclosures + 1
  | .group _ _ inner _ _ => inner.enclosures + 1
  | .first _ part => part.enclosures
  | .more _ left _ _ _ right => max left.enclosures right.enclosures

namespace Phrase

variable {ℓ : Layer}

theorem enclosures_le_nesting (ph : Phrase ℓ) : ph.enclosures ≤ ph.nesting := by
  induction ph with
  | predicate => exact Nat.le_refl 0
  | not _ _ _ ih | group _ _ _ _ _ ih => exact Nat.succ_le_succ ih
  | first _ _ ih => exact ih
  | more =>
    simp only [enclosures, nesting]
    omega

theorem nesting_add_precedence_le (ph : Phrase ℓ) :
    ph.nesting + ℓ.precedence ≤ 3 * ph.enclosures + notPrecedence := by
  induction ph with
  | predicate => exact Nat.le_refl _
  | not _ _ _ ih =>
    simp only [nesting, enclosures, Layer.precedence] at *
    omega
  | group _ _ _ _ _ ih =>
    simp only [nesting, enclosures, Layer.precedence, Operator.precedence, notPrecedence] at *
    omega
  | first op _ ih =>
    have := precedence_lt_joinedBy op
    simp only [nesting, enclosures, Layer.precedence] at *
    omega
  | more op _ _ _ _ _ ihl ihr =>
    have := precedence_lt_joinedBy op
    simp only [nesting, enclosures, Layer.precedence] at *
    omega

theorem nesting_le (ph : Phrase (.chain .or)) : ph.nesting ≤ 3 * ph.enclosures + 2 :=
  Nat.le_of_add_le_add_right ph.nesting_add_precedence_le

end Phrase

variable {text : String} {ph : Phrase (.chain .or)}

theorem nesting_of_parse_tooDeep {offset : Nat} (h : Derives text ph)
    (hparse : parse text = .error (.rejected (.tooDeep offset))) : maxDepth ≤ ph.nesting := by
  obtain ⟨-, hok⟩ | ⟨hle, -⟩ | ⟨-, _, _, hstall⟩ := parse_of_derives h
  · simp [hparse] at hok
  · exact hle
  · simp [hparse] at hstall

theorem bangs_of_parse_stalled {peeks offset : Nat} (h : Derives text ph)
    (hparse : parse text = .error (.fault (.stalled peeks offset))) :
    maxBangs < ph.longestBangs := by
  obtain ⟨-, hok⟩ | ⟨-, _, hdeep⟩ | ⟨hlt, -⟩ := parse_of_derives h
  · simp [hparse] at hok
  · simp [hparse] at hdeep
  · exact hlt

/-- A query that the grammar derives is rejected as nested too deep exactly if its enclosures and right
operands together nest that deep, provided that the looks last. Enclosures alone do not tell: up to
twenty of them within one another never are too many, but more may be. -/
theorem parse_tooDeep_iff (h : Derives text ph) :
    ((∃ offset, parse text = .error (.rejected (.tooDeep offset))) ↔ maxDepth ≤ ph.nesting ∧
        ¬ ∃ peeks offset, parse text = .error (.fault (.stalled peeks offset))) ∧
      ((∃ peeks offset, parse text = .error (.fault (.stalled peeks offset))) →
        maxBangs < ph.longestBangs) ∧
      (ph.enclosures ≤ ph.nesting ∧ ph.nesting ≤ 3 * ph.enclosures + 2) ∧
      (3 * ph.enclosures + 2 < maxDepth →
        ∀ offset, parse text ≠ .error (.rejected (.tooDeep offset))) := by
  refine ⟨⟨?_, ?_⟩, ?_, ⟨ph.enclosures_le_nesting, ph.nesting_le⟩, ?_⟩
  · rintro ⟨offset, hparse⟩
    refine ⟨nesting_of_parse_tooDeep h hparse, ?_⟩
    rintro ⟨peeks, offset', hstall⟩
    simp [hparse] at hstall
  · rintro ⟨hle, hlooks⟩
    obtain ⟨hlt, -⟩ | ⟨-, hdeep⟩ | ⟨-, hstall⟩ := parse_of_derives h
    · exact absurd hle (Nat.not_le.2 hlt)
    · exact hdeep
    · exact absurd hstall hlooks
  · rintro ⟨peeks, offset, hstall⟩
    exact bangs_of_parse_stalled h hstall
  · intro hlt offset hparse
    have hle := nesting_of_parse_tooDeep h hparse
    exact absurd (Nat.le_trans hle ph.nesting_le) (Nat.not_le.2 hlt)

def aside (operand : List Char) : List Char := 'x' :: '|' :: 'x' :: '&' :: operand

def asides : Nat → List Char
  | 0 => aside ['x']
  | n + 1 => aside ('(' :: asides n ++ [')'])

structure Phrase.Nests {ℓ : Layer} (ph : Phrase ℓ) (start : Nat) (cs : List Char)
    (enclosures nesting : Nat) : Prop where
  tokens : ph.tokens = Token.place start (Text.runs cs)
  enclosures : ph.enclosures = enclosures
  nesting : ph.nesting = nesting
  longestBangs : ph.longestBangs = 0

namespace Phrase.Nests

theorem exists_done (start : Nat) : ∃ u : Phrase .operand, u.Nests start ['x'] 0 0 :=
  ⟨.predicate ⟨[⟨.word, start, ['x']⟩], .done, .word ⟨_, rfl⟩ rfl⟩, rfl, rfl, rfl, rfl⟩

variable {cs : List Char} {enclosures nesting : Nat}

theorem exists_group (start : Nat)
    (h : ∀ start, ∃ ph : Phrase (.chain .or), ph.Nests start cs enclosures nesting) :
    ∃ u : Phrase .operand, u.Nests start ('(' :: cs ++ [')']) (enclosures + 1) (nesting + 1) := by
  have hruns : Text.runs ('(' :: cs ++ [')']) = ['('] :: (Text.runs cs ++ [[')']]) := by
    rw [List.cons_append, Text.runs_cons (c := '(') rfl, Text.runs_concat (c := ')') rfl]
  obtain ⟨opening, s, hopening, -, hplace⟩ :=
    Token.exists_place_cons start ['('] (Text.runs cs ++ [[')']])
  obtain ⟨inner, hinner⟩ := h s
  obtain ⟨closing, s', hclosing, -, hplace'⟩ :=
    Token.exists_place_cons (s + Text.byteSize (Text.runs cs).flatten) [')'] []
  refine ⟨.group ⟨opening, hopening⟩ .none inner .none ⟨closing, hclosing⟩, ?_,
    congrArg (· + 1) hinner.enclosures, congrArg (· + 1) hinner.nesting, hinner.longestBangs⟩
  rw [hruns, hplace, Token.place_append, hplace', ← hinner.tokens]
  rfl

theorem exists_aside (start : Nat)
    (h : ∀ start, ∃ u : Phrase .operand, u.Nests start cs enclosures nesting) :
    ∃ ph : Phrase (.chain .or), ph.Nests start (aside cs) enclosures (nesting + 2) := by
  have hruns : Text.runs (aside cs) =
      Text.runs ['x'] ++ ['|'] :: (Text.runs ['x'] ++ ['&'] :: Text.runs cs) :=
    (Text.runs_append_cons (c := '|') rfl ['x'] (['x'] ++ '&' :: cs)).trans <|
      congrArg (Text.runs ['x'] ++ ['|'] :: ·) (Text.runs_append_cons (c := '&') rfl ['x'] cs)
  obtain ⟨u₁, h₁⟩ := exists_done start
  obtain ⟨bar, s₁, hbar, -, hplace₁⟩ := Token.exists_place_cons
    (start + Text.byteSize (Text.runs ['x']).flatten) ['|']
    (Text.runs ['x'] ++ ['&'] :: Text.runs cs)
  obtain ⟨u₂, h₂⟩ := exists_done s₁
  obtain ⟨ampersand, s₂, hand, -, hplace₂⟩ := Token.exists_place_cons
    (s₁ + Text.byteSize (Text.runs ['x']).flatten) ['&'] (Text.runs cs)
  obtain ⟨u, hu⟩ := h s₂
  refine ⟨.more .or (.first .or (.first .and u₁)) .none ⟨bar, hbar⟩ .none
    (.more .and (.first .and u₂) .none ⟨ampersand, hand⟩ .none u), ?_, ?_, ?_, ?_⟩
  · rw [hruns, Token.place_append, hplace₁, Token.place_append, hplace₂, ← h₁.tokens, ← h₂.tokens,
      ← hu.tokens]
    rfl
  · show max u₁.enclosures (max u₂.enclosures u.enclosures) = enclosures
    rw [h₁.enclosures, h₂.enclosures, hu.enclosures, Nat.zero_max, Nat.zero_max]
  · show max u₁.nesting (max u₂.nesting (u.nesting + 1) + 1) = nesting + 2
    rw [h₁.nesting, h₂.nesting, hu.nesting, Nat.zero_max, Nat.zero_max]
  · show max u₁.longestBangs (max u₂.longestBangs u.longestBangs) = 0
    rw [h₁.longestBangs, h₂.longestBangs, hu.longestBangs, Nat.max_self, Nat.max_self]

theorem exists_asides (n start : Nat) :
    ∃ ph : Phrase (.chain .or), ph.Nests start (asides n) n (3 * n + 2) := by
  induction n generalizing start with
  | zero => exact exists_aside start exists_done
  | succ n ih =>
    have hgroup := fun start => exists_group start ih
    exact exists_aside start hgroup

theorem derives {ph : Phrase (.chain .or)} (h : ph.Nests 0 cs enclosures nesting) :
    Derives (String.ofList cs) ph :=
  derives_of_tokens (by rw [h.tokens, String.toList_ofList, tokenize])

end Phrase.Nests

theorem parse_tooDeep_iff_asides : ∃ ph, Derives (String.ofList (asides 20)) ph ∧
    ph.enclosures = 20 ∧
      ∀ offset, parse (String.ofList (asides 20)) ≠ .error (.rejected (.tooDeep offset)) := by
  obtain ⟨ph, h⟩ := Phrase.Nests.exists_asides 20 0
  refine ⟨ph, h.derives, h.enclosures, (parse_tooDeep_iff h.derives).2.2.2 ?_⟩
  rw [h.enclosures]
  decide

/-- One more is too many, although enclosures nest far less deep than expressions may. -/
theorem exists_parse_tooDeep : ∃ ph, Derives (String.ofList (asides 21)) ph ∧
    ph.enclosures = 21 ∧ 21 < maxDepth ∧
      ∃ offset, parse (String.ofList (asides 21)) = .error (.rejected (.tooDeep offset)) := by
  obtain ⟨ph, h⟩ := Phrase.Nests.exists_asides 21 0
  refine ⟨ph, h.derives, h.enclosures, by decide, parse_tooDeep_of_derives h.derives ?_ ?_⟩
  · rw [h.nesting]
    decide
  · rw [h.longestBangs]
    exact Nat.zero_le _

end TaskMarkup.Filter
