import Mathlib
import TaskMarkup.Proofs.Filter.Query

namespace TaskMarkup.Filter

open Rule

/-- Where a token stands: outside literals, in one, or behind a backslash in one. The depth counts
open parentheses. -/
inductive Place
  | plain (depth : Nat)
  | literal (delimiter : Tag) (depth : Nat)
  | escaped (delimiter : Tag) (depth : Nat)

namespace Place

def next : Place → Tag → Place
  | .plain depth, .leftParen => .plain (depth + 1)
  | .plain depth, .rightParen => .plain (depth - 1)
  | .plain depth, .quote => .literal .quote depth
  | .plain depth, .slash => .literal .slash depth
  | .plain depth, _ => .plain depth
  | .literal delimiter depth, tag =>
    if tag = delimiter then .plain depth
    else if tag = .backslash then .escaped delimiter depth
    else .literal delimiter depth
  | .escaped delimiter depth, _ => .literal delimiter depth

def operator? : Place → Tag → Option Operator
  | .plain 0, tag => Operator.ofTag? tag
  | _, _ => none

def behind (place : Place) (ts : List Token) : Place := ts.foldl (fun p t => p.next t.tag) place

def operators (place : Place) : List Token → List Operator
  | [] => []
  | t :: ts => (place.operator? t.tag).toList ++ (place.next t.tag).operators ts

variable {depth : Nat} {ts us : List Token}

theorem operators_append (place : Place) (ts us : List Token) :
    place.operators (ts ++ us) = place.operators ts ++ (place.behind ts).operators us := by
  induction ts generalizing place with
  | nil => rfl
  | cons t ts ih => simp only [List.cons_append, operators, ih, List.append_assoc]; rfl

theorem behind_append (place : Place) (ts us : List Token) :
    place.behind (ts ++ us) = (place.behind ts).behind us := List.foldl_append ..

structure Keeps (depth : Nat) (ts : List Token) (ops : List Operator) : Prop where
  behind : (plain depth).behind ts = plain depth
  operators : (plain depth).operators ts = if depth = 0 then ops else []

namespace Keeps

variable {ops ops' : List Operator}

theorem append (h : Keeps depth ts ops) (h' : Keeps depth us ops') :
    Keeps depth (ts ++ us) (ops ++ ops') where
  behind := by rw [behind_append, h.behind, h'.behind]
  operators := by
    rw [operators_append, h.behind, h.operators, h'.operators]
    split
    · rfl
    · rfl

theorem nil : Keeps depth [] [] := ⟨rfl, by simp [Place.operators]⟩

theorem single {t : Token} (h : (plain depth).next t.tag = plain depth) :
    Keeps depth [t] (Operator.ofTag? t.tag).toList where
  behind := h
  operators := by
    cases depth <;> simp [Place.operators, operator?]

theorem sign {tag : Tag} (t : Sign tag) (h : (plain depth).next tag = plain depth)
    (h' : Operator.ofTag? tag = none) : Keeps depth [t.val] [] := by
  obtain ⟨t, rfl⟩ := t
  simpa [h'] using single h

theorem gap (gap : Gap) : Keeps depth gap.val [] := by
  obtain ⟨ts, hts⟩ := gap
  induction ts with
  | nil => exact nil
  | cons t ts ih =>
    have ht := hts t (by simp)
    have hnext : Keeps depth [t] [] := by
      cases htag : t.tag <;> simp [htag, Tag.isInlineSpace] at ht
      · exact sign ⟨t, htag⟩ rfl rfl
      · exact sign ⟨t, htag⟩ rfl rfl
    exact hnext.append (ih fun u hu => hts u (by simp [hu]))

theorem operator {op : Operator} (t : Sign op.tag) : Keeps depth [t.val] [op] := by
  have hnext : (plain depth).next t.val.tag = plain depth := by
    rw [t.property]
    cases op <;> rfl
  simpa [ofTag?_eq_some_iff.2 t.property] using single hnext

end Keeps

theorem behind_literal (depth : Nat) {delimiter : Tag} {text : List Char} (h : Literal delimiter ts text)
    (hback : delimiter ≠ .backslash) :
    (literal delimiter depth).behind ts = literal delimiter depth ∧
      (literal delimiter depth).operators ts = [] := by
  induction h with
  | nil => exact ⟨rfl, rfl⟩
  | @plain t _ _ _ hdel hplain _ ih =>
    have hnext : (literal delimiter depth).next t.tag = literal delimiter depth := by
      rw [next, if_neg hdel, if_neg hplain]
    simp only [behind, List.foldl_cons, operators, hnext]
    exact ih
  | @escaped back t _ _ _ _ ih =>
    have hnext : (literal delimiter depth).next back.val.tag = escaped delimiter depth := by
      rw [back.property, next, if_neg hback.symm, if_pos rfl]
    simp only [behind, List.foldl_cons, operators, hnext]
    exact ih

theorem Keeps.delimited {tag : Tag} {text : List Char} (opening closing : Sign tag)
    (h : Literal tag ts text) (hback : tag ≠ .backslash) (hnone : Operator.ofTag? tag = none)
    (hnext : (plain depth).next tag = literal tag depth) :
    Keeps depth (opening.val :: (ts ++ [closing.val])) [] := by
  obtain ⟨hbehind, hops⟩ := behind_literal depth h hback
  obtain ⟨opening, rfl⟩ := opening
  have hclosing : (literal opening.tag depth).next closing.val.tag = plain depth := by
    rw [closing.property, next, if_pos rfl]
  constructor
  · show ((plain depth).next opening.tag).behind (ts ++ [closing.val]) = _
    rw [hnext, behind_append, hbehind]
    exact hclosing
  · show ((plain depth).operator? opening.tag).toList ++
      ((plain depth).next opening.tag).operators (ts ++ [closing.val]) = _
    rw [hnext, operators_append, hops, hbehind]
    cases depth <;> simp [Place.operators, operator?, hnone]

theorem keeps_spells {p : Predicate} (h : Spells ts p) : Keeps depth ts [] := by
  cases h with
  | any t => exact .sign t rfl rfl
  | word t => exact .sign t rfl rfl
  | anyTag t => exact .sign t rfl rfl
  | tag t hname =>
    rcases hname with hname | hname
    · exact (Keeps.sign t rfl rfl).append (Keeps.sign ⟨_, hname⟩ rfl rfl)
    · exact (Keeps.sign t rfl rfl).append (Keeps.sign ⟨_, hname⟩ rfl rfl)
  | anyPriority t => exact .sign t rfl rfl
  | priority t number => exact (Keeps.sign t rfl rfl).append (Keeps.sign number rfl rfl)
  | track t colon number =>
    exact (Keeps.sign t rfl rfl).append ((Keeps.sign colon rfl rfl).append (Keeps.sign number rfl rfl))
  | literal opening closing h => exact .delimited opening closing h (by decide) rfl rfl
  | fuzzy opening closing h => exact .delimited opening closing h (by decide) rfl rfl

theorem keeps_phrase {ℓ : Layer} (ph : Phrase ℓ) : Keeps depth ph.tokens ph.operators := by
  induction ph generalizing depth with
  | predicate a => exact keeps_spells a.spells
  | not bang gap operand ih =>
    rw [operand.operators_operand] at ih
    exact (Keeps.sign bang rfl rfl).append ((Keeps.gap gap).append ih)
  | group opening before inner after closing ih =>
    -- Inside, one more parenthesis is open, so no operator there counts.
    have h : Keeps (depth + 1) (before.val ++ (inner.tokens ++ after.val)) inner.operators := by
      simpa using (Keeps.gap before).append (ih.append (Keeps.gap after))
    have htokens : Phrase.tokens (.group opening before inner after closing) =
        opening.val :: ((before.val ++ (inner.tokens ++ after.val)) ++ [closing.val]) := by
      simp [Phrase.tokens]
    have hopening : (plain depth).next opening.val.tag = plain (depth + 1) := by
      rw [opening.property]
      rfl
    have hclosing : (plain (depth + 1)).next closing.val.tag = plain depth := by
      rw [closing.property]
      rfl
    have hnone : ∀ place : Place, place.operator? opening.val.tag = none ∧
        place.operator? closing.val.tag = none := by
      rw [opening.property, closing.property]
      rintro ((_ | _) | _ | _) <;> exact ⟨rfl, rfl⟩
    rw [htokens]
    constructor
    · show ((plain depth).next opening.val.tag).behind (_ ++ [closing.val]) = _
      rw [hopening, behind_append, h.behind]
      exact hclosing
    · rw [Place.operators, (hnone _).1, hopening, operators_append, h.operators, h.behind,
        Place.operators, (hnone _).2]
      simp [Place.operators, Phrase.operators]
  | first _ _ ih => exact ih
  | more op left before sign after right ihl ihr =>
    exact ihl.append ((Keeps.gap before).append ((Keeps.operator sign).append
      ((Keeps.gap after).append ihr)))

theorem operators_phrase {ℓ : Layer} (ph : Phrase ℓ) :
    (plain 0).operators ph.tokens = ph.operators := (keeps_phrase ph).operators

end Place

/-- A prefix whose operators all bind tighter than `p`, with none longer. -/
structure LongestPrefix (p : Nat) (ts : List Token) (ph : Phrase (.chain .or))
    (rest : List Token) : Prop where
  tokens : ∃ gap : Gap, ts = gap.val ++ (ph.tokens ++ rest)
  tighter : ∀ op ∈ ph.operators, p < op.precedence
  longest : ∀ (other : Phrase (.chain .or)) (gap : Gap) (us : List Token),
    ts = gap.val ++ (other.tokens ++ us) → (∀ op ∈ other.operators, p < op.precedence) →
      other.tokens <+: ph.tokens

/-- What stands behind such a prefix: an operator that binds no tighter, or the end. -/
def Cut (p : Nat) (rest : List Token) : Prop :=
  (∃ (gap : Gap) (op : Operator) (sign : Sign op.tag) (us : List Token), op.precedence ≤ p ∧
    rest = gap.val ++ sign.val :: us) ∨ ∀ t ∈ rest, isSpace t = true

theorem Cut.closes {p : Nat} {rest : List Token} (h : Cut p rest) : Closes rest := by
  rcases h with ⟨gap, op, sign, us, -, rfl⟩ | h
  · exact gap.closes_append (closes_sign sign us)
  · exact closes_of_isSpace h

theorem Cut.stops {p : Nat} {rest : List Token} (h : Cut p rest) : Stops p rest := by
  rcases h with ⟨gap, op, sign, us, hle, rfl⟩ | h
  · exact (stops_sign gap sign us).mono hle
  · exact stops_of_isSpace h p

theorem Phrase.exists_cut {ℓ : Layer} (p : Nat) (ph : Phrase ℓ) :
    (∀ op ∈ ph.operators, p < op.precedence) ∨
      ∃ (pre : Phrase ℓ) (gap : Gap) (op : Operator) (sign : Sign op.tag) (us : List Token),
        op.precedence ≤ p ∧ ph.tokens = pre.tokens ++ (gap.val ++ sign.val :: us) ∧
        (∀ op ∈ pre.operators, p < op.precedence) ∧ pre.nesting ≤ ph.nesting ∧
        pre.longestBangs ≤ ph.longestBangs := by
  induction ph with
  | predicate | not | group => exact .inl (by simp [operators])
  | first op part ih =>
    rcases ih with h | ⟨pre, gap, op', sign, us, hle, htokens, hops, hnesting, hbangs⟩
    · exact .inl h
    · exact .inr ⟨.first op pre, gap, op', sign, us, hle, htokens, hops, hnesting, hbangs⟩
  | more op left before sign after right ihl ihr =>
    rcases ihl with h | ⟨pre, gap, op', sign', us, hle, htokens, hops, hnesting, hbangs⟩
    · rcases Nat.lt_or_ge p op.precedence with hlt | hle
      · left
        intro op' hop'
        exact Nat.lt_of_lt_of_le hlt (precedence_le (.more op left before sign after right) hop')
      · exact .inr ⟨left, before, op, sign, after.val ++ right.tokens, hle, rfl, h,
          Nat.le_max_left .., Nat.le_max_left ..⟩
    · refine .inr ⟨pre, gap, op', sign', us ++ (before.val ++ sign.val :: (after.val ++
        right.tokens)), hle, ?_, hops, Nat.le_trans hnesting (Nat.le_max_left ..),
        Nat.le_trans hbangs (Nat.le_max_left ..)⟩
      rw [tokens, htokens]
      simp

theorem Gap.eq_of_phrase {ts us : List Token} {ℓ ℓ' : Layer} {gap gap' : Gap} {ph : Phrase ℓ}
    {other : Phrase ℓ'} (h : gap.val ++ (ph.tokens ++ ts) = gap'.val ++ (other.tokens ++ us)) :
    ph.tokens ++ ts = other.tokens ++ us := by
  obtain ⟨t, ts', ht, hspace⟩ := ph.exists_head
  obtain ⟨u, us', hu, hspace'⟩ := other.exists_head
  have hdrop := congrArg (List.dropWhile fun t => t.tag.isInlineSpace) h
  rw [ht, hu, List.cons_append, List.cons_append, gap.dropWhile_append_cons hspace,
    gap'.dropWhile_append_cons hspace'] at hdrop
  rw [ht, hu]
  exact hdrop

theorem longestPrefix_of_cut {p : Nat} {gap : Gap} {ph : Phrase (.chain .or)} {rest : List Token}
    (hops : ∀ op ∈ ph.operators, p < op.precedence) (hcut : Cut p rest) :
    LongestPrefix p (gap.val ++ (ph.tokens ++ rest)) ph rest := by
  refine ⟨⟨gap, rfl⟩, hops, fun other gap' us h hother => ?_⟩
  rcases List.append_eq_append_iff.1 (Gap.eq_of_phrase h) with
    ⟨more, hmore, hrest⟩ | ⟨more, hmore, -⟩
  · -- A longer prefix would hold the operator behind this one, or end in white space.
    obtain ⟨init, last, hlast, hspace⟩ := other.exists_last
    obtain rfl | ⟨more, t, rfl⟩ := List.eq_nil_or_concat more
    · simp [hmore]
    rw [List.concat_eq_append] at hmore hrest
    obtain rfl : last = t := by
      rw [hmore, ← List.append_assoc] at hlast
      simpa using (List.append_inj_right' hlast rfl).symm
    rcases hcut with ⟨g, op, sign, after, hle, hcut⟩ | hcut
    · have hgap : last ∉ g.val := fun hmem => by
        simp [isSpace, g.property last hmem] at hspace
      rcases List.append_eq_append_iff.1 (hcut.symm.trans hrest) with
        ⟨tail, htail, hcons⟩ | ⟨tail, htail, -⟩
      · cases tail with
        | nil => exact absurd (by rw [List.append_nil] at htail; rw [← htail]; simp) hgap
        | cons u tail =>
          obtain ⟨rfl, -⟩ := List.cons.inj hcons
          have hsign : Place.Keeps 0 (ph.tokens ++ (g.val ++ [sign.val])) (ph.operators ++ [op]) :=
            (Place.keeps_phrase ph).append ((Place.Keeps.gap g).append (.operator sign))
          have htokens : other.tokens = (ph.tokens ++ (g.val ++ [sign.val])) ++ tail := by
            rw [hmore, htail]
            simp
          have hmem : op ∈ other.operators := by
            rw [← Place.operators_phrase, htokens, Place.operators_append, hsign.operators]
            simp
          exact absurd (hother op hmem) (Nat.not_lt.2 hle)
      · exact absurd (by rw [htail]; simp) hgap
    · have := hcut last (by rw [hrest]; simp)
      rw [this] at hspace
      contradiction
  · exact ⟨more, hmore.symm⟩

theorem expression_longestPrefix {text : String} {ph : Phrase (.chain .or)} (h : Derives text ph)
    (hn : ph.nesting < maxDepth) (hb : ph.longestBangs ≤ maxBangs) (p : Nat) :
    ∃ (pre : Phrase (.chain .or)) (rest : List Token) (t : Lexer Unit),
      LongestPrefix p (tokenize text.toList) pre rest ∧ Cut p rest ∧
        expression maxDepth p (lexer text) = .ok pre.filter t ∧
          t.pending = rest.dropWhile fun t => t.tag.isInlineSpace := by
  obtain ⟨before, after, hafter, htokens⟩ := h
  obtain ⟨pre, rest, hrest, hops, hcut, hnesting, hbangs⟩ : ∃ (pre : Phrase (.chain .or)) (rest : _),
      ph.tokens ++ after = pre.tokens ++ rest ∧ (∀ op ∈ pre.operators, p < op.precedence) ∧
        Cut p rest ∧ pre.nesting ≤ ph.nesting ∧ pre.longestBangs ≤ ph.longestBangs := by
    rcases ph.exists_cut p with hops | ⟨pre, gap, op, sign, us, hle, hpre, hops, hnesting, hbangs⟩
    · exact ⟨ph, after, rfl, hops, .inr hafter, Nat.le_refl _, Nat.le_refl _⟩
    · refine ⟨pre, gap.val ++ sign.val :: (us ++ after), ?_, hops, ?_, hnesting, hbangs⟩
      · rw [hpre]
        simp
      · exact .inl ⟨gap, op, sign, us ++ after, hle, rfl⟩
  rw [hrest] at htokens
  have hoffers : Offers (fun _ => False) (lexer text) before pre rest :=
    ⟨sound_lexer text, by rw [pending_lexer, htokens], hcut.closes,
      Phrase.excused_of_le (Nat.le_trans hbangs hb)⟩
  have hread := readsDepth (fun _ => False) maxDepth hoffers hops hcut.stops (spare_lexer _ text)
    (by decide)
  obtain ⟨f, t, hr, -, rfl, ht, -⟩ := hread.exists_ok fun _ _ he =>
    Nat.not_le.2 (Nat.lt_of_le_of_lt hnesting hn) he.1
  refine ⟨pre, rest, t, ?_, hcut, hr, hoffers.pending_of_passed ht⟩
  rw [htokens]
  exact longestPrefix_of_cut hops hcut

/-- A query is read as the grammar derives it, and with a minimum precedence its longest prefix
with operators that bind tighter. -/
theorem parse?_iff_derives (text : String) (h : ∀ ph : Phrase (.chain .or), Derives text ph →
      ph.nesting < maxDepth ∧ ph.longestBangs ≤ maxBangs) :
    (∀ f, parse? text = some f ↔ ∃ ph : Phrase (.chain .or), Derives text ph ∧ f = ph.filter) ∧
      ((parse? text).isSome = true → ∀ p, ∃ (ph : Phrase (.chain .or)) (rest : List Token)
        (t : Lexer Unit), LongestPrefix p (tokenize text.toList) ph rest ∧ Cut p rest ∧
          expression maxDepth p (lexer text) = .ok ph.filter t ∧
            t.pending = rest.dropWhile fun t => t.tag.isInlineSpace) := by
  constructor
  · intro f
    constructor
    · intro hf
      obtain ⟨ph, hph, -, rfl⟩ := derives_of_parse? hf
      exact ⟨ph, hph, rfl⟩
    · rintro ⟨ph, hph, rfl⟩
      exact parse?_eq_some_of_derives hph (h ph hph).1 (h ph hph).2
  · intro hsome p
    obtain ⟨f, hf⟩ := Option.isSome_iff_exists.1 hsome
    obtain ⟨ph, hph, -, -⟩ := derives_of_parse? hf
    exact expression_longestPrefix hph (h ph hph).1 (h ph hph).2 p

theorem parse?_iff_derives_mixed : (∀ ph : Phrase (.chain .or), Derives "x | due & !@a" ph →
      ph.nesting < maxDepth ∧ ph.longestBangs ≤ maxBangs) ∧
    (∀ f, parse? "x | due & !@a" = some f ↔
      ∃ ph : Phrase (.chain .or), Derives "x | due & !@a" ph ∧ f = ph.filter) := by
  have h : ∀ ph : Phrase (.chain .or), Derives "x | due & !@a" ph →
      ph.nesting < maxDepth ∧ ph.longestBangs ≤ maxBangs := by
    intro ph hph
    have hlength : (tokenize "x | due & !@a".toList).length = 11 := by cbv
    have hle := length_tokens_le_of_derives hph
    have hnesting := ph.nesting_lt_length
    have hbangs := ph.longestBangs_le_nesting
    simp only [maxDepth, maxBangs]
    omega
  exact ⟨h, (parse?_iff_derives _ h).1⟩

end TaskMarkup.Filter
