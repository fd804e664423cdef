import TaskMarkup.Filter.Canonical
import TaskMarkup.Filter.Evaluate
import TaskMarkup.Proofs.Text.Decimal
import TaskMarkup.Task.Tags

namespace TaskMarkup

namespace Text

def inWord (c : Char) : Bool := c != ' ' && c != ')'

def EndsWord (rest : List Char) : Prop := ∀ c ∈ rest.head?, inWord c = false

def unquote (delimiter : Char) : List Char → Option (List Char × List Char)
  | [] => none
  | '\\' :: c :: cs => (unquote delimiter cs).map fun r => (c :: r.1, r.2)
  | c :: cs =>
    if c = delimiter then some ([], cs) else (unquote delimiter cs).map fun r => (c :: r.1, r.2)

theorem unquote_escaped {delimiter : Char} (h : delimiter ≠ '\\') (needle rest : List Char) :
    unquote delimiter (escaped delimiter needle ++ delimiter :: rest) = some (needle, rest) := by
  induction needle with
  | nil => simp [escaped, unquote, h]
  | cons c needle ih =>
    by_cases hc : c = delimiter ∨ c = '\\'
    · have htext : escaped delimiter (c :: needle) = '\\' :: c :: escaped delimiter needle := by
        simp [escaped, hc]
      rw [htext, List.cons_append, List.cons_append, unquote, ih]
      rfl
    · have htext : escaped delimiter (c :: needle) = c :: escaped delimiter needle := by
        simp [escaped, hc]
      obtain ⟨hdelimiter, hback⟩ := not_or.1 hc
      rw [htext, List.cons_append, unquote, if_neg hdelimiter, ih]
      · rfl
      · exact fun _ _ hb => absurd hb hback

theorem takeWhile_inWord {word rest : List Char} (h : ∀ c ∈ word, inWord c = true)
    (hrest : EndsWord rest) :
    (word ++ rest).takeWhile inWord = word ∧ (word ++ rest).dropWhile inWord = rest := by
  rw [List.takeWhile_append_of_pos h, List.dropWhile_append_of_pos h]
  cases rest with
  | nil => simp
  | cons c rest =>
    have hc : inWord c = false := hrest c rfl
    simp [hc]

theorem inWord_of_alphanum {c : Char} (h : (c.isAlphanum || c == '_') = true) : inWord c = true := by
  have hspace : c ≠ ' ' := by
    rintro rfl
    exact absurd h (by decide)
  have hparen : c ≠ ')' := by
    rintro rfl
    exact absurd h (by decide)
  simp [inWord, hspace, hparen]

theorem inWord_of_mem_toDigits {n : Nat} {c : Char} (h : c ∈ Nat.toDigits 10 n) : inWord c = true :=
  inWord_of_alphanum (by
    simp [Char.isAlphanum, Nat.isDigit_of_mem_toDigits (by decide) (by decide) h])

end Text

open Text

namespace Predicate

def wellNamed : Predicate → Bool
  | .tag (some name) => isTagName name.toList
  | _ => true

def ofWord? : List Char → Option Predicate
  | ['*'] => some .any
  | ['d', 'u', 'e'] => some .due
  | ['x'] => some .done
  | ['p', 'i', 'n'] => some .pin
  | ['h', 'i', 'd', 'e'] => some .hide
  | ['@'] => some (.tag none)
  | '@' :: name => some (.tag (some (String.ofList name)))
  | ['t', 'r', 'a', 'c', 'k'] => some (.track none)
  | 't' :: 'r' :: 'a' :: 'c' :: 'k' :: ':' :: digits => some (.track (some (decimal digits)))
  | ['#'] => some (.priority none)
  | '#' :: digits => some (.priority (some (decimal digits)))
  | _ => none

def read? : List Char → Option (Predicate × List Char)
  | '/' :: cs => (unquote '/' cs).map fun r => (.fuzzy (String.ofList r.1), r.2)
  | '\x27' :: cs => (unquote '\x27' cs).map fun r => (.literal (String.ofList r.1), r.2)
  | cs => (ofWord? (cs.takeWhile inWord)).map fun p => (p, cs.dropWhile inWord)

theorem read?_word {p : Predicate} {c : Char} {word rest : List Char}
    (hquote : c ≠ '/' ∧ c ≠ '\x27') (hword : (c :: word).all inWord = true)
    (hp : ofWord? (c :: word) = some p) (hrest : EndsWord rest) :
    read? (c :: word ++ rest) = some (p, rest) := by
  obtain ⟨htake, hdrop⟩ := takeWhile_inWord (List.all_eq_true.1 hword) hrest
  rw [List.cons_append] at htake hdrop ⊢
  rw [read?, htake, hdrop, hp]
  · rfl
  · exact fun _ h => absurd (List.cons.inj h).1 hquote.1
  · exact fun _ h => absurd (List.cons.inj h).1 hquote.2

theorem read?_text {p : Predicate} (hp : p.wellNamed = true) {rest : List Char}
    (hrest : EndsWord rest) : read? (p.text.toList ++ rest) = some (p, rest) := by
  cases p with
  | any => exact read?_word (by decide) (by decide) rfl hrest
  | due => exact read?_word (by decide) (by decide) rfl hrest
  | done => exact read?_word (by decide) (by decide) rfl hrest
  | pin => exact read?_word (by decide) (by decide) rfl hrest
  | hide => exact read?_word (by decide) (by decide) rfl hrest
  | tag name =>
    cases name with
    | none => exact read?_word (by decide) (by decide) rfl hrest
    | some name =>
      obtain ⟨hne, halnum⟩ : name.toList ≠ [] ∧ ∀ c ∈ name.toList, (c.isAlphanum || c == '_') = true := by
        simpa [wellNamed, isTagName] using hp
      have hname : ofWord? ('@' :: name.toList) = some (.tag (some name)) := by
        rw [ofWord?, String.ofList_toList]
        exact hne
      have htext : (Predicate.tag (some name)).text.toList = '@' :: name.toList := by
        simp [text]
      have hin : ('@' :: name.toList).all inWord = true := by
        rw [List.all_cons, Bool.and_eq_true, List.all_eq_true]
        exact ⟨by decide, fun c hc => inWord_of_alphanum (halnum c hc)⟩
      rw [htext]
      exact read?_word (by decide) hin hname hrest
  | track id =>
    cases id with
    | none => exact read?_word (by decide) (by decide) rfl hrest
    | some id =>
      have hword : ofWord? ("track:".toList ++ Nat.toDigits 10 id) = some (.track (some id)) := by
        show some (Predicate.track (some (decimal (Nat.toDigits 10 id)))) = _
        rw [decimal_toDigits]
      have htext : (Predicate.track (some id)).text.toList =
          "track:".toList ++ Nat.toDigits 10 id := by
        simp only [text, Nat.toString_eq_repr, String.toList_append, Nat.toList_repr]
        rfl
      have hin : ("track:".toList ++ Nat.toDigits 10 id).all inWord = true := by
        rw [List.all_append, Bool.and_eq_true, List.all_eq_true (l := Nat.toDigits 10 id)]
        exact ⟨by decide, fun _ hc => inWord_of_mem_toDigits hc⟩
      rw [htext]
      exact read?_word (by decide) hin hword hrest
  | fuzzy needle =>
    have htext : (Predicate.fuzzy needle).text.toList ++ rest =
        '/' :: (escaped '/' needle.toList ++ '/' :: rest) := by
      simp [text, delimited]
    rw [htext, read?, unquote_escaped (by decide)]
    simp
  | literal needle =>
    have htext : (Predicate.literal needle).text.toList ++ rest =
        '\x27' :: (escaped '\x27' needle.toList ++ '\x27' :: rest) := by
      simp [text, delimited]
    rw [htext, read?, unquote_escaped (by decide)]
    simp
  | priority n =>
    cases n with
    | none => exact read?_word (by decide) (by decide) rfl hrest
    | some n =>
      have hword : ofWord? ('#' :: Nat.toDigits 10 n) = some (.priority (some n)) := by
        rw [ofWord?, decimal_toDigits]
        exact Nat.toDigits_ne_nil
      have htext : (Predicate.priority (some n)).text.toList = '#' :: Nat.toDigits 10 n := by
        simp only [text, Nat.toString_eq_repr, String.toList_append, Nat.toList_repr]
        rfl
      have hin : ('#' :: Nat.toDigits 10 n).all inWord = true := by
        rw [List.all_cons, Bool.and_eq_true, List.all_eq_true]
        exact ⟨by decide, fun _ hc => inWord_of_mem_toDigits hc⟩
      rw [htext]
      exact read?_word (by decide) hin hword hrest

theorem read?_bang (cs : List Char) : read? ('!' :: cs) = none := rfl

theorem read?_leftParen (cs : List Char) : read? ('(' :: cs) = none := rfl

end Predicate

namespace Filter

def wellNamed : Filter → Bool
  | .predicate _ p => p.wellNamed
  | .not _ f => f.wellNamed
  | .binary _ _ f g => f.wellNamed && g.wellNamed

variable {f g : Filter} {rest rest' : List Char}

@[simp] theorem toList_operandText_not (s : Span) (f : Filter) :
    (Filter.not s f).operandText.toList = '!' :: f.operandText.toList := by
  simp [operandText]

@[simp] theorem toList_join (op : Operator) (l r : String) :
    (op.join l r).toList = l.toList ++ ' ' :: op.sign :: ' ' :: r.toList := by
  simp [Operator.join]

@[simp] theorem toList_operandText_binary (s : Span) (op : Operator) (f g : Filter) :
    (Filter.binary s op f g).operandText.toList =
      '(' :: ((op.join f.operandText g.operandText).toList ++ [')']) := by
  simp [operandText]

theorem sign_inj {op op' : Operator} (h : op.sign = op'.sign) : op = op' := by
  cases op <;> cases op' <;> simp [Operator.sign] at h ⊢

theorem endsWord_nil : EndsWord [] := by simp [EndsWord]

theorem endsWord_space (cs : List Char) : EndsWord (' ' :: cs) := by
  intro c hc
  obtain rfl : ' ' = c := by simpa using hc
  rfl

theorem endsWord_rightParen (cs : List Char) : EndsWord (')' :: cs) := by
  intro c hc
  obtain rfl : ')' = c := by simpa using hc
  rfl

/-- A text that begins with the operand begins with no other, and tells what follows. -/
def Told (f : Filter) : Prop :=
  ∀ ⦃g : Filter⦄ ⦃rest rest' : List Char⦄, g.wellNamed = true → EndsWord rest →
    EndsWord rest' → f.operandText.toList ++ rest = g.operandText.toList ++ rest' →
      f.sameStructure g = true ∧ rest = rest'

theorem Told.join {f₁ f₂ g₁ g₂ : Filter} {op op' : Operator} (h₁ : f₁.Told) (h₂ : f₂.Told)
    (hg₁ : g₁.wellNamed = true) (hg₂ : g₂.wellNamed = true) (hrest : EndsWord rest)
    (hrest' : EndsWord rest')
    (h : (op.join f₁.operandText f₂.operandText).toList ++ rest =
      (op'.join g₁.operandText g₂.operandText).toList ++ rest') (sp sp' : Span) :
    (Filter.binary sp op f₁ f₂).sameStructure (.binary sp' op' g₁ g₂) = true ∧ rest = rest' := by
  simp only [toList_join, List.append_assoc, List.cons_append] at h
  obtain ⟨hleft, h⟩ := h₁ hg₁ (endsWord_space _) (endsWord_space _) h
  obtain ⟨hsign, h⟩ := List.cons.inj (List.cons.inj h).2
  obtain ⟨hright, h⟩ := h₂ hg₂ hrest hrest' (List.cons.inj h).2
  refine ⟨?_, h⟩
  simp [sameStructure, sign_inj hsign, hleft, hright]

theorem told (hf : f.wellNamed = true) : f.Told := by
  induction f with
  | predicate sp p =>
    intro g rest rest' hg hrest hrest' h
    have hread : Predicate.read? (g.operandText.toList ++ rest') = some (p, rest) := by
      rw [← h]
      exact Predicate.read?_text hf hrest
    cases g with
    | predicate sp' q =>
      obtain ⟨rfl, rfl⟩ : q = p ∧ rest' = rest := by
        simpa using (Predicate.read?_text hg hrest').symm.trans hread
      exact ⟨sameStructure_refl (.predicate sp q), rfl⟩
    | not sp' g => simp [Predicate.read?_bang] at hread
    | binary sp' op g₁ g₂ => simp [Predicate.read?_leftParen] at hread
  | not sp f ih =>
    intro g rest rest' hg hrest hrest' h
    cases g with
    | predicate sp' q =>
      have hread : Predicate.read? ((Filter.not sp f).operandText.toList ++ rest) = some (q, rest') := by
        rw [h]
        exact Predicate.read?_text hg hrest'
      simp [Predicate.read?_bang] at hread
    | not sp' g =>
      simp only [toList_operandText_not, List.cons_append, List.cons.injEq, true_and] at h
      exact ih hf hg hrest hrest' h
    | binary sp' op g₁ g₂ => simp at h
  | binary sp op f₁ f₂ ih₁ ih₂ =>
    intro g rest rest' hg hrest hrest' h
    obtain ⟨hf₁, hf₂⟩ := Bool.and_eq_true_iff.1 hf
    cases g with
    | predicate sp' q =>
      have hread : Predicate.read? ((Filter.binary sp op f₁ f₂).operandText.toList ++ rest) =
          some (q, rest') := by
        rw [h]
        exact Predicate.read?_text hg hrest'
      simp [Predicate.read?_leftParen] at hread
    | not sp' g => simp at h
    | binary sp' op' g₁ g₂ =>
      obtain ⟨hg₁, hg₂⟩ := Bool.and_eq_true_iff.1 hg
      simp only [toList_operandText_binary, List.cons_append, List.append_assoc, List.cons.injEq,
        true_and] at h
      obtain ⟨hsame, h⟩ := (ih₁ hf₁).join (ih₂ hf₂) hg₁ hg₂ (endsWord_rightParen _)
        (endsWord_rightParen _) h sp sp'
      exact ⟨hsame, (List.cons.inj h).2⟩

theorem Told.ne_join {f₁ f₂ : Filter} {op : Operator} (h : f₁.Told) (hg : g.wellNamed = true) :
    op.join f₁.operandText f₂.operandText ≠ g.operandText := by
  intro heq
  have htext : f₁.operandText.toList ++ ' ' :: op.sign :: ' ' :: f₂.operandText.toList =
      g.operandText.toList ++ [] := by
    rw [← toList_join, heq, List.append_nil]
  have := (h hg (endsWord_space _) endsWord_nil htext).2
  contradiction

theorem sameStructure_of_canonical_eq (hf : f.wellNamed = true) (hg : g.wellNamed = true)
    (h : f.canonical = g.canonical) : f.sameStructure g = true := by
  have htext := congrArg (fun s => s.toList ++ []) h
  cases f with
  | predicate | not =>
    cases g with
    | predicate | not => exact (told hf hg endsWord_nil endsWord_nil htext).1
    | binary sp op g₁ g₂ =>
      have hg₁ : g₁.wellNamed = true := (Bool.and_eq_true_iff.1 hg).1
      exact absurd h.symm ((told hg₁).ne_join hf)
  | binary sp op f₁ f₂ =>
    obtain ⟨hf₁, hf₂⟩ := Bool.and_eq_true_iff.1 hf
    cases g with
    | predicate | not => exact absurd h ((told hf₁).ne_join hg)
    | binary sp' op' g₁ g₂ =>
      obtain ⟨hg₁, hg₂⟩ := Bool.and_eq_true_iff.1 hg
      exact ((told hf₁).join (told hf₂) hg₁ hg₂ endsWord_nil endsWord_nil htext sp sp').1

def bare : Filter → Filter
  | .predicate _ p => .predicate ⟨0, 0, 0⟩ p
  | .not _ f => .not ⟨0, 0, 0⟩ f.bare
  | .binary _ op f g => .binary ⟨0, 0, 0⟩ op f.bare g.bare

theorem sameStructure_iff_bare_eq : f.sameStructure g = true ↔ f.bare = g.bare := by
  induction f generalizing g with
  | predicate sp p => cases g <;> simp [sameStructure, bare]
  | not sp f ih => cases g <;> simp [sameStructure, bare, ih]
  | binary sp op f₁ f₂ ih₁ ih₂ => cases g <;> simp [sameStructure, bare, ih₁, ih₂, and_assoc]

@[simp] theorem operandText_bare (f : Filter) : f.bare.operandText = f.operandText := by
  induction f with
  | predicate sp p => rfl
  | not sp f ih => rw [bare, operandText, operandText, ih]
  | binary sp op f g ihf ihg => rw [bare, operandText, operandText, ihf, ihg]

@[simp] theorem canonical_bare (f : Filter) : f.bare.canonical = f.canonical := by
  cases f with
  | predicate sp p => rfl
  | not sp f => exact operandText_bare (.not sp f)
  | binary sp op f g => rw [bare, canonical, canonical, operandText_bare, operandText_bare]

@[simp] theorem holds_bare (scorer : Scorer) (task : Task) (text : String) (f : Filter) :
    f.bare.holds scorer task text = f.holds scorer task text := by
  induction f with
  | predicate sp p => rfl
  | not sp f ih => rw [bare, holds, holds, ih]
  | binary sp op f g ihf ihg => cases op <;> rw [bare, holds, holds, ihf, ihg]

/-- Two filters have the same canonical text exactly if they have the same structure. Then they agree
on every task, however fuzzy needles are scored. -/
theorem canonical_eq_iff (hf : f.wellNamed = true) (hg : g.wellNamed = true) :
    (f.canonical = g.canonical ↔ f.sameStructure g = true) ∧
      (f.canonical = g.canonical → ∀ (scorer : Scorer) (task : Task) (text : String),
        f.holds scorer task text = g.holds scorer task text) := by
  refine ⟨⟨sameStructure_of_canonical_eq hf hg, fun h => ?_⟩, fun h scorer task text => ?_⟩
  · rw [← canonical_bare f, sameStructure_iff_bare_eq.1 h, canonical_bare]
  · have hbare := sameStructure_iff_bare_eq.1 (sameStructure_of_canonical_eq hf hg h)
    rw [← holds_bare, hbare, holds_bare]

theorem canonical_eq_iff_quoted :
    let f := Filter.binary ⟨0, 9, 0⟩ .or (.predicate ⟨0, 4, 0⟩ (.literal "a' | 'b"))
      (.predicate ⟨5, 9, 0⟩ (.track (some 1234567890)))
    let g := Filter.binary ⟨0, 9, 0⟩ .or (.predicate ⟨0, 4, 0⟩ (.literal "a"))
      (.binary ⟨0, 9, 0⟩ .or (.predicate ⟨0, 4, 0⟩ (.literal "b"))
        (.predicate ⟨5, 9, 0⟩ (.track (some 1234567890))))
    f.wellNamed = true ∧ g.wellNamed = true ∧ f.canonical ≠ g.canonical :=
  ⟨by decide, by decide, fun h =>
    absurd ((canonical_eq_iff (by decide) (by decide)).1.1 h) (by decide)⟩

end Filter

end TaskMarkup
