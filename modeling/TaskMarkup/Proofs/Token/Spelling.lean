import Mathlib.Algebra.Group.Nat.Defs
import TaskMarkup.Proofs.Text.Decimal
import TaskMarkup.Task.Tags

namespace TaskMarkup

namespace Text

variable {c : Char} {cs ds : List Char} {tag : Tag}

theorem joins_comm (a b : Char) : joins a b = joins b a := by
  simp [joins, Bool.and_comm]

theorem joins_space (c : Char) : joins c ' ' = (c == ' ') := by
  simp [joins, isPlain]

theorem runs_append (h : ∀ a ∈ cs.getLast?, ∀ b ∈ ds.head?, joins a b = false) :
    runs (cs ++ ds) = runs cs ++ runs ds := List.splitBy_append h

@[simp] theorem runs_nil : runs [] = [] := rfl

theorem runs_singleton (c : Char) : runs [c] = [[c]] := rfl

theorem runs_append_cons (h : Tag.ofChar? c = some tag) (cs ds : List Char) :
    runs (cs ++ c :: ds) = runs cs ++ [c] :: runs ds := by
  have hleft : ∀ a ∈ cs.getLast?, ∀ b ∈ (c :: ds).head?, joins a b = false := by
    intro a _ b hb
    obtain rfl : c = b := by simpa using hb
    rw [joins_comm]
    exact joins_eq_false_of_reserved h a
  have hright : ∀ a ∈ [c].getLast?, ∀ b ∈ ds.head?, joins a b = false := by
    intro a ha b _
    obtain rfl : c = a := by simpa using ha
    exact joins_eq_false_of_reserved h b
  rw [runs_append hleft, ← List.singleton_append, runs_append hright, runs_singleton]
  rfl

theorem runs_cons (h : Tag.ofChar? c = some tag) (cs : List Char) :
    runs (c :: cs) = [c] :: runs cs := runs_append_cons h [] cs

theorem runs_append_space (hc : ∀ a ∈ cs.getLast?, a ≠ ' ') (hd : ∀ b ∈ ds.head?, b ≠ ' ') :
    runs (cs ++ ' ' :: ds) = runs cs ++ [' '] :: runs ds := by
  have hleft : ∀ a ∈ cs.getLast?, ∀ b ∈ (' ' :: ds).head?, joins a b = false := by
    intro a ha b hb
    obtain rfl : ' ' = b := by simpa using hb
    rw [joins_space]
    simpa using hc a ha
  have hright : ∀ a ∈ [' '].getLast?, ∀ b ∈ ds.head?, joins a b = false := by
    intro a ha b hb
    obtain rfl : ' ' = a := by simpa using ha
    rw [joins_comm, joins_space]
    simpa using hd b hb
  rw [runs_append hleft, ← List.singleton_append, runs_append hright, runs_singleton]
  rfl

theorem runs_space_cons (h : ∀ b ∈ cs.head?, b ≠ ' ') : runs (' ' :: cs) = [' '] :: runs cs := by
  have hnil : ∀ a ∈ ([] : List Char).getLast?, a ≠ ' ' := by simp
  exact runs_append_space hnil h

theorem intercalate_cons (c : Char) (part : List Char) (parts : List (List Char)) :
    [c].intercalate (part :: parts) = part ++ parts.flatMap (c :: ·) := by
  induction parts generalizing part with
  | nil => simp
  | cons next parts ih => rw [List.intercalate_cons_cons, ih]; simp

theorem runs_concat (h : Tag.ofChar? c = some tag) (cs : List Char) :
    runs (cs ++ [c]) = runs cs ++ [[c]] := runs_append_cons h cs []

theorem runs_of_isPlain (hne : cs ≠ []) (h : ∀ c ∈ cs, isPlain c = true) : runs cs = [cs] := by
  apply List.splitBy_of_isChain hne
  apply List.Pairwise.isChain
  rw [List.pairwise_iff_forall_sublist]
  intro a b hab
  simp [joins, h a (hab.subset (by simp)), h b (hab.subset (by simp))]

theorem isPlain_of_alphanum (h : (c.isAlphanum || c == '_') = true) : isPlain c = true := by
  have hspace : c ≠ ' ' := by
    rintro rfl
    exact absurd h (by decide)
  have hnone : Tag.ofChar? c = none := by
    by_contra hsome
    obtain ⟨tag, htag⟩ := Option.ne_none_iff_exists'.1 hsome
    rw [Tag.ofChar?_eq_some_iff] at htag
    cases tag <;> simp only [Tag.char?, Option.some.injEq, reduceCtorEq] at htag <;> subst htag <;>
      exact absurd h (by decide)
  simp [isPlain, hspace, hnone]

theorem isPlain_of_isTagName {name : List Char} (h : isTagName name = true) :
    name ≠ [] ∧ ∀ c ∈ name, isPlain c = true := by
  simp only [isTagName, Bool.and_eq_true, Bool.not_eq_true', List.isEmpty_eq_false_iff,
    List.all_eq_true] at h
  exact ⟨h.1, fun c hc => isPlain_of_alphanum (h.2 c hc)⟩

theorem isPlain_of_isDigit (h : c.isDigit = true) : isPlain c = true :=
  isPlain_of_alphanum (by simp [Char.isAlphanum, h])

theorem ofChar?_of_isPlain (h : isPlain c = true) : c ≠ ' ' ∧ Tag.ofChar? c = none := by
  simpa [isPlain] using h

end Text

namespace Tag

theorem ofRun_reserved {c : Char} {tag : Tag} (h : ofChar? c = some tag) : ofRun [c] = tag := by
  simp [ofRun, h]

theorem ofRun_of_isPlain {run : List Char} (hne : run ≠ [])
    (h : ∀ c ∈ run, Text.isPlain c = true) :
    ofRun run = if Text.isNumeral run then .number else .word := by
  obtain ⟨c, run, rfl⟩ := List.exists_cons_of_ne_nil hne
  obtain ⟨hspace, hnone⟩ := Text.ofChar?_of_isPlain (h c (by simp))
  simp [ofRun, hspace, hnone]

end Tag

theorem Text.isDigit_of_mem_zeroFill {width n : Nat} {c : Char}
    (h : c ∈ zeroFill width (Nat.toDigits 10 n)) : c.isDigit = true := by
  rcases List.mem_append.1 h with h | h
  · rw [List.eq_of_mem_replicate h]
    decide
  · exact Nat.isDigit_of_mem_toDigits (by decide) (by decide) h

theorem Text.zeroFill_ne_nil (width n : Nat) : zeroFill width (Nat.toDigits 10 n) ≠ [] := by
  simp [zeroFill, Nat.toDigits_ne_nil]

theorem Text.runs_zeroFill (width n : Nat) :
    runs (zeroFill width (Nat.toDigits 10 n)) = [zeroFill width (Nat.toDigits 10 n)] :=
  runs_of_isPlain (zeroFill_ne_nil width n) fun _ hc =>
    isPlain_of_isDigit (isDigit_of_mem_zeroFill hc)

theorem Tag.ofRun_zeroFill {width n : Nat} (hwidth : width ≤ 8) (h : n < 10 ^ 8) :
    ofRun (Text.zeroFill width (Nat.toDigits 10 n)) = .number := by
  have hne := Text.zeroFill_ne_nil width n
  have hlength := (Nat.length_toDigits_le_iff (k := 8) (by decide) (by decide)).2 h
  have hle : (Text.zeroFill width (Nat.toDigits 10 n)).length ≤ 8 := by
    simp only [Text.zeroFill, List.length_append, List.length_replicate]
    omega
  have hnumeral : Text.isNumeral (Text.zeroFill width (Nat.toDigits 10 n)) = true := by
    simpa [Text.isNumeral, hne, hle] using fun c hc => Text.isDigit_of_mem_zeroFill hc
  rw [ofRun_of_isPlain hne fun c hc => Text.isPlain_of_isDigit (Text.isDigit_of_mem_zeroFill hc),
    if_pos hnumeral]

theorem Token.value?_of_zeroFill {t : Token} {width n : Nat} (htag : t.tag = .number)
    (htext : t.text = Text.zeroFill width (Nat.toDigits 10 n)) : t.value? = some n := by
  rw [value?, if_pos htag, htext, Text.decimal_zeroFill, Text.decimal_toDigits]

@[simp] theorem Text.zeroFill_zero (ds : List Char) : zeroFill 0 ds = ds := by
  simp [zeroFill]

theorem Text.runs_toDigits (n : Nat) : runs (Nat.toDigits 10 n) = [Nat.toDigits 10 n] := by
  simpa using runs_zeroFill 0 n

theorem Tag.ofRun_toDigits {n : Nat} (h : n < 10 ^ 8) :
    ofRun (Nat.toDigits 10 n) = .number := by
  simpa using ofRun_zeroFill (Nat.zero_le 8) h

theorem Token.value?_of_toDigits {t : Token} {n : Nat} (htag : t.tag = .number)
    (htext : t.text = Nat.toDigits 10 n) : t.value? = some n := by
  rw [← Text.zeroFill_zero (Nat.toDigits 10 n)] at htext
  exact value?_of_zeroFill htag htext

theorem Token.exists_place_cons (start : Nat) (run : List Char) (rest : List (List Char)) :
    ∃ (t : Token) (start' : Nat), t.tag = Tag.ofRun run ∧ t.text = run ∧
      place start (run :: rest) = t :: place start' rest := ⟨_, _, rfl, rfl, rfl⟩

end TaskMarkup
