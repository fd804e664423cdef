import Mathlib
import TaskMarkup.Filter.Score

/-!
What a fuzzy score counts. A needle has a score if its characters stand somewhere in the text in
order; each is then looked for at its first place, which gives the embedding that lies left of all
others, and the score adds up the runs of neighbours in it.
-/

namespace TaskMarkup

namespace Text

structure Embeds (needle text : List Char) (places : List Nat) : Prop where
  ascending : places.Pairwise (· < ·)
  characters : places.map (text[·]?) = needle.map some

/-- An embedding that has each character at least as far left as any other. -/
structure Leftmost (needle text : List Char) (places : List Nat) : Prop
    extends Embeds needle text places where
  le : ∀ others, Embeds needle text others → List.Forall₂ (· ≤ ·) places others

variable {c : Char} {needle text skipped rest : List Char} {places others : List Nat}

@[simp] theorem embeds_nil : Embeds [] text places ↔ places = [] := by
  constructor
  · intro h
    simpa using h.characters
  · rintro rfl
    exact ⟨.nil, rfl⟩

theorem leftmost_nil (text : List Char) : Leftmost [] text [] where
  toEmbeds := embeds_nil.2 rfl
  le others h := by
    rw [embeds_nil.1 h]
    exact .nil

theorem not_embeds_of_not_mem (h : c ∉ text) : ¬ Embeds (c :: needle) text places := by
  intro he
  cases places with
  | nil => exact absurd he.characters (by simp)
  | cons i is =>
    have hi : text[i]? = some c := (List.cons.inj he.characters).1
    exact h (List.mem_of_getElem? hi)

theorem getElem?_append_cons (i : Nat) :
    (skipped ++ c :: rest)[i + (skipped.length + 1)]? = rest[i]? := by
  rw [List.getElem?_append_right (by omega), show i + (skipped.length + 1) - skipped.length = i + 1
    by omega, List.getElem?_cons_succ]

theorem Embeds.cons (h : Embeds needle rest places) : Embeds (c :: needle) (skipped ++ c :: rest)
    (skipped.length :: places.map (· + (skipped.length + 1))) where
  ascending := by
    refine List.pairwise_cons.2 ⟨?_, List.pairwise_map.2 (h.ascending.imp fun hij => by omega)⟩
    intro j hj
    obtain ⟨i, -, rfl⟩ := List.mem_map.1 hj
    omega
  characters := by
    rw [List.map_cons, List.map_map, List.map_cons, ← h.characters]
    congr 1
    · simp
    · exact List.map_congr_left fun i _ => getElem?_append_cons i

theorem Embeds.exists_cons (hc : c ∉ skipped)
    (h : Embeds (c :: needle) (skipped ++ c :: rest) others) : ∃ i places, skipped.length ≤ i ∧
      others = i :: places.map (· + (skipped.length + 1)) ∧ Embeds needle rest places := by
  obtain ⟨hasc, hchars⟩ := h
  cases others with
  | nil => simp at hchars
  | cons i is =>
    obtain ⟨hi, hchars⟩ := List.cons.inj hchars
    obtain ⟨hlt, hasc⟩ := List.pairwise_cons.1 hasc
    have hle : skipped.length ≤ i := by
      by_contra hlt
      have hskipped : skipped[i]? = some c :=
        (List.getElem?_append_left (Nat.not_le.1 hlt)).symm.trans hi
      exact hc (List.mem_of_getElem? hskipped)
    have hback : ∀ j ∈ is, j - (skipped.length + 1) + (skipped.length + 1) = j := by
      intro j hj
      have := hlt j hj
      omega
    have hmap : is = (is.map (· - (skipped.length + 1))).map (· + (skipped.length + 1)) := by
      rw [List.map_map]
      exact (List.map_id is).symm.trans (List.map_congr_left fun j hj => (hback j hj).symm)
    refine ⟨i, is.map (· - (skipped.length + 1)), hle, by rw [← hmap], ?_, ?_⟩
    · rw [List.pairwise_map]
      refine hasc.imp_of_mem fun {j k} hj hk hjk => ?_
      have := hback j hj
      have := hback k hk
      omega
    · rw [← hchars, List.map_map]
      refine List.map_congr_left fun j hj => ?_
      have hplace : (skipped ++ c :: rest)[j - (skipped.length + 1) + (skipped.length + 1)]? =
          rest[j - (skipped.length + 1)]? := getElem?_append_cons _
      rw [Function.comp_apply, ← hplace, hback j hj]

theorem Leftmost.cons (hc : c ∉ skipped) (h : Leftmost needle rest places) :
    Leftmost (c :: needle) (skipped ++ c :: rest)
      (skipped.length :: places.map (· + (skipped.length + 1))) where
  toEmbeds := h.toEmbeds.cons
  le others ho := by
    obtain ⟨i, behind, hi, rfl, hbehind⟩ := ho.exists_cons hc
    refine .cons hi ?_
    rw [List.forall₂_map_left_iff, List.forall₂_map_right_iff]
    exact (h.le behind hbehind).imp fun _ _ hle => Nat.add_le_add_right hle _

theorem Leftmost.eq (h : Leftmost needle text places) (h' : Leftmost needle text others) :
    places = others := by
  have hle := h.le others h'.toEmbeds
  have hge := h'.le places h.toEmbeds
  clear h h'
  induction hle with
  | nil => rfl
  | cons hij _ ih =>
    obtain ⟨hji, hge⟩ := List.forall₂_cons.1 hge
    rw [Nat.le_antisymm hij hji, ih hge]

theorem cons_sublist_append_cons (hc : c ∉ skipped) :
    (c :: needle).Sublist (skipped ++ c :: rest) ↔ needle.Sublist rest := by
  induction skipped with
  | nil => exact List.cons_sublist_cons
  | cons d skipped ih =>
    have hne : c ≠ d := fun h => hc (by simp [h])
    have hc : c ∉ skipped := fun h => hc (by simp [h])
    rw [List.cons_append, ← ih hc]
    constructor
    · intro h
      cases h with
      | cons _ h => exact h
      | cons_cons => exact absurd rfl hne
    · exact fun h => h.cons d

theorem Embeds.sublist (h : Embeds needle text places) : needle.Sublist text := by
  induction needle generalizing text places with
  | nil => exact List.nil_sublist text
  | cons c needle ih =>
    by_cases hmem : c ∈ text
    · obtain ⟨skipped, rest, rfl, hc⟩ := List.eq_append_cons_of_mem hmem
      obtain ⟨i, behind, -, -, hbehind⟩ := h.exists_cons hc
      exact (cons_sublist_append_cons hc).2 (ih hbehind)
    · exact absurd h (not_embeds_of_not_mem hmem)

def neighbours (places : List Nat) : List (List Nat) := places.splitBy fun i j => i + 1 == j

/-- What a run of neighbours is worth: one for its first place, two for the next, and so on. -/
def runWorth (length : Nat) : Nat := length * (length + 1) / 2

theorem runWorth_succ (n : Nat) : runWorth (n + 1) = runWorth n + (n + 1) := by
  have h : (n + 1) * (n + 1 + 1) = n * (n + 1) + 2 * (n + 1) := by
    rw [Nat.mul_comm (n + 1), Nat.add_assoc n 1 1, Nat.add_mul]
  rw [runWorth, h, Nat.add_mul_div_left _ _ (by decide), runWorth]

def worth (places : List Nat) : Nat := ((neighbours places).map fun run => runWorth run.length).sum

/-- What places are worth behind a run of `streak` places that `next` would go on with. -/
def gain (streak next : Nat) : List Nat → Nat
  | [] => 0
  | i :: is =>
    let streak := if i = next then streak + 1 else 1
    streak + gain streak (i + 1) is

theorem gain_map_add (streak next n : Nat) (places : List Nat) :
    gain streak (next + n) (places.map (· + n)) = gain streak next places := by
  induction places generalizing streak next with
  | nil => rfl
  | cons i is ih =>
    simp only [List.map_cons, gain, Nat.add_right_cancel_iff, Nat.add_right_comm i n 1, ih]

theorem gain_range'_append (streak next n : Nat) (is : List Nat) :
    runWorth streak + gain streak next (List.range' next n ++ is) =
      runWorth (streak + n) + gain (streak + n) (next + n) is := by
  induction n generalizing streak next with
  | zero => rfl
  | succ n ih =>
    have h := ih (streak + 1) (next + 1)
    rw [runWorth_succ, Nat.add_right_comm, Nat.add_assoc streak, Nat.add_comm 1 n,
      Nat.add_assoc next, Nat.add_comm 1 n] at h
    rw [← h, List.range'_succ, List.cons_append, gain, if_pos rfl]
    omega

theorem eq_range'_of_isChain {i : Nat} {is : List Nat}
    (h : (i :: is).IsChain fun i j => (i + 1 == j) = true) :
    i :: is = List.range' i (is.length + 1) := by
  induction is generalizing i with
  | nil => rfl
  | cons j is ih =>
    obtain ⟨hij, h⟩ := List.isChain_cons_cons.1 h
    obtain rfl : i + 1 = j := by simpa using hij
    rw [List.length_cons, List.range'_succ, ← ih h]

theorem gain_flatten {runs : List (List Nat)} (streak next : Nat) (hne : [] ∉ runs)
    (hrun : ∀ run ∈ runs, run.IsChain fun i j => (i + 1 == j) = true)
    (hapart : runs.IsChain fun run run' =>
      ∃ h h', (run.getLast h + 1 == run'.head h') = false)
    (hnext : ∀ i ∈ runs.flatten.head?, i = next → streak = 0) :
    gain streak next runs.flatten = (runs.map fun run => runWorth run.length).sum := by
  induction runs generalizing streak next with
  | nil => rfl
  | cons run runs ih =>
    have hnes : [] ∉ runs := fun h => hne (by simp [h])
    obtain ⟨i, is, rfl⟩ := List.exists_cons_of_ne_nil fun h : run = [] => hne (by simp [h])
    have hrange := eq_range'_of_isChain (hrun (i :: is) (by simp))
    have hstart : gain streak next ((i :: is) ++ runs.flatten) =
        gain 0 i ((i :: is) ++ runs.flatten) := by
      by_cases hi : i = next
      · rw [hnext i (by simp) hi, hi]
      · simp [gain, hi]
    have htail : gain (is.length + 1) (i + (is.length + 1)) runs.flatten =
        (runs.map fun run => runWorth run.length).sum := by
      apply ih _ _ hnes (fun run hrun' => hrun run (by simp [hrun'])) (List.isChain_of_isChain_cons hapart)
      intro j hj hij
      cases runs with
      | nil => simp at hj
      | cons run' runs =>
        obtain ⟨h, h', hgap⟩ := (List.isChain_cons_cons.1 hapart).1
        have hlast : (i :: is).getLast h = i + is.length := by
          simp [hrange]
        have hhead : run'.head h' = j := by
          obtain ⟨k, ks, rfl⟩ := List.exists_cons_of_ne_nil h'
          simpa using hj
        rw [hlast, hhead, hij] at hgap
        simp [Nat.add_assoc] at hgap
    have hwhole := gain_range'_append 0 i (is.length + 1) runs.flatten
    rw [← hrange, Nat.zero_add, htail] at hwhole
    have hzero : runWorth 0 = 0 := rfl
    rw [List.flatten_cons, hstart, List.map_cons, List.sum_cons, List.length_cons, ← hwhole, hzero,
      Nat.zero_add]

theorem gain_zero (places : List Nat) : gain 0 0 places = worth places := by
  obtain ⟨-, hne, hrun, hapart⟩ := List.splitBy_eq_iff.1 (rfl : neighbours places = _)
  have h := gain_flatten 0 0 hne hrun hapart fun _ _ _ => rfl
  rwa [neighbours, List.flatten_splitBy] at h

end Text

open Text

variable {c : Char} {needle text skipped rest : List Char} {streak s : Nat}

theorem greedyScore_of_not_mem (h : c ∉ text) : greedyScore streak (c :: needle) text = none := by
  have hdrop : text.dropWhile (· ≠ c) = [] := by
    simp only [List.dropWhile_eq_nil_iff, decide_eq_true_eq]
    rintro d hd rfl
    exact h hd
  rw [greedyScore, hdrop]

theorem greedyScore_append_cons (hc : c ∉ skipped) :
    greedyScore streak (c :: needle) (skipped ++ c :: rest) =
      (greedyScore (if skipped = [] then streak + 1 else 1) needle rest).map
        ((if skipped = [] then streak + 1 else 1) + ·) := by
  have hdrop : (skipped ++ c :: rest).dropWhile (· ≠ c) = c :: rest := by
    rw [List.dropWhile_append_of_pos, List.dropWhile_cons_of_neg (by simp)]
    intro d hd
    simp only [decide_eq_true_eq]
    rintro rfl
    exact hc hd
  have hhead : (skipped ++ c :: rest).head? = some c ↔ skipped = [] := by
    cases skipped with
    | nil => simp
    | cons d skipped =>
      have : d ≠ c := fun hdc => hc (by simp [hdc])
      simpa using this
  simp only [greedyScore, hdrop, hhead]

theorem exists_append_of_greedyScore (h : greedyScore streak (c :: needle) text = some s) :
    ∃ skipped rest s', c ∉ skipped ∧ text = skipped ++ c :: rest ∧
      greedyScore (if skipped = [] then streak + 1 else 1) needle rest = some s' ∧
      (if skipped = [] then streak + 1 else 1) + s' = s := by
  by_cases hmem : c ∈ text
  · obtain ⟨skipped, rest, rfl, hc⟩ := List.eq_append_cons_of_mem hmem
    rw [greedyScore_append_cons hc] at h
    obtain ⟨s', hs', hsum⟩ := Option.map_eq_some_iff.1 h
    exact ⟨skipped, rest, s', hc, rfl, hs', hsum⟩
  · rw [greedyScore_of_not_mem hmem] at h
    contradiction

theorem isSome_greedyScore :
    (greedyScore streak needle text).isSome = true ↔ needle.Sublist text := by
  induction needle generalizing text streak with
  | nil => simp [greedyScore]
  | cons c needle ih =>
    by_cases hmem : c ∈ text
    · obtain ⟨skipped, rest, rfl, hc⟩ := List.eq_append_cons_of_mem hmem
      rw [greedyScore_append_cons hc, Option.isSome_map, ih, cons_sublist_append_cons hc]
    · rw [greedyScore_of_not_mem hmem]
      constructor
      · intro h
        contradiction
      · intro h
        exact absurd (h.subset (by simp)) hmem

theorem exists_leftmost_of_greedyScore (h : greedyScore streak needle text = some s) :
    ∃ places, Leftmost needle text places ∧ s = gain streak 0 places := by
  induction needle generalizing text streak s with
  | nil =>
    obtain rfl : 0 = s := Option.some.inj h
    exact ⟨[], leftmost_nil text, rfl⟩
  | cons c needle ih =>
    obtain ⟨skipped, rest, s', hc, rfl, hs', rfl⟩ := exists_append_of_greedyScore h
    obtain ⟨places, hplaces, rfl⟩ := ih hs'
    refine ⟨_, hplaces.cons hc, ?_⟩
    have hmoved (streak : Nat) : gain streak (skipped.length + 1)
        (places.map (· + (skipped.length + 1))) = gain streak 0 places := by
      simpa using gain_map_add streak 0 (skipped.length + 1) places
    simp only [gain, List.length_eq_zero_iff, hmoved]

theorem greedyScore_bounds (h : greedyScore streak needle text = some s) :
    needle.length ≤ s ∧ s ≤ needle.length * streak + runWorth needle.length := by
  induction needle generalizing text streak s with
  | nil =>
    obtain rfl : 0 = s := Option.some.inj h
    exact ⟨Nat.le_refl 0, Nat.zero_le _⟩
  | cons c needle ih =>
    obtain ⟨skipped, rest, s', hc, rfl, hs', rfl⟩ := exists_append_of_greedyScore h
    obtain ⟨hlower, hupper⟩ := ih hs'
    have hstreak : (if skipped = [] then streak + 1 else 1) ≤ streak + 1 := by
      split <;> omega
    have hpos : 1 ≤ if skipped = [] then streak + 1 else 1 := by
      split <;> omega
    have hmul := Nat.mul_le_mul_left needle.length hstreak
    rw [List.length_cons, runWorth_succ, Nat.succ_mul]
    rw [Nat.mul_succ] at hmul
    omega

theorem greedyScore_append (more : List Char) (h : greedyScore streak needle text = some s) :
    greedyScore streak needle (text ++ more) = some s := by
  induction needle generalizing text streak s with
  | nil => exact h
  | cons c needle ih =>
    obtain ⟨skipped, rest, s', hc, rfl, hs', rfl⟩ := exists_append_of_greedyScore h
    rw [List.append_assoc, List.cons_append, greedyScore_append_cons hc, ih hs']
    rfl

/-- A needle has a score in a text if it is a subsequence there, upper and lower case taken as `fold`
says. The score is what the runs of neighbours in the leftmost embedding are worth, and what follows
the text does not change it. -/
theorem scoreWith_eq_some_iff (fold : Char → List Char) (needle text : List Char) :
    ((scoreWith fold needle text).isSome = true ↔
      (needle.flatMap fold).Sublist (text.flatMap fold)) ∧
    (∀ s, scoreWith fold needle text = some s ↔
      ∃ places, Leftmost (needle.flatMap fold) (text.flatMap fold) places ∧ s = worth places) ∧
    (∀ s, scoreWith fold needle text = some s → (needle.flatMap fold).length ≤ s ∧
      s ≤ (needle.flatMap fold).length * ((needle.flatMap fold).length + 1) / 2) ∧
    ∀ s more, scoreWith fold needle text = some s → scoreWith fold needle (text ++ more) = some s := by
  refine ⟨isSome_greedyScore, fun s => ⟨fun h => ?_, ?_⟩, fun s h => ?_, fun s more h => ?_⟩
  · obtain ⟨places, hplaces, rfl⟩ := exists_leftmost_of_greedyScore h
    exact ⟨places, hplaces, gain_zero places⟩
  · rintro ⟨places, hplaces, rfl⟩
    have hsome : (greedyScore 0 (needle.flatMap fold) (text.flatMap fold)).isSome = true :=
      isSome_greedyScore.2 hplaces.toEmbeds.sublist
    obtain ⟨s, hs⟩ := Option.isSome_iff_exists.1 hsome
    obtain ⟨others, hothers, rfl⟩ := exists_leftmost_of_greedyScore hs
    rw [hplaces.eq hothers, ← gain_zero]
    exact hs
  · simpa [runWorth] using greedyScore_bounds h
  · rw [scoreWith, List.flatMap_append]
    exact greedyScore_append (more.flatMap fold) h

theorem scoreWith_eq_some_iff_runs : score "ABC" "a-bc" = some 4 ∧ worth [0, 2, 3] = 4 ∧
    score "ABC" "a-bc abc" = some 4 := by
  have h : score "ABC" "a-bc" = some 4 := by decide
  exact ⟨h, by decide, (scoreWith_eq_some_iff Text.lowerChar _ _).2.2.2 4 " abc".toList h⟩

end TaskMarkup
