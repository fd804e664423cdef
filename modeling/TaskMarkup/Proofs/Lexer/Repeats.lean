import TaskMarkup.Proofs.Lexer.Position
import TaskMarkup.Proofs.Token.Scanning

namespace TaskMarkup

theorem Tag.utf8Size_of_char? {tag : Tag} {c : Char} (h : tag.char? = some c) : c.utf8Size = 1 := by
  cases tag <;> simp only [Tag.char?, Option.some.injEq, reduceCtorEq] at h <;> subst h <;> decide

def Token.run (t : Token) (ts : List Token) : List Token := ts.takeWhile fun u => u.tag == t.tag

namespace Token

variable {t : Token} {ts : List Token}

theorem run_cons_self (t : Token) (ts : List Token) : t.run (t :: ts) = t :: t.run ts := by
  simp [run]

theorem length_run_le (t : Token) (ts : List Token) : (t.run ts).length ≤ ts.length :=
  (List.takeWhile_prefix _).length_le

theorem length_takeWhile_texts {tag : Tag} {c : Char} (hc : tag.char? = some c)
    (hts : ∀ u ∈ ts, u.Spelled) : ((texts ts).takeWhile (· == c)).length =
      (ts.takeWhile fun u => u.tag == tag).length := by
  induction ts with
  | nil => rfl
  | cons u ts ih =>
    have hu := hts u (by simp)
    by_cases htag : u.tag = tag
    · have hx := hu.text_of_char? (htag ▸ hc)
      simp [hx, htag, ih fun v hv => hts v (by simp [hv])]
    · cases hx : u.text with
      | nil => exact absurd hx hu.text_ne_nil
      | cons d ds =>
        have hd : d ≠ c := by
          rintro rfl
          exact htag (hu.tag_of_head? (by rw [hx]; rfl) hc)
        simp [hx, hd, htag]

theorem le_length_run {tag : Tag} {n : Nat} (h : List.replicate n tag <+: ts.map Token.tag)
    (ht : t.tag = tag) : n ≤ (t.run ts).length := by
  subst ht
  obtain ⟨us, hus⟩ := h
  have hrun := congrArg (List.takeWhile fun tag => tag == t.tag) hus
  rw [List.takeWhile_append_of_pos (by simp), List.takeWhile_map] at hrun
  have := congrArg List.length hrun
  simp only [List.length_append, List.length_replicate, List.length_map, Function.comp_def] at this
  rw [run]
  omega

theorem texts_run {c : Char} (hc : t.tag.char? = some c) (hts : ∀ u ∈ ts, u.Spelled) :
    texts (t.run ts) = List.replicate (t.run ts).length c := by
  have htag : ∀ u ∈ t.run ts, u.tag = t.tag ∧ u.Spelled := fun u hu =>
    ⟨by simpa [run] using List.mem_takeWhile_imp hu,
      hts u ((List.takeWhile_prefix _).subset hu)⟩
  generalize t.run ts = us at htag
  induction us with
  | nil => rfl
  | cons u us ih =>
    obtain ⟨hu, hspell⟩ := htag u (by simp)
    rw [texts_cons, hspell.text_of_char? (hu ▸ hc), ih fun v hv => htag v (by simp [hv])]
    rfl

theorem Spelled.joins_eq_true {u : Token} (ht : t.Spelled) (hu : u.Spelled) (hc : t.tag.char? = none)
    (htag : u.tag = t.tag) : ∀ a ∈ t.text, ∀ b ∈ u.text, Text.joins a b = true := by
  intro a ha b hb
  cases ht with
  | reserved hd _ => simp [Tag.ofChar?_eq_some_iff, hc] at hd
  | spaces hspaces _ hall =>
    have hb : b = ' ' := by
      by_contra hb
      cases hu with
      | reserved hd _ => simp [Tag.ofChar?_eq_some_iff, htag, hc] at hd
      | spaces _ _ hall' => exact hb (hall' b ‹_›)
      | plain hplain _ _ _ => simp [htag, hspaces] at hplain
    rw [hall a ha, hb]
    rfl
  | plain hplain _ hall _ =>
    have hb : Text.isPlain b = true := by
      cases hu with
      | reserved hd _ => simp [Tag.ofChar?_eq_some_iff, htag, hc] at hd
      | spaces hspaces _ _ => simp [← htag, hspaces] at hplain
      | plain _ _ hall' _ => exact hall' b hb
    simp [Text.joins, hall a ha, hb]

theorem run_eq_singleton {cs : List Char} {before after : List Token}
    (h : tokenize cs = before ++ t :: after) (hc : t.tag.char? = none) :
    t.run (t :: after) = [t] := by
  rw [run_cons_self]
  cases after with
  | nil => rfl
  | cons u after =>
    have ht : t.Spelled := spelled_of_mem_tokenize (by rw [h]; simp)
    have hu : u.Spelled := spelled_of_mem_tokenize (by rw [h]; simp)
    have hne : u.tag ≠ t.tag := by
      intro htag
      obtain ⟨a, ha⟩ := Option.ne_none_iff_exists'.1 (mt List.getLast?_eq_none_iff.1 ht.text_ne_nil)
      obtain ⟨b, hb⟩ := Option.ne_none_iff_exists'.1 (mt List.head?_eq_none_iff.1 hu.text_ne_nil)
      have hapart := joins_eq_false_of_tokenize_eq_append (h.trans (List.append_cons before t _))
        a (by simp [List.getLast?_append, ha]) b (by simp [List.head?_append, hb])
      rw [ht.joins_eq_true hu hc htag a (List.mem_of_getLast? ha) b (List.mem_of_head? hb)] at hapart
      contradiction
    rw [run, List.takeWhile_cons_of_neg (by simpa using hne)]

theorem exists_run_append (t : Token) (ts : List Token) :
    ∃ rest, ts = t.run ts ++ rest ∧ ∀ u ∈ rest.head?, u.tag ≠ t.tag := by
  refine ⟨ts.dropWhile fun u => u.tag == t.tag, List.takeWhile_append_dropWhile.symm, ?_⟩
  intro u hu htag
  have hnot := List.head?_dropWhile_not (fun u : Token => u.tag == t.tag) ts
  rw [Option.mem_def.1 hu] at hnot
  simp [htag] at hnot

theorem Spelled.size_of_char? {c : Char} (h : t.Spelled) (hc : t.tag.char? = some c) : t.size = 1 := by
  simp [size, h.text_of_char? hc, Tag.utf8Size_of_char? hc]

end Token

variable {ε σ : Type} {F : Fault → Prop} {E : ε → Lexer σ → Prop} {s : Lexer σ} {t : Token}
  {before after : List Token}

theorem Source.repeats_of_tokenize {src : Source} (h : tokenize src.chars = before ++ t :: after)
    {c : Char} (hc : t.tag.char? = some c) :
    src.repeats c t.start = (t.run (t :: after)).length := by
  obtain ⟨hchars, -, -⟩ := tokenize_eq_append h
  have hspelled : ∀ u ∈ t :: after, u.Spelled := fun u hu =>
    spelled_of_mem_tokenize (h ▸ List.mem_append_right before hu)
  rw [Source.repeats, start_of_tokenize_eq_append h, Source.fromOffset_of_append hchars,
    Token.length_takeWhile_texts hc hspelled, Token.run]

theorem Lexer.Sound.repeats (hs : s.Sound) {tok : Token} {rest : List Token} {c : Char}
    (hp : s.pending = tok :: rest) (hc : tok.tag.char? = some c) :
    s.source.repeats c tok.start = (tok.run s.pending).length := by
  obtain ⟨past, hpast⟩ := hs.pending
  rw [hp] at hpast
  rw [Source.repeats_of_tokenize hpast hc, hp]

theorem Rule.Ends.repeats {tok : Token} {rest : List Token} {c : Char} (hs : s.Sound)
    (hp : s.pending = tok :: rest) (hc : tok.tag.char? = some c) :
    Rule.Ends F (Rule.repeats tok) s (fun n t => t = s ∧ n = (tok.run s.pending).length) E := by
  have hsize : tok.size = 1 := (hs.spelled (by simp [hp])).size_of_char? hc
  unfold Rule.repeats
  simp only [hc, hsize, if_true]
  exact bind (get (pure ⟨rfl, hs.repeats hp hc⟩))

theorem Rule.repeats_eq_ok (h : tokenize s.source.chars = before ++ t :: after) :
    (Rule.repeats t : Rule ε σ Nat) s = .ok (t.run (t :: after)).length s := by
  unfold Rule.repeats
  cases hc : t.tag.char? with
  | none =>
    rw [Token.run_eq_singleton h hc]
    rfl
  | some c =>
    have hspelled : t.Spelled := spelled_of_mem_tokenize (by rw [h]; simp)
    simp only [hspelled.size_of_char? hc, if_true]
    rw [← Source.repeats_of_tokenize h hc]
    rfl

variable [Observer σ]

theorem Rule.eatMany_eq_error (hlimit : s.limit ≤ s.peeks + 1) (n : Nat) :
    (Rule.eatMany (n + 1) : Rule ε σ Unit) s =
      .error (.fault (.stalled (s.peeks + 1) s.nextOffset)) { s with peeks := s.peeks + 1 } := by
  have hpeek : (Rule.peek 0 : Rule ε σ Token) s =
      .error (.fault (.stalled (s.peeks + 1) s.nextOffset)) { s with peeks := s.peeks + 1 } := by
    rw [Rule.peek, if_neg (by decide)]
    exact if_pos hlimit
  simp only [Rule.eatMany, Rule.eat, Bind.bind, EStateM.bind, hpeek]

/-- A token is counted in the text as often as tokens of its tag stand in a row from it on, and only once
if its tag stands for no character. A lexer before it that has a look left eats just these when it eats as
many; one that has none stops before it eats any. -/
theorem Rule.repeats_eq_length_run (s : Lexer σ) (before after : List Token) (t : Token)
    (h : tokenize s.source.chars = before ++ t :: after) :
    (Rule.repeats t : Rule ε σ Nat) s = .ok (t.run (t :: after)).length s ∧
      (t.tag.char? = none → t.run (t :: after) = [t]) ∧
      (s.Sound → s.pending = t :: after →
        (s.peeks + 1 < s.limit →
          ∃ s', (Rule.repeats t >>= Rule.eatMany : Rule ε σ Unit) s = .ok () s' ∧
            s.Passed (t.run (t :: after)) s' ∧ ∀ u ∈ s'.pending.head?, u.tag ≠ t.tag) ∧
        (s.limit ≤ s.peeks + 1 →
          (Rule.repeats t >>= Rule.eatMany : Rule ε σ Unit) s =
            .error (.fault (.stalled (s.peeks + 1) t.start)) { s with peeks := s.peeks + 1 })) := by
  refine ⟨repeats_eq_ok h, Token.run_eq_singleton h, fun hs hp => ⟨fun hlimit => ?_, fun hlimit => ?_⟩⟩
  · obtain ⟨rest, hrun, hrest⟩ := Token.exists_run_append t (t :: after)
    have heat := Ends.passMany (F := fun _ => False) (E := fun (_ : ε) _ => False) hs (hp.trans hrun)
      (.inr hlimit)
    obtain ⟨_, s', hs', hpassed, -⟩ := heat.exists_ok fun _ _ => id
    have hpending : s'.pending = rest :=
      List.append_cancel_left (hpassed.pending.symm.trans (hp.trans hrun))
    exact ⟨s', (bind_of_ok (repeats_eq_ok h)).trans hs', hpassed, hpending ▸ hrest⟩
  · have hlen : (t.run (t :: after)).length = (t.run after).length + 1 := by
      rw [Token.run_cons_self, List.length_cons]
    rw [bind_of_ok (repeats_eq_ok h), hlen, eatMany_eq_error hlimit, hs.start_of_cons hp]

theorem Rule.repeats_eq_length_run_hashes :
    let s (limit : Nat) := Lexer.start (Source.ofString "###a#") limit ()
    let hash (n : Nat) : Token := ⟨.hash, n, ['#']⟩
    let after := [hash 1, hash 2, ⟨.word, 3, ['a']⟩, hash 4]
    let eatRun : Rule Empty Unit Unit := Rule.repeats (hash 0) >>= Rule.eatMany
    (∀ limit, tokenize (s limit).source.chars = [] ++ hash 0 :: after ∧ (s limit).Sound ∧
      (s limit).pending = hash 0 :: after) ∧
      (s 2).peeks + 1 < (s 2).limit ∧ (s 1).limit ≤ (s 1).peeks + 1 ∧
      (∃ s', eatRun (s 2) = .ok () s' ∧ (s 2).Passed [hash 0, hash 1, hash 2] s' ∧
        ∀ u ∈ s'.pending.head?, u.tag ≠ .hash) ∧
      eatRun (s 1) = .error (.fault (.stalled 1 0)) { s 1 with peeks := 1 } := by
  intro s hash after eatRun
  have h : ∀ limit, tokenize (s limit).source.chars = [] ++ hash 0 :: after := fun limit => by
    change tokenize "###a#".toList = _
    decide +kernel
  have hs : ∀ limit, (s limit).Sound := fun limit => Lexer.start_sound ..
  have hp : ∀ limit, (s limit).pending = hash 0 :: after := fun limit =>
    (Lexer.pending_start ..).trans (h limit)
  have hlook : (s 2).peeks + 1 < (s 2).limit := by decide
  have hnone : (s 1).limit ≤ (s 1).peeks + 1 := by decide
  exact ⟨fun limit => ⟨h limit, hs limit, hp limit⟩, hlook, hnone,
    ((repeats_eq_length_run (s 2) [] after (hash 0) (h 2)).2.2 (hs 2) (hp 2)).1 hlook,
    ((repeats_eq_length_run (s 1) [] after (hash 0) (h 1)).2.2 (hs 1) (hp 1)).2 hnone⟩

end TaskMarkup
