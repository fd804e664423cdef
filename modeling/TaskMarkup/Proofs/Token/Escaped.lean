import TaskMarkup.Proofs.Token.Spelling

namespace TaskMarkup

namespace Text

variable {special : Char → Bool} {c : Char} {cs xs ys : List Char}

def shield (special : Char → Bool) (cs : List Char) : List Char :=
  cs.flatMap fun c => if special c then ['\\', c] else [c]

@[simp] theorem shield_nil : shield special [] = [] := rfl

theorem shield_cons_of_special (h : special c = true) (cs : List Char) :
    shield special (c :: cs) = '\\' :: c :: shield special cs := by
  simp [shield, h]

theorem shield_cons_of_plain (h : special c = false) (cs : List Char) :
    shield special (c :: cs) = c :: shield special cs := by
  simp [shield, h]

theorem getLast?_shield (cs : List Char) : (shield special cs).getLast? = cs.getLast? := by
  induction cs using List.reverseRecOn with
  | nil => rfl
  | append_singleton cs c _ =>
    rw [shield, List.flatMap_append, List.flatMap_singleton, List.getLast?_concat]
    split
    · rw [List.getLast?_append_cons]
      rfl
    · exact List.getLast?_concat

theorem eq_append_of_shield (hxs : ∀ c ∈ xs, special c = false) (hback : special '\\' = true)
    (h : xs ++ ys = shield special cs) : ∃ rest, cs = xs ++ rest ∧ ys = shield special rest := by
  induction xs generalizing cs with
  | nil => exact ⟨cs, rfl, h⟩
  | cons x xs ih =>
    have hx := hxs x (by simp)
    cases cs with
    | nil => simp at h
    | cons c cs =>
      cases hc : special c with
      | true =>
        rw [shield_cons_of_special hc, List.cons_append, List.cons.injEq] at h
        rw [h.1, hback] at hx
        contradiction
      | false =>
        rw [shield_cons_of_plain hc, List.cons_append, List.cons.injEq] at h
        obtain ⟨rest, hcs, hys⟩ := ih (fun d hd => hxs d (by simp [hd])) h.2
        exact ⟨rest, by rw [h.1, hcs]; rfl, hys⟩

theorem shield_ne_cons (h : special c = true) (hc : c ≠ '\\') : shield special cs ≠ c :: ys := by
  intro heq
  cases cs with
  | nil => simp at heq
  | cons d cs =>
    cases hd : special d with
    | true =>
      rw [shield_cons_of_special hd, List.cons.injEq] at heq
      exact hc heq.1.symm
    | false =>
      rw [shield_cons_of_plain hd, List.cons.injEq] at heq
      rw [heq.1, h] at hd
      contradiction

end Text

namespace Token

theorem Spelled.eq_of_mem {t : Token} (h : t.Spelled) {c d : Char} (hc : c ∈ t.text)
    (hd : d ∈ t.text) (hapart : Text.isPlain c = false) : d = c := by
  cases h with
  | reserved _ htext =>
    rw [htext, List.mem_singleton] at hc hd
    rw [hc, hd]
  | spaces _ _ hall => rw [hall c hc, hall d hd]
  | plain _ _ hall _ => simp [hall c hc] at hapart

inductive Shields (special : Char → Bool) : List Token → List Char → Prop
  | nil : Shields special [] []
  | plain {t : Token} {ts : List Token} {cs : List Char} : t.Spelled →
      (∀ c ∈ t.text, special c = false) → Shields special ts cs →
      Shields special (t :: ts) (t.text ++ cs)
  | escaped {back t : Token} {c : Char} {ts : List Token} {cs : List Char} :
      back.tag = .backslash → t.Spelled → t.text = [c] → special c = true →
      Shields special ts cs → Shields special (back :: t :: ts) (c :: cs)

variable {special : Char → Bool}

theorem exists_escaped (hspecial : ∀ c, special c = true → Text.isPlain c = false)
    {ts : List Token} (hts : ∀ t ∈ ts, t.Spelled) {c : Char} {cs : List Char}
    (hc : special c = true) (h : texts ts = c :: Text.shield special cs) :
    ∃ t us, ts = t :: us ∧ t.text = [c] ∧ texts us = Text.shield special cs := by
  cases ts with
  | nil => exact absurd h.symm (List.cons_ne_nil _ _)
  | cons t us =>
    have ht := hts t (by simp)
    obtain ⟨x, xs, hx⟩ := List.exists_cons_of_ne_nil ht.text_ne_nil
    rw [texts_cons, hx, List.cons_append, List.cons.injEq] at h
    obtain ⟨rfl, h⟩ := h
    -- More of the same would be special and without a backslash.
    cases xs with
    | nil => exact ⟨t, us, rfl, hx, h⟩
    | cons y ys =>
      have hy : y = x := ht.eq_of_mem (by simp [hx]) (by simp [hx]) (hspecial x hc)
      subst hy
      by_cases hback : y = '\\'
      · subst hback
        have htag : t.tag = .backslash := ht.tag_of_head? (by rw [hx]; rfl) rfl
        have := ht.text_of_char? (c := '\\') (by rw [htag]; rfl)
        simp [hx] at this
      · exact absurd h.symm (Text.shield_ne_cons hc hback)

theorem shields_of_texts (hback : special '\\' = true)
    (hspecial : ∀ c, special c = true → Text.isPlain c = false) {ts : List Token}
    (hts : ∀ t ∈ ts, t.Spelled) {cs : List Char} (h : texts ts = Text.shield special cs) :
    Shields special ts cs := by
  -- On the number of tokens: a backslash goes with the token behind it.
  induction hlength : ts.length using Nat.strong_induction_on generalizing ts cs with
  | _ n ih =>
    cases ts with
    | nil =>
      cases cs with
      | nil => exact .nil
      | cons c cs =>
        cases hc : special c with
        | true =>
          rw [texts_nil, Text.shield_cons_of_special hc] at h
          contradiction
        | false =>
          rw [texts_nil, Text.shield_cons_of_plain hc] at h
          contradiction
    | cons t ts =>
      have ht := hts t (by simp)
      have hrest : ∀ u ∈ ts, u.Spelled := fun u hu => hts u (by simp [hu])
      rw [texts_cons] at h
      rw [List.length_cons] at hlength
      by_cases hplain : ∀ c ∈ t.text, special c = false
      · obtain ⟨rest, rfl, hbehind⟩ := Text.eq_append_of_shield hplain hback h
        exact .plain ht hplain (ih ts.length (by omega) hrest hbehind rfl)
      · -- Some character is special, so all of them are, and the first can only be a backslash.
        obtain ⟨c, hc, hsc⟩ : ∃ c ∈ t.text, special c = true := by simpa using hplain
        obtain ⟨x, xs, hx⟩ := List.exists_cons_of_ne_nil ht.text_ne_nil
        have hxc : x = c := ht.eq_of_mem hc (by simp [hx]) (hspecial c hsc)
        rw [hx, List.cons_append] at h
        obtain rfl : x = '\\' := by
          by_contra hne
          exact Text.shield_ne_cons (hxc ▸ hsc) hne h.symm
        have htag : t.tag = .backslash := ht.tag_of_head? (by simp [hx]) rfl
        have htext := ht.text_of_char? (c := '\\') (by rw [htag]; rfl)
        obtain rfl : xs = [] := by simpa [hx] using htext
        cases cs with
        | nil => simp at h
        | cons d cs =>
          cases hd : special d with
          | false =>
            rw [Text.shield_cons_of_plain hd, List.cons.injEq] at h
            rw [← h.1, hback] at hd
            contradiction
          | true =>
            rw [Text.shield_cons_of_special hd, List.cons.injEq, List.nil_append] at h
            obtain ⟨u, us, rfl, hu, hbehind⟩ := exists_escaped hspecial hrest hd h.2
            rw [List.length_cons] at hlength
            exact .escaped htag (hrest u (by simp)) hu hd (ih us.length (by omega)
              (fun v hv => hrest v (by simp [hv])) hbehind rfl)

end Token

end TaskMarkup
