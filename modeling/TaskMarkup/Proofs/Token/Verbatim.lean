import TaskMarkup.Proofs.Token.Escaped

namespace TaskMarkup

namespace Text

def isReserved (c : Char) : Bool := (Tag.ofChar? c).isSome

def escapeLine (line : List Char) : List Char :=
  if line.head? = some ' ' then '\\' :: shield isReserved line else shield isReserved line

variable {special : Char → Bool} {c : Char} {cs : List Char}

theorem mem_shield (h : c ∈ shield special cs) : c = '\\' ∨ c ∈ cs := by
  obtain ⟨d, hd, hc⟩ := List.mem_flatMap.1 h
  split at hc
  · rcases List.mem_cons.1 hc with rfl | hc
    · exact .inl rfl
    · exact .inr (List.mem_singleton.1 hc ▸ hd)
  · exact .inr (List.mem_singleton.1 hc ▸ hd)

theorem newline_not_mem_escapeLine (h : '\n' ∉ cs) : '\n' ∉ escapeLine cs := by
  have hshield : '\n' ∉ shield isReserved cs := fun hmem =>
    (mem_shield hmem).elim (by decide) h
  unfold escapeLine
  split
  · exact fun hmem => (List.mem_cons.1 hmem).elim (by decide) hshield
  · exact hshield

theorem isPlain_of_isReserved (h : isReserved c = true) : isPlain c = false := by
  simp [isPlain, Option.isNone_eq_false_iff.2 h]

end Text

def Tag.isBare : Tag → Bool
  | .spaces | .number | .word => true
  | _ => false

namespace Token

def Begins (ts : List Token) : Prop :=
  ∃ t rest, ts = t :: rest ∧ (t.tag = .backslash ∨ t.tag = .number ∨ t.tag = .word)

/-- Tokens without markup, and the text that they stand for. A newline goes on with a line that is
neither blank nor indented. -/
inductive Verbatim : List Token → List Char → Prop
  | nil : Verbatim [] []
  | bare {t : Token} {ts : List Token} {cs : List Char} : t.tag.isBare = true → Verbatim ts cs →
      Verbatim (t :: ts) (t.text ++ cs)
  | escaped {back t : Token} {ts : List Token} {cs : List Char} : back.tag = .backslash →
      t.tag.endsLine = false → Verbatim ts cs → Verbatim (back :: t :: ts) (t.text ++ cs)
  | newline {nl : Token} {ts : List Token} {cs : List Char} : nl.tag = .newline → Begins ts →
      Verbatim ts cs → Verbatim (nl :: ts) ('\n' :: cs)

variable {ts us : List Token} {t : Token} {cs ds : List Char}

theorem Verbatim.head_ne_dot (h : Verbatim ts cs) : ∀ t ∈ ts.head?, t.tag ≠ .dot := by
  rintro t ht hdot
  cases h with
  | nil => simp at ht
  | bare hbare =>
    obtain rfl := Option.some.inj ht
    simp [hdot, Tag.isBare] at hbare
  | escaped hback =>
    obtain rfl := Option.some.inj ht
    simp [hback] at hdot
  | newline hnl =>
    obtain rfl := Option.some.inj ht
    simp [hnl] at hdot

theorem Verbatim.ne_nil (h : Verbatim ts cs) (hts : ∀ t ∈ ts, t.Spelled) (hne : ts ≠ []) :
    cs ≠ [] := by
  cases h with
  | nil => exact absurd rfl hne
  | bare => exact List.append_ne_nil_of_left_ne_nil (hts _ (by simp)).text_ne_nil _
  | escaped => exact List.append_ne_nil_of_left_ne_nil (hts _ (by simp)).text_ne_nil _
  | newline => exact List.cons_ne_nil _ _

theorem Verbatim.append_newline {nl : Token} (h : Verbatim ts cs) (hnl : nl.tag = .newline)
    (hbegins : Begins us) (hus : Verbatim us ds) :
    Verbatim (ts ++ nl :: us) (cs ++ '\n' :: ds) := by
  induction h with
  | nil => exact .newline hnl hbegins hus
  | bare hbare _ ih =>
    rw [List.append_assoc]
    exact .bare hbare ih
  | escaped hback hline _ ih =>
    rw [List.append_assoc]
    exact .escaped hback hline ih
  | newline hnl' hts _ ih =>
    obtain ⟨t, rest, rfl, ht⟩ := hts
    exact .newline hnl' ⟨t, _, rfl, ht⟩ ih

theorem Spelled.isBare (h : t.Spelled) (hplain : ∀ c ∈ t.text, Text.isReserved c = false) :
    t.tag.isBare = true := by
  cases h with
  | reserved hc htext =>
    have := hplain _ (by rw [htext]; exact List.mem_singleton_self _)
    simp [Text.isReserved, hc] at this
  | spaces htag => rw [htag]; rfl
  | plain htag => rcases htag with htag | htag <;> rw [htag] <;> rfl

theorem Shields.verbatim (h : Shields Text.isReserved ts cs) (hcs : '\n' ∉ cs) :
    Verbatim ts cs := by
  induction h with
  | nil => exact .nil
  | plain ht hplain _ ih =>
    rw [List.mem_append, not_or] at hcs
    exact .bare (ht.isBare hplain) (ih hcs.2)
  | @escaped back t c ts cs hback ht htext _ _ ih =>
    rw [List.mem_cons, not_or] at hcs
    have hline : t.tag.endsLine = false := ht.endsLine_eq_false (by simpa [htext] using hcs.1)
    have := Verbatim.escaped hback hline (ih hcs.2)
    rwa [htext] at this

theorem Verbatim.begins (h : Verbatim ts cs) (hts : ∀ t ∈ ts, t.Spelled) (hne : cs ≠ [])
    (hspace : cs.head? ≠ some ' ') (hline : '\n' ∉ cs) : Begins ts := by
  cases h with
  | nil => exact absurd rfl hne
  | @bare t ts cs hbare =>
    refine ⟨t, ts, rfl, ?_⟩
    have hspelled := hts t (by simp)
    cases hspelled with
    | reserved hc =>
      rw [Tag.ofChar?_eq_some_iff] at hc
      cases htag : t.tag <;> simp [htag, Tag.isBare, Tag.char?] at hbare hc
    | spaces _ htext hall =>
      obtain ⟨c, rest, hc⟩ := List.exists_cons_of_ne_nil htext
      have := hall c (by simp [hc])
      simp [hc, this] at hspace
    | plain htag => exact .inr htag
  | escaped hback => exact ⟨_, _, rfl, .inl hback⟩
  | newline => simp at hline

theorem Shields.verbatim_escaped {back : Token} (h : Shields Text.isReserved ts cs)
    (hback : back.tag = .backslash) (hspace : cs.head? = some ' ') (hline : '\n' ∉ cs) :
    Verbatim (back :: ts) cs := by
  cases h with
  | nil => simp at hspace
  | plain ht _ hrest =>
    rw [List.mem_append, not_or] at hline
    exact .escaped hback (ht.endsLine_eq_false hline.1) (hrest.verbatim hline.2)
  | escaped _ _ _ hreserved =>
    obtain rfl := Option.some.inj hspace
    exact absurd hreserved (by decide)

theorem verbatim_line (hts : ∀ t ∈ ts, t.Spelled) (hne : cs ≠ []) (hline : '\n' ∉ cs)
    (h : texts ts = Text.escapeLine cs) : Verbatim ts cs ∧ Begins ts := by
  have hshields {us : List Token} (hus : ∀ t ∈ us, t.Spelled)
      (h : texts us = Text.shield Text.isReserved cs) : Shields Text.isReserved us cs :=
    shields_of_texts rfl (fun _ => Text.isPlain_of_isReserved) hus h
  unfold Text.escapeLine at h
  split at h
  · next hspace =>
    obtain ⟨back, ts, rfl, htag, hrest⟩ :=
      exists_cons_of_char? hts (show Tag.backslash.char? = some '\\' from rfl) h
    have hverb := (hshields (fun t ht => hts t (by simp [ht])) hrest).verbatim_escaped htag hspace
      hline
    exact ⟨hverb, back, ts, rfl, .inl htag⟩
  · next hspace =>
    have hverb := (hshields hts h).verbatim hline
    exact ⟨hverb, hverb.begins hts hne hspace hline⟩

theorem exists_split_newline (hts : ∀ t ∈ ts, t.Spelled) (hcs : '\n' ∉ cs)
    (h : texts ts = cs ++ '\n' :: ds) :
    ∃ us nl vs, ts = us ++ nl :: vs ∧ nl.tag = .newline ∧ texts us = cs ∧ texts vs = ds := by
  induction ts generalizing cs with
  | nil => simp at h
  | cons t ts ih =>
    have ht := hts t (by simp)
    by_cases htag : t.tag = .newline
    · have htext := ht.text_of_char? (c := '\n') (by rw [htag]; rfl)
      rw [texts_cons, htext, List.singleton_append] at h
      cases cs with
      | nil => exact ⟨[], t, ts, rfl, htag, rfl, (List.cons.inj h).2⟩
      | cons c cs => exact absurd (List.mem_cons.2 (.inl (List.cons.inj h).1)) hcs
    · have hnot := ht.newline_not_mem htag
      obtain ⟨rest, rfl, hrest⟩ : ∃ rest, cs = t.text ++ rest ∧ texts ts = rest ++ '\n' :: ds := by
        rw [texts_cons] at h
        rcases List.append_eq_append_iff.1 h with ⟨rest, hc, hrest⟩ | ⟨rest, htext, hrest⟩
        · exact ⟨rest, hc, hrest⟩
        · cases rest with
          | nil => exact ⟨[], by simpa using htext.symm, by simpa using hrest.symm⟩
          | cons c rest =>
            obtain rfl : c = '\n' := (List.cons.inj hrest).1.symm
            exact absurd (by simp [htext]) hnot
      rw [List.mem_append, not_or] at hcs
      obtain ⟨us, nl, vs, rfl, hnl, hus, hvs⟩ := ih (fun u hu => hts u (by simp [hu])) hcs.2 hrest
      exact ⟨t :: us, nl, vs, rfl, hnl, by rw [texts_cons, hus], hvs⟩

theorem verbatim_lines {lines : List (List Char)} (hne : lines ≠ [])
    (hlines : ∀ line ∈ lines, line ≠ [] ∧ '\n' ∉ line) (hts : ∀ t ∈ ts, t.Spelled)
    (h : texts ts = ['\n'].intercalate (lines.map Text.escapeLine)) :
    Verbatim ts (['\n'].intercalate lines) ∧ Begins ts := by
  induction lines generalizing ts with
  | nil => exact absurd rfl hne
  | cons line lines ih =>
    obtain ⟨hnonempty, hline⟩ := hlines line (by simp)
    cases lines with
    | nil =>
      rw [List.map_singleton, List.intercalate_singleton] at h
      rw [List.intercalate_singleton]
      exact verbatim_line hts hnonempty hline h
    | cons next lines =>
      rw [List.map_cons, List.map_cons, List.intercalate_cons_cons, List.append_assoc,
        List.singleton_append, ← List.map_cons] at h
      obtain ⟨us, nl, vs, rfl, hnl, hus, hvs⟩ :=
        exists_split_newline hts (Text.newline_not_mem_escapeLine hline) h
      obtain ⟨hfirst, t, rest, rfl, ht⟩ :=
        verbatim_line (fun t ht => hts t (by simp [ht])) hnonempty hline hus
      obtain ⟨hrest, hbegins⟩ := ih (by simp) (fun l hl => hlines l (by simp [hl]))
        (fun t ht => hts t (by simp [ht])) hvs
      rw [List.intercalate_cons_cons, List.append_assoc, List.singleton_append]
      exact ⟨hfirst.append_newline hnl hbegins hrest, t, _, rfl, ht⟩

end Token

end TaskMarkup
