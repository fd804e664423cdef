import TaskMarkup.Source
import TaskMarkup.Token.Runs
import Mathlib.Data.List.SplitBy

namespace TaskMarkup

namespace Text

@[simp] theorem flatten_runs (cs : List Char) : (runs cs).flatten = cs :=
  List.flatten_splitBy _ _

theorem ne_nil_of_mem_runs {run cs : List Char} (h : run ∈ runs cs) : run ≠ [] :=
  List.ne_nil_of_mem_splitBy h

theorem runs_of_runs_eq_append {cs : List Char} {ra rb : List (List Char)}
    (h : runs cs = ra ++ rb) : runs ra.flatten = ra ∧ runs rb.flatten = rb := by
  obtain ⟨-, hn, hc, hc'⟩ := List.splitBy_eq_iff.1 h
  rw [List.isChain_append] at hc'
  constructor
  · exact List.splitBy_flatten (fun hm => hn (List.mem_append_left _ hm))
      (fun m hm => hc m (List.mem_append_left _ hm)) hc'.1
  · exact List.splitBy_flatten (fun hm => hn (List.mem_append_right _ hm))
      (fun m hm => hc m (List.mem_append_right _ hm)) hc'.2.1

theorem chain_of_mem_runs {run cs : List Char} (h : run ∈ runs cs) :
    run.IsChain fun a b => joins a b := List.isChain_of_mem_splitBy h

theorem eq_singleton_of_mem_runs {c : Char} {run cs : List Char} (h : c :: run ∈ runs cs)
    (hc : ∀ d, joins c d = false) : run = [] := by
  cases run with
  | nil => rfl
  | cons d run =>
    have := (List.isChain_cons_cons.1 (chain_of_mem_runs h)).1
    simp [hc d] at this

theorem ofChar?_space : Tag.ofChar? ' ' = none := by decide

theorem joins_eq_false_of_reserved {c : Char} {tag : Tag} (h : Tag.ofChar? c = some tag)
    (d : Char) : joins c d = false := by
  have hc : c ≠ ' ' := by
    rintro rfl
    simp [ofChar?_space] at h
  simp [joins, isPlain, h, hc]

end Text

namespace Token

def texts (ts : List Token) : List Char := (ts.map Token.text).flatten

@[simp] theorem texts_nil : texts [] = [] := rfl

@[simp] theorem texts_cons (t : Token) (ts : List Token) : texts (t :: ts) = t.text ++ texts ts :=
  rfl

@[simp] theorem texts_append (as bs : List Token) : texts (as ++ bs) = texts as ++ texts bs := by
  simp [texts]

@[simp] theorem texts_place (start : Nat) (rs : List (List Char)) :
    texts (place start rs) = rs.flatten := flatten_text_place start rs

def moved (offset : Nat) (t : Token) : Token := { t with start := t.start + offset }

@[simp] theorem moved_tag (offset : Nat) (t : Token) : (t.moved offset).tag = t.tag := rfl

@[simp] theorem moved_text (offset : Nat) (t : Token) : (t.moved offset).text = t.text := rfl

@[simp] theorem moved_start (offset : Nat) (t : Token) :
    (t.moved offset).start = t.start + offset := rfl

@[simp] theorem moved_size (offset : Nat) (t : Token) : (t.moved offset).size = t.size := rfl

@[simp] theorem moved_stop (offset : Nat) (t : Token) :
    (t.moved offset).stop = t.stop + offset := by
  simp only [stop, moved_start, moved_size]
  omega

@[simp] theorem moved_value? (offset : Nat) (t : Token) :
    (t.moved offset).value? = t.value? := rfl

theorem value?_map {f : Token → Token} (htag : ∀ t, (f t).tag = t.tag)
    (htext : ∀ t, (f t).text = t.text) (t : Token) : (f t).value? = t.value? := by
  rw [value?, value?, htag, htext]

@[simp] theorem texts_map_moved (offset : Nat) (ts : List Token) :
    texts (ts.map (moved offset)) = texts ts := by
  induction ts with
  | nil => rfl
  | cons t ts ih => simp [ih]

theorem place_moved (offset start : Nat) (rs : List (List Char)) :
    place (start + offset) rs = (place start rs).map (moved offset) := by
  induction rs generalizing start with
  | nil => rfl
  | cons run rs ih =>
    simp only [place, List.map_cons]
    rw [Nat.add_right_comm, ih]
    rfl

theorem place_append (start : Nat) (ra rb : List (List Char)) :
    place start (ra ++ rb) = place start ra ++ place (start + Text.byteSize ra.flatten) rb := by
  induction ra generalizing start with
  | nil => simp [place]
  | cons run ra ih => simp [place, ih, Nat.add_assoc]

theorem place_eq_append {start : Nat} {rs : List (List Char)} {as bs : List Token}
    (h : place start rs = as ++ bs) : ∃ ra rb, rs = ra ++ rb ∧ as = place start ra ∧
      bs = place (start + Text.byteSize ra.flatten) rb := by
  have hlen : (place start (rs.take as.length)).length = as.length := by
    have := congrArg List.length h
    simp only [length_place, List.length_append, List.length_take] at this ⊢
    omega
  rw [← List.take_append_drop as.length rs, place_append] at h
  obtain ⟨ha, hb⟩ := List.append_inj h hlen
  exact ⟨_, _, (List.take_append_drop ..).symm, ha.symm, hb.symm⟩

end Token

theorem tokenize_eq_append {cs : List Char} {as bs : List Token} (h : tokenize cs = as ++ bs) :
    cs = Token.texts as ++ Token.texts bs ∧ tokenize (Token.texts as) = as ∧
      bs = (tokenize (Token.texts bs)).map (Token.moved (Text.byteSize (Token.texts as))) := by
  obtain ⟨ra, rb, hr, rfl, rfl⟩ := Token.place_eq_append h
  obtain ⟨ha, hb⟩ := Text.runs_of_runs_eq_append hr
  refine ⟨?_, ?_, ?_⟩
  · rw [Token.texts_place, Token.texts_place, ← List.flatten_append, ← hr, Text.flatten_runs]
  · simp [tokenize, ha]
  · rw [Token.texts_place, Token.texts_place, tokenize, hb, ← Token.place_moved]

theorem eq_map_moved_of_tokenize {cs : List Char} {as ts bs : List Token}
    (h : tokenize cs = as ++ (ts ++ bs)) :
    ts = (tokenize (Token.texts ts)).map (Token.moved (Text.byteSize (Token.texts as))) := by
  obtain ⟨-, -, hmoved⟩ := tokenize_eq_append h
  obtain ⟨us, vs, hus, rfl, rfl⟩ := List.map_eq_append_iff.1 hmoved.symm
  obtain ⟨-, htokens, -⟩ := tokenize_eq_append hus
  rw [Token.texts_map_moved, htokens]

@[simp] theorem texts_tokenize (cs : List Char) : Token.texts (tokenize cs) = cs := by
  simp [tokenize]

theorem start_of_tokenize_eq_append {cs : List Char} {as bs : List Token} {t : Token}
    (h : tokenize cs = as ++ t :: bs) : t.start = Text.byteSize (Token.texts as) := by
  obtain ⟨ra, rb, -, rfl, hb⟩ := Token.place_eq_append h
  cases rb with
  | nil => simp [Token.place] at hb
  | cons run rb =>
    simp only [Token.place, List.cons.injEq] at hb
    simp [hb.1]

theorem stop_of_tokenize_eq_append {cs : List Char} {as bs : List Token} {t : Token}
    (h : tokenize cs = as ++ t :: bs) : t.stop = Text.byteSize (Token.texts (as ++ [t])) := by
  simp [Token.stop, Token.size, start_of_tokenize_eq_append h]

namespace Token

theorem mem_place {start : Nat} {rs : List (List Char)} {t : Token} (h : t ∈ place start rs) :
    t.text ∈ rs ∧ t.tag = Tag.ofRun t.text := by
  induction rs generalizing start with
  | nil => simp [place] at h
  | cons run rs ih =>
    rcases List.mem_cons.1 h with rfl | h
    · simp
    · exact ⟨List.mem_cons_of_mem _ (ih h).1, (ih h).2⟩

end Token

inductive Token.Spelled : Token → Prop
  | reserved {t : Token} {c : Char} : Tag.ofChar? c = some t.tag → t.text = [c] → Spelled t
  | spaces {t : Token} : t.tag = .spaces → t.text ≠ [] → (∀ c ∈ t.text, c = ' ') → Spelled t
  | plain {t : Token} : t.tag = .number ∨ t.tag = .word → t.text ≠ [] →
      (∀ c ∈ t.text, Text.isPlain c) → (t.tag = .number ↔ Text.isNumeral t.text) → Spelled t

theorem Text.all_of_joins {p : Char → Prop} {c : Char} {run : List Char}
    (h : (c :: run).IsChain fun a b => joins a b) (hc : p c)
    (hp : ∀ a b, p a → joins a b → p b) : ∀ d ∈ c :: run, p d := by
  induction run generalizing c with
  | nil => simpa using hc
  | cons d run ih =>
    obtain ⟨hj, hr⟩ := List.isChain_cons_cons.1 h
    intro e he
    rcases List.mem_cons.1 he with rfl | he
    · exact hc
    · exact ih hr (hp _ _ hc hj) e he

theorem spelled_of_mem_tokenize {cs : List Char} {t : Token} (h : t ∈ tokenize cs) :
    t.Spelled := by
  obtain ⟨hm, htag⟩ := Token.mem_place h
  obtain ⟨tag, start, text⟩ := t
  simp only at hm htag
  cases text with
  | nil => exact absurd rfl (Text.ne_nil_of_mem_runs hm)
  | cons c run =>
    have hchain := Text.chain_of_mem_runs hm
    simp only [Tag.ofRun, List.head?_cons] at htag
    cases hc : Tag.ofChar? c with
    | some tag' =>
      simp only [hc] at htag
      have := Text.eq_singleton_of_mem_runs hm (Text.joins_eq_false_of_reserved hc)
      exact .reserved (c := c) (by simp [hc, htag]) (by simp [this])
    | none =>
      simp only [hc] at htag
      by_cases hs : c = ' '
      · subst hs
        refine .spaces (by simpa using htag) (by simp) ?_
        refine Text.all_of_joins hchain rfl ?_
        rintro a b rfl hj
        simpa [Text.joins, Text.isPlain] using hj
      · have hp : Text.isPlain c := by simp [Text.isPlain, hs, hc]
        rw [if_neg hs] at htag
        refine .plain ?_ (by simp) ?_ ?_
        · simp only [htag]
          split <;> simp
        · refine Text.all_of_joins hchain hp ?_
          intro a b ha hj
          have : a ≠ ' ' := by rintro rfl; simp [Text.isPlain] at ha
          simpa [Text.joins, this, ha] using hj
        · simp only [htag]
          split <;> simp_all

theorem spelled_of_mem_place {cs : List Char} {start : Nat} {t : Token}
    (h : t ∈ Token.place start (Text.runs cs)) : t.Spelled := by
  rw [← Nat.zero_add start, Token.place_moved] at h
  obtain ⟨t, ht, rfl⟩ := List.mem_map.1 h
  cases spelled_of_mem_tokenize ht with
  | reserved hc htext => exact .reserved hc htext
  | spaces htag hne hall => exact .spaces htag hne hall
  | plain htag hne hall hnum => exact .plain htag hne hall hnum

namespace Token.Spelled

variable {t : Token}

theorem text_ne_nil (h : t.Spelled) : t.text ≠ [] := by
  cases h with
  | reserved _ ht => simp [ht]
  | spaces _ ht _ => exact ht
  | plain _ ht _ _ => exact ht

theorem size_pos (h : t.Spelled) : 0 < t.size := by
  have := mt Text.byteSize_eq_zero_iff.1 h.text_ne_nil
  simp only [Token.size]
  omega

theorem start_lt_stop (h : t.Spelled) : t.start < t.stop := by
  have := h.size_pos
  simp only [Token.stop]
  omega

theorem tag_ne_eof (h : t.Spelled) : t.tag ≠ .eof := by
  cases h with
  | reserved hc _ =>
    intro he
    simpa [he, Tag.char?] using Tag.ofChar?_eq_some_iff.1 hc
  | spaces ht _ _ => simp [ht]
  | plain ht _ _ _ => rcases ht with ht | ht <;> simp [ht]

theorem text_of_char? (h : t.Spelled) {c : Char} (hc : t.tag.char? = some c) : t.text = [c] := by
  cases h with
  | reserved hd ht =>
    rw [Tag.ofChar?_eq_some_iff, hc, Option.some.injEq] at hd
    rw [ht, hd]
  | spaces ht _ _ => simp [ht, Tag.char?] at hc
  | plain ht _ _ _ => rcases ht with ht | ht <;> simp [ht, Tag.char?] at hc

theorem ne_of_mem (h : t.Spelled) {c d : Char} {tag : Tag} (hd : tag.char? = some d)
    (hne : t.tag ≠ tag) (hc : c ∈ t.text) : c ≠ d := by
  rintro rfl
  have hres := Tag.ofChar?_eq_some_iff.2 hd
  cases h with
  | reserved hx htext =>
    rw [htext, List.mem_singleton] at hc
    subst hc
    exact hne (Option.some.inj (hx.symm.trans hres))
  | spaces _ _ hall =>
    rw [hall c hc, Text.ofChar?_space] at hres
    contradiction
  | plain _ _ hall _ =>
    have := hall c hc
    simp [Text.isPlain, hres] at this

theorem newline_not_mem (h : t.Spelled) (ht : t.tag ≠ .newline) : '\n' ∉ t.text :=
  fun hm => h.ne_of_mem rfl ht hm rfl

theorem endsLine_eq_false (h : t.Spelled) (hm : '\n' ∉ t.text) : t.tag.endsLine = false := by
  have hnewline : t.tag ≠ .newline := by
    intro htag
    rw [h.text_of_char? (c := '\n') (by rw [htag]; rfl)] at hm
    simp at hm
  simp [Tag.endsLine, hnewline, h.tag_ne_eof]

theorem ne_space (h : t.Spelled) (ht : t.tag ≠ .spaces) {c : Char} (hc : c ∈ t.text) :
    c ≠ ' ' := by
  rintro rfl
  cases h with
  | reserved hd hx =>
    rw [hx, List.mem_singleton] at hc
    simp [← hc, Text.ofChar?_space] at hd
  | spaces hs _ _ => exact ht hs
  | plain _ _ hp _ =>
    have := hp ' ' hc
    simp [Text.isPlain] at this

theorem tag_of_head? (h : t.Spelled) {c : Char} {tag : Tag} (ht : t.text.head? = some c)
    (hc : tag.char? = some c) : t.tag = tag := by
  have hres := Tag.ofChar?_eq_some_iff.2 hc
  cases h with
  | reserved hd hx =>
    simp only [hx, List.head?_cons, Option.some.injEq] at ht
    subst ht
    exact Option.some.inj (hd.symm.trans hres)
  | spaces _ _ hs =>
    have := hs c (List.mem_of_mem_head? ht)
    simp [this, Text.ofChar?_space] at hres
  | plain _ _ hp _ =>
    have := hp c (List.mem_of_mem_head? ht)
    simp [Text.isPlain, hres] at this

end Token.Spelled

namespace Token

variable {ts : List Token}

theorem exists_cons_of_char? {tag : Tag} {c : Char} {cs : List Char}
    (hts : ∀ t ∈ ts, t.Spelled) (hc : tag.char? = some c) (h : texts ts = c :: cs) :
    ∃ t us, ts = t :: us ∧ t.tag = tag ∧ texts us = cs := by
  cases ts with
  | nil => simp at h
  | cons t us =>
    have ht := hts t (by simp)
    have hhead : t.text.head? = some c := by
      rw [← List.head?_append_of_ne_nil _ ht.text_ne_nil, ← texts_cons, h]
      rfl
    have htag := ht.tag_of_head? hhead hc
    rw [texts_cons, ht.text_of_char? (htag ▸ hc), List.singleton_append, List.cons.injEq] at h
    exact ⟨t, us, rfl, htag, h.2⟩

theorem texts_takeWhile {p : Token → Bool} {q : Char → Bool} (hts : ∀ t ∈ ts, t.Spelled)
    (h : ∀ t ∈ ts, ∀ c ∈ t.text, q c = p t) :
    texts (ts.takeWhile p) = (texts ts).takeWhile q := by
  induction ts with
  | nil => rfl
  | cons t ts ih =>
    have ht := h t List.mem_cons_self
    cases hp : p t with
    | true =>
      rw [List.takeWhile_cons_of_pos hp, texts_cons, texts_cons,
        List.takeWhile_append_of_pos fun c hc => by rw [ht c hc, hp],
        ih (fun u hu => hts u (List.mem_cons_of_mem _ hu)) fun u hu =>
          h u (List.mem_cons_of_mem _ hu)]
    | false =>
      obtain ⟨c, cs, htext⟩ := List.exists_cons_of_ne_nil (hts t List.mem_cons_self).text_ne_nil
      rw [List.takeWhile_cons_of_neg (by simp [hp]), texts_cons, htext, List.cons_append,
        List.takeWhile_cons_of_neg (by simp [ht c (by simp [htext]), hp]), texts_nil]

end Token

end TaskMarkup
