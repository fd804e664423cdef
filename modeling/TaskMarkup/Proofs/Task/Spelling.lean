import TaskMarkup.Proofs.Task.Heard
import TaskMarkup.Proofs.Token.Escaped

namespace TaskMarkup

inductive Date.Spells : List Token → Date → Prop
  | mk {year first month second day : Token} {date : Date} : year.tag = .number →
      first.tag = .dash → month.tag = .number → second.tag = .dash → day.tag = .number →
      Date.ofYearMonthDay? (year.value?.getD 0) (month.value?.getD 0) (day.value?.getD 0) =
        some date →
      Spells [year, first, month, second, day] date

namespace Image

def isSpecial (c : Char) : Bool := c = ' ' || c = '\t' || c = ']' || c = '\\'

theorem escapePath_eq_shield (path : List Char) : escapePath path = Text.shield isSpecial path := by
  induction path with
  | nil => rfl
  | cons c path ih =>
    have hstep : escapePath (c :: path) =
        if isSpecial c then '\\' :: c :: escapePath path else c :: escapePath path := rfl
    rw [hstep, ih]
    cases hc : isSpecial c with
    | true => exact (Text.shield_cons_of_special hc path).symm
    | false => exact (Text.shield_cons_of_plain hc path).symm

theorem not_isPlain_of_isSpecial (c : Char) (h : isSpecial c = true) : Text.isPlain c = false := by
  simp only [isSpecial, Bool.or_eq_true, decide_eq_true_eq] at h
  rcases h with ((rfl | rfl) | rfl) | rfl <;> decide

inductive Path : List Token → List Char → Prop
  | nil : Path [] []
  | plain {t : Token} {ts : List Token} {cs : List Char} : t.tag.endsDirective = false →
      t.tag ≠ .backslash → Path ts cs → Path (t :: ts) (t.text ++ cs)
  | escaped {back t : Token} {ts : List Token} {cs : List Char} : back.tag = .backslash →
      t.tag.endsLine = false → Path ts cs → Path (back :: t :: ts) (t.text ++ cs)

theorem Path.append {ts us : List Token} {cs ds : List Char} (h : Path ts cs) (h' : Path us ds) :
    Path (ts ++ us) (cs ++ ds) := by
  induction h with
  | nil => exact h'
  | plain hends hback _ ih =>
    rw [List.append_assoc]
    exact .plain hends hback ih
  | escaped hback hline _ ih =>
    rw [List.append_assoc]
    exact .escaped hback hline ih

theorem Path.ne_nil {ts : List Token} {path : List Char} (h : Path ts path) (hne : path ≠ []) :
    ts ≠ [] := by
  rintro rfl
  cases h
  exact hne rfl

theorem Path.exists_head {ts : List Token} {path : List Char} (h : Path ts path) (hne : ts ≠ []) :
    ∃ t us, ts = t :: us ∧ t.tag.isInlineSpace = false := by
  cases h with
  | nil => exact absurd rfl hne
  | plain hends =>
    simp only [Tag.endsDirective, Bool.or_eq_false_iff] at hends
    exact ⟨_, _, rfl, hends.1.1⟩
  | escaped hback => exact ⟨_, _, rfl, by rw [hback]; rfl⟩

theorem plain_of_shields {t : Token} (ht : t.Spelled) (hline : '\n' ∉ t.text)
    (hplain : ∀ c ∈ t.text, isSpecial c = false) :
    t.tag.endsDirective = false ∧ t.tag ≠ .backslash := by
  have hne {tag : Tag} {c : Char} (hc : tag.char? = some c) (hspecial : isSpecial c = true) :
      t.tag ≠ tag := by
    rintro rfl
    simp [hplain c (by simp [ht.text_of_char? hc])] at hspecial
  have hspaces : t.tag ≠ .spaces := by
    intro htag
    cases ht with
    | reserved hc _ => simp [Tag.ofChar?_eq_some_iff, htag, Tag.char?] at hc
    | spaces _ hnil hall =>
      obtain ⟨c, cs, hcs⟩ := List.exists_cons_of_ne_nil hnil
      have hspace := hall c (by simp [hcs])
      have := hplain c (by simp [hcs])
      rw [hspace] at this
      contradiction
    | plain h _ _ _ => simp [htag] at h
  have hend := ht.endsLine_eq_false hline
  have htab : t.tag ≠ .tab := hne rfl rfl
  have hbracket : t.tag ≠ .rightBracket := hne rfl rfl
  refine ⟨?_, hne rfl rfl⟩
  simp [Tag.endsDirective, Tag.isInlineSpace, hspaces, htab, hbracket, hend]

theorem Path.of_shields {ts : List Token} {path : List Char} (h : Token.Shields isSpecial ts path)
    (hline : '\n' ∉ path) : Path ts path := by
  induction h with
  | nil => exact .nil
  | plain ht hplain _ ih =>
    rw [List.mem_append, not_or] at hline
    obtain ⟨hends, hback⟩ := plain_of_shields ht hline.1 hplain
    exact .plain hends hback (ih hline.2)
  | @escaped back t c ts cs hback ht htext _ _ ih =>
    rw [List.mem_cons, not_or] at hline
    have hend : t.tag.endsLine = false := ht.endsLine_eq_false (by simpa [htext] using hline.1)
    have hpath := Path.escaped hback hend (ih hline.2)
    rwa [htext] at hpath

inductive Spells : List Token → Image → Prop
  | bare {gap : Token} {ts : List Token} {path : String} : gap.tag = .spaces →
      Path ts path.toList → path.toList ≠ [] → Spells (gap :: ts) ⟨path, none⟩
  | wide {gap number behind : Token} {ts : List Token} {path : String} {width : Nat} :
      gap.tag = .spaces → number.tag = .number → number.value? = some width →
      behind.tag = .spaces → Path ts path.toList → path.toList ≠ [] →
      Spells (gap :: number :: behind :: ts) ⟨path, some width⟩

end Image

inductive Directive.Spells : List Token → Directive → Prop
  | done {t : Token} : t.tag = .word → t.text = "x".toList → Spells [t] .done
  | hide {t : Token} : t.tag = .word → t.text = "hide".toList → Spells [t] .hide
  | pin {t : Token} : t.tag = .word → t.text = "pin".toList → Spells [t] .pin
  | admonition {t : Token} (kind : Admonition) : t.tag = .word → t.text = kind.keyword.toList →
      Spells [t] (.admonition kind)
  | tag {sign t : Token} {name : String} : sign.tag = .at → t.tag = .word ∨ t.tag = .number →
      t.text = name.toList → isTagName name.toList = true → Spells [sign, t] (.tag name)
  | priority {sign number : Token} {n : Nat} : sign.tag = .hash → number.tag = .number →
      number.value? = some n → Spells [sign, number] (.priority n)
  | track {t colon number : Token} {id : Nat} : t.tag = .word → t.text = "track".toList →
      colon.tag = .colon → number.tag = .number → number.value? = some id →
      Spells [t, colon, number] (.track id)
  | due {t colon : Token} {ts : List Token} {date : Date} : t.tag = .word →
      t.text = "due".toList → colon.tag = .colon → date.Spells ts → Spells (t :: colon :: ts) (.due date)
  | created {t colon : Token} {ts : List Token} {date : Date} : t.tag = .word →
      t.text = "created".toList → colon.tag = .colon → date.Spells ts →
      Spells (t :: colon :: ts) (.created date)
  | image {t : Token} {ts : List Token} {i : Image} : t.tag = .word → t.text = "image".toList →
      i.Spells ts → Spells (t :: ts) (.image i)

/-- The tokens of a word that is skipped: they spell no directive, nor do they start one with a path. -/
structure Directive.Garbles (ts : List Token) : Prop where
  ne_nil : ts ≠ []
  within : ∀ t ∈ ts, t.tag.endsDirective = false
  bracket : ∀ t ∈ ts.head?, t.tag ≠ .leftBracket
  image : ts.map Token.text ≠ ["image".toList]
  unspelled : ∀ d, ¬Spells ts d

/-- The tokens of directives, each behind white space of its own but for the first perhaps, and those
that are skipped between them. -/
inductive Directive.Lists : List Token → List Directive → Prop
  | nil : Lists [] []
  | cons {gap ts us : List Token} {d : Directive} {ds : List Directive} :
      (∀ t ∈ gap, t.tag.isInlineSpace = true) → Spells ts d →
      (∀ i, d = .image i → d.Legible (!us.isEmpty)) →
      (∀ t ∈ us.head?, t.tag.isInlineSpace = true) → Lists us ds →
      Lists (gap ++ (ts ++ us)) (d :: ds)
  | skip {gap ts us : List Token} {ds : List Directive} :
      (∀ t ∈ gap, t.tag.isInlineSpace = true) → Garbles ts →
      (∀ t ∈ us.head?, t.tag.isInlineSpace = true) → Lists us ds →
      Lists (gap ++ (ts ++ us)) ds

def Directive.Spells.By (d : Directive) (cs : List Char) : Prop :=
  ∀ start, d.Spells (Token.place start (Text.runs cs))

open Token Text

theorem Date.IsValid.month_le {year : Int} {month day : Nat} (h : IsValid year month day) :
    month ≤ 12 := by
  by_contra hmonth
  obtain ⟨-, -, hday, hdays⟩ := h
  have : daysInMonth year month = 0 := by
    unfold daysInMonth
    split <;> omega
  omega

theorem Date.IsValid.day_le {year : Int} {month day : Nat} (h : IsValid year month day) :
    day ≤ 31 := by
  obtain ⟨-, -, -, hdays⟩ := h
  refine Nat.le_trans hdays ?_
  unfold daysInMonth
  split <;> (try split) <;> decide

theorem Date.spells_text {date : Date} (hfrom : 0 ≤ date.year) (hto : date.year ≤ 9999)
    (start : Nat) : date.Spells (place start (runs date.text.toList)) := by
  obtain ⟨year, month, day, hvalid⟩ := date
  simp only at hfrom hto
  have hmonth : month < 10 ^ 8 := Nat.lt_of_le_of_lt hvalid.month_le (by decide)
  have hday : day < 10 ^ 8 := Nat.lt_of_le_of_lt hvalid.day_le (by decide)
  have htext : (Date.text ⟨year, month, day, hvalid⟩).toList =
      zeroFill 4 (Nat.toDigits 10 year.toNat) ++ '-' :: (zeroFill 2 (Nat.toDigits 10 month) ++
        '-' :: zeroFill 2 (Nat.toDigits 10 day)) := by
    simp [Date.text, yearText, padded, Int.not_lt.2 hfrom, hto]
  have hyear : (year.toNat : Int) = year := Int.toNat_of_nonneg hfrom
  rw [htext, runs_append_cons (c := '-') rfl, runs_append_cons (c := '-') rfl, runs_zeroFill,
    runs_zeroFill, runs_zeroFill]
  have hyearTag := Tag.ofRun_zeroFill (show 4 ≤ 8 by decide) (show year.toNat < 10 ^ 8 by omega)
  have hmonthTag := Tag.ofRun_zeroFill (show 2 ≤ 8 by decide) hmonth
  have hdayTag := Tag.ofRun_zeroFill (show 2 ≤ 8 by decide) hday
  refine .mk hyearTag rfl hmonthTag rfl hdayTag ?_
  have hvalue {t : Token} {width n : Nat} (htag : t.tag = .number)
      (htext : t.text = zeroFill width (Nat.toDigits 10 n)) : t.value?.getD 0 = n := by
    rw [value?_of_zeroFill htag htext, Option.getD_some]
  rw [hvalue hyearTag rfl, hvalue hmonthTag rfl, hvalue hdayTag rfl]
  simp only [hyear, ofYearMonthDay?, dif_pos hvalid]

theorem Token.shields_path (path : List Char) (start : Nat) :
    Shields Image.isSpecial (place start (runs (Image.escapePath path))) path := by
  apply shields_of_texts (by decide) Image.not_isPlain_of_isSpecial
    fun t ht => spelled_of_mem_place ht
  rw [texts_place, flatten_runs, Image.escapePath_eq_shield]

theorem Image.escapePath_ne_space {path : List Char} (b : Char)
    (h : b ∈ (escapePath path).head?) : b ≠ ' ' := by
  rintro rfl
  rw [escapePath_eq_shield] at h
  cases hcs : shield isSpecial path with
  | nil => simp [hcs] at h
  | cons c cs =>
    obtain rfl : c = ' ' := by simpa [hcs] using h
    exact shield_ne_cons (by decide) (by decide) hcs

theorem Text.isNumeral_toDigits {n : Nat} (h : n < 10 ^ 8) :
    isNumeral (Nat.toDigits 10 n) = true := by
  have hdigits : ∀ c ∈ Nat.toDigits 10 n, c.isDigit = true := fun c hc =>
    Nat.isDigit_of_mem_toDigits (by decide) (by decide) hc
  have hlength := (Nat.length_toDigits_le_iff (k := 8) (by decide) (by decide)).2 h
  simpa [isNumeral, Nat.toDigits_ne_nil, hlength] using hdigits

theorem Token.isInlineSpace_head_place {cs : List Char} (h : ∀ c ∈ cs.head?, c = ' ')
    (start : Nat) : ∀ t ∈ (place start (runs cs)).head?, t.tag.isInlineSpace = true := by
  have hflat := flatten_runs cs
  cases hruns : runs cs with
  | nil => simp [place]
  | cons run rs =>
    have hrun : run ≠ [] := ne_nil_of_mem_runs (hruns ▸ List.mem_cons_self)
    obtain ⟨c, run, rfl⟩ := List.exists_cons_of_ne_nil hrun
    rw [hruns, List.flatten_cons, List.cons_append] at hflat
    obtain rfl : c = ' ' := h c (by simp [← hflat])
    rintro t ht
    obtain rfl : _ = t := by simpa [place] using ht
    rfl

namespace Image

variable {path : List Char} {cs ds : List Char}

theorem path_escapePath (h : '\n' ∉ path) (start : Nat) :
    Path (place start (runs (escapePath path))) path :=
  .of_shields (shields_path path start) h

theorem getLast?_escapePath : (escapePath path).getLast? = path.getLast? := by
  rw [escapePath_eq_shield, getLast?_shield]

theorem escapePath_of_isNumeral (h : isNumeral path = true) : escapePath path = path := by
  simp only [isNumeral, Bool.and_eq_true, List.all_eq_true] at h
  have hplain : ∀ c ∈ path, isSpecial c = false := by
    intro c hc
    have hdigit := h.2 c hc
    by_contra hspecial
    rw [Bool.not_eq_false] at hspecial
    have := not_isPlain_of_isSpecial c hspecial
    rw [isPlain_of_isDigit hdigit] at this
    contradiction
  clear h
  rw [escapePath_eq_shield]
  induction path with
  | nil => rfl
  | cons c path ih =>
    rw [shield_cons_of_plain (hplain c (by simp)), ih fun d hd => hplain d (by simp [hd])]

def widthText (i : Image) : List Char :=
  match i.width with
  | none => []
  | some width => Nat.toDigits 10 width ++ [' ']

theorem toList_directive (i : Image) :
    i.directive.toList = "image".toList ++ ' ' :: (i.widthText ++ escapePath i.path.toList) := by
  obtain ⟨path, width⟩ := i
  cases width with
  | none =>
    show ("image " ++ String.ofList (escapePath path.toList)).toList = _
    simp [widthText]
  | some width =>
    show ("image " ++ toString width ++ " " ++ String.ofList (escapePath path.toList)).toList = _
    simp [widthText, Nat.toString_eq_repr]

theorem getLast?_directive {i : Image} (h : i.path.toList ≠ []) :
    i.directive.toList.getLast? = i.path.toList.getLast? := by
  have hne : escapePath i.path.toList ≠ [] := by
    rw [Ne, ← List.getLast?_eq_none_iff, getLast?_escapePath, List.getLast?_eq_none_iff]
    exact h
  rw [toList_directive, List.getLast?_append_cons, List.getLast?_cons_of_ne_nil (by simp [hne]),
    List.getLast?_append_of_ne_nil _ hne, getLast?_escapePath]

theorem runs_image (cs : List Char) :
    runs ("image".toList ++ ' ' :: cs) = "image".toList :: runs (' ' :: cs) := by
  rw [runs_append]
  · rfl
  · intro a ha b hb
    obtain rfl : 'e' = a := by simpa using ha
    obtain rfl : ' ' = b := by simpa using hb
    decide

theorem spells_wide {path : String} (hds : isNumeral ds = true) (hcs : ∀ c ∈ cs.head?, c ≠ ' ')
    (hpath : ∀ start, Path (place start (runs cs)) path.toList) (hne : path.toList ≠ [])
    (start : Nat) :
    Spells (place start (runs (' ' :: (ds ++ ' ' :: cs)))) ⟨path, some (decimal ds)⟩ := by
  have hnumeral := hds
  simp only [isNumeral, Bool.and_eq_true, Bool.not_eq_true', List.isEmpty_eq_false_iff,
    List.all_eq_true] at hds
  obtain ⟨⟨hnil, -⟩, hdigits⟩ := hds
  have hplain : ∀ c ∈ ds, isPlain c = true := fun c hc => isPlain_of_isDigit (hdigits c hc)
  have hspace : ∀ c ∈ ds, c ≠ ' ' := fun c hc => (ofChar?_of_isPlain (hplain c hc)).1
  have htag : Tag.ofRun ds = .number := by rw [Tag.ofRun_of_isPlain hnil hplain, if_pos hnumeral]
  have hfirst : ∀ c ∈ (ds ++ ' ' :: cs).head?, c ≠ ' ' := by
    rw [List.head?_append_of_ne_nil _ hnil]
    exact fun c hc => hspace c (List.mem_of_mem_head? hc)
  have hlast : ∀ c ∈ ds.getLast?, c ≠ ' ' := fun c hc => hspace c (List.mem_of_mem_getLast? hc)
  rw [runs_space_cons hfirst, runs_append_space hlast hcs, runs_of_isPlain hnil hplain]
  exact .wide rfl htag (by rw [value?, if_pos htag]) rfl (hpath _) hne

theorem spells_of_path {i : Image} (hwidth : ∀ w, i.width = some w → w < 10 ^ 8)
    (hcs : ∀ c ∈ cs.head?, c ≠ ' ')
    (hpath : ∀ start, Path (place start (runs cs)) i.path.toList) (hne : i.path.toList ≠ [])
    (start : Nat) : i.Spells (place start (runs (' ' :: (i.widthText ++ cs)))) := by
  obtain ⟨path, width⟩ := i
  cases width with
  | none =>
    show Spells (place start (runs (' ' :: cs))) ⟨path, none⟩
    rw [runs_space_cons hcs]
    exact .bare rfl (hpath _) hne
  | some width =>
    have hnumeral : isNumeral (Nat.toDigits 10 width) = true := isNumeral_toDigits (hwidth width rfl)
    have hspells := spells_wide hnumeral hcs hpath hne start
    rwa [decimal_toDigits, List.append_cons] at hspells

end Image

namespace Directive

variable {d : Directive}

theorem text_priority (n : Nat) : (text (.priority n)).toList = '#' :: Nat.toDigits 10 n := by
  show ("#" ++ toString n).toList = _
  simp [Nat.toString_eq_repr]

theorem text_track (id : Nat) :
    (text (.track id)).toList = "track".toList ++ ':' :: Nat.toDigits 10 id := by
  show ("track:" ++ toString id).toList = _
  simp [Nat.toString_eq_repr]

theorem text_due (date : Date) :
    (text (.due date)).toList = "due".toList ++ ':' :: date.text.toList := by
  simp [text]

theorem text_created (date : Date) :
    (text (.created date)).toList = "created".toList ++ ':' :: date.text.toList := by
  simp [text]

theorem spells_text {more : Bool} (h : d.Written) (hlegible : d.Legible more) :
    Spells.By d d.text.toList := by
  intro start
  cases d with
  | done => exact .done rfl rfl
  | hide => exact .hide rfl rfl
  | pin => exact .pin rfl rfl
  | admonition kind => cases kind <;> exact .admonition _ rfl rfl
  | tag name =>
    have hname : isTagName name.toList = true := h
    obtain ⟨hne, hplain⟩ := isPlain_of_isTagName hname
    have htag : Tag.ofRun name.toList = .word ∨ Tag.ofRun name.toList = .number := by
      rw [Tag.ofRun_of_isPlain hne hplain]
      split <;> simp
    have htext : (text (.tag name)).toList = '@' :: name.toList := by simp [text]
    rw [htext, runs_cons (c := '@') rfl, runs_of_isPlain hne hplain]
    exact .tag rfl htag rfl hname
  | priority n =>
    have htag : Tag.ofRun (Nat.toDigits 10 n) = .number := Tag.ofRun_toDigits h
    rw [text_priority, runs_cons (c := '#') rfl, runs_toDigits]
    exact .priority rfl htag (value?_of_toDigits htag rfl)
  | track id =>
    have htag : Tag.ofRun (Nat.toDigits 10 id) = .number := Tag.ofRun_toDigits h
    rw [text_track, runs_append_cons (c := ':') rfl, runs_toDigits]
    exact .track rfl rfl rfl htag (value?_of_toDigits htag rfl)
  | due date =>
    rw [text_due, runs_append_cons (c := ':') rfl]
    exact .due rfl rfl rfl (Date.spells_text h hlegible _)
  | created date =>
    rw [text_created, runs_append_cons (c := ':') rfl]
    exact .created rfl rfl rfl (Date.spells_text h hlegible _)
  | image i =>
    obtain ⟨hne, hline, hwidth⟩ := h
    show Spells (place start (runs i.directive.toList)) (.image i)
    rw [i.toList_directive, Image.runs_image]
    exact .image rfl rfl
      (Image.spells_of_path hwidth Image.escapePath_ne_space (Image.path_escapePath hline) hne _)

theorem Spells.exists_head {ts : List Token} (h : Spells ts d) :
    ∃ t us, ts = t :: us ∧ t.tag.endsDirective = false ∧ t.tag ≠ .leftBracket := by
  cases h with
  | done ht | hide ht | pin ht | admonition _ ht | tag ht | priority ht | track ht | due ht
    | created ht | image ht => exact ⟨_, _, rfl, by rw [ht]; rfl, by simp [ht]⟩

theorem Spells.exists_last {ts : List Token} (h : Spells ts d) :
    (∃ i, d = .image i) ∨ ∃ us t, ts = us ++ [t] ∧ t.tag ≠ .spaces := by
  cases h with
  | done ht | hide ht | pin ht | admonition _ ht => exact .inr ⟨[], _, rfl, by simp [ht]⟩
  | tag _ ht => exact .inr ⟨[_], _, rfl, by rcases ht with ht | ht <;> simp [ht]⟩
  | priority _ ht => exact .inr ⟨[_], _, rfl, by simp [ht]⟩
  | track _ _ _ ht => exact .inr ⟨[_, _], _, rfl, by simp [ht]⟩
  | due _ _ _ hdate | created _ _ _ hdate =>
    obtain ⟨-, -, -, -, ht, -⟩ := hdate
    exact .inr ⟨[_, _, _, _, _, _], _, rfl, by simp [ht]⟩
  | image => exact .inl ⟨_, rfl⟩

theorem Garbles.exists_head {ts : List Token} (h : Garbles ts) :
    ∃ t us, ts = t :: us ∧ t.tag.endsDirective = false ∧ t.tag ≠ .leftBracket := by
  obtain ⟨t, us, rfl⟩ := List.exists_cons_of_ne_nil h.ne_nil
  exact ⟨t, us, rfl, h.within t (by simp), h.bracket t (by simp)⟩

theorem Garbles.of_date {t colon year : Token} {ts : List Token} (htag : t.tag = .word)
    (htext : t.text = "created".toList ∨ t.text = "due".toList) (hcolon : colon.tag = .colon)
    (hyear : year.tag ≠ .number) (hts : ∀ u ∈ year :: ts, u.tag.endsDirective = false) :
    Garbles (t :: colon :: year :: ts) := by
  have hcons : ∀ u ∈ t :: colon :: year :: ts, u.tag.endsDirective = false := by
    rw [List.forall_mem_cons, List.forall_mem_cons, htag, hcolon]
    exact ⟨rfl, rfl, hts⟩
  refine ⟨by simp, hcons, by simp [htag], by simp, fun d hd => ?_⟩
  cases hd with
  | track _ hword | image _ hword =>
    rw [hword] at htext
    exact absurd htext (by decide)
  | due _ _ _ hdate | created _ _ _ hdate =>
    cases hdate
    contradiction

theorem Lists.ne_leftBracket {ts : List Token} {ds : List Directive} (h : Lists ts ds) :
    ∀ t ∈ ts.head?, t.tag ≠ .leftBracket := by
  have hcons {gap ts us : List Token} (hgap : ∀ t ∈ gap, t.tag.isInlineSpace = true)
      (hts : ∃ t us, ts = t :: us ∧ t.tag.endsDirective = false ∧ t.tag ≠ .leftBracket) :
      ∀ t ∈ (gap ++ (ts ++ us)).head?, t.tag ≠ .leftBracket := by
    cases gap with
    | nil =>
      obtain ⟨t, us', rfl, -, ht⟩ := hts
      simpa using ht
    | cons t gap =>
      have ht := hgap t (by simp)
      simp only [List.cons_append, List.head?_cons, Option.mem_some_iff]
      rintro _ rfl htag
      simp [htag, Tag.isInlineSpace] at ht
  cases h with
  | nil => simp
  | cons hgap hspells => exact hcons hgap hspells.exists_head
  | skip hgap hgarbles => exact hcons hgap hgarbles.exists_head

theorem Lists.of_cons {t : Token} {ts : List Token} {ds : List Directive} (h : Lists (t :: ts) ds)
    (ht : t.tag.isInlineSpace = true) : Lists ts ds := by
  have hgap {gap us vs : List Token} (heq : t :: ts = gap ++ (us ++ vs))
      (hus : ∃ u us', us = u :: us' ∧ u.tag.endsDirective = false ∧ u.tag ≠ .leftBracket) :
      ∃ gap', gap = t :: gap' ∧ ts = gap' ++ (us ++ vs) := by
    cases gap with
    | nil =>
      obtain ⟨u, us', rfl, hends, -⟩ := hus
      obtain rfl : t = u := (List.cons.inj heq).1
      simp [Tag.endsDirective, ht] at hends
    | cons u gap' =>
      obtain ⟨rfl, hts⟩ := List.cons.inj heq
      exact ⟨gap', rfl, hts⟩
  generalize hus : t :: ts = us at h
  cases h with
  | nil => contradiction
  | cons hspace hspells hlegible hnext h =>
    obtain ⟨gap', rfl, rfl⟩ := hgap hus hspells.exists_head
    exact .cons (fun u hu => hspace u (by simp [hu])) hspells hlegible hnext h
  | skip hspace hgarbles hnext h =>
    obtain ⟨gap', rfl, rfl⟩ := hgap hus hgarbles.exists_head
    exact .skip (fun u hu => hspace u (by simp [hu])) hgarbles hnext h

theorem exists_text_eq (d : Directive) : ∃ c cs, d.text.toList = c :: cs ∧ c ≠ ' ' := by
  cases d with
  | tag name => exact ⟨'@', name.toList, by simp [text], by decide⟩
  | priority n => exact ⟨'#', _, text_priority n, by decide⟩
  | done => exact ⟨'x', [], rfl, by decide⟩
  | hide => exact ⟨'h', _, rfl, by decide⟩
  | pin => exact ⟨'p', _, rfl, by decide⟩
  | due date => exact ⟨'d', _, text_due date, by decide⟩
  | created date => exact ⟨'c', _, text_created date, by decide⟩
  | track id => exact ⟨'t', _, text_track id, by decide⟩
  | image i => exact ⟨'i', _, i.toList_directive, by decide⟩
  | admonition kind => cases kind <;> exact ⟨_, _, rfl, by decide⟩

theorem getLast?_text_ne_space (h : d.Written) (hlegible : d.Legible true) :
    ∀ c ∈ d.text.toList.getLast?, c ≠ ' ' := by
  rcases (spells_text h hlegible 0).exists_last with ⟨i, rfl⟩ | ⟨us, t, hts, htag⟩
  · show ∀ c ∈ i.directive.toList.getLast?, c ≠ ' '
    rw [Image.getLast?_directive h.1]
    rintro _ hc rfl
    exact (hlegible rfl).1 hc
  · have ht : t.Spelled := by
      have hmem : t ∈ place 0 (runs d.text.toList) := by simp [hts]
      exact spelled_of_mem_place hmem
    have htexts := texts_place 0 (runs d.text.toList)
    rw [hts, texts_append, texts_cons, texts_nil, List.append_nil, flatten_runs] at htexts
    rw [← htexts, List.getLast?_append_of_ne_nil _ ht.text_ne_nil]
    exact fun c hc => ht.ne_space htag (List.mem_of_mem_getLast? hc)

end Directive

end TaskMarkup
