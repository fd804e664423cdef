import TaskMarkup.Proofs.Task.Spelling

namespace TaskMarkup

def Tags.union (s t : Tags) : Tags := t.toList.foldl (fun s name => s.insert name) s

theorem Tags.mem_union {s t : Tags} {name : String} : name ∈ s.union t ↔ name ∈ s ∨ name ∈ t := by
  have hfold (names : List String) (s : Tags) :
      name ∈ names.foldl (fun s name => s.insert name) s ↔ name ∈ s ∨ name ∈ names := by
    induction names generalizing s with
    | nil => simp
    | cons other names ih => simp only [List.foldl_cons, ih, mem_insert, List.mem_cons]; tauto
  exact hfold t.toList s

namespace Task

/-- One task over another: what any of both has set, and of values the one on top. -/
def overlay (t u : Task) : Task where
  priority := u.priority.or t.priority
  track := u.track.or t.track
  created := u.created.or t.created
  due := u.due.or t.due
  pin := t.pin || u.pin
  done := t.done || u.done
  hide := t.hide || u.hide
  tags := t.tags.union u.tags
  image := u.image.or t.image
  admonition := u.admonition.or t.admonition

theorem overlay_empty (t : Task) : t.overlay {} = t := by
  simp [overlay, Tags.union, Tags.empty]

theorem foldl_overlay_append_empty (ts us : List Task) (t : Task) :
    (ts ++ {} :: us).foldl overlay t = (ts ++ us).foldl overlay t := by
  rw [List.foldl_append, List.foldl_append, List.foldl_cons, overlay_empty]

theorem overlay_obey (t : Task) (d : Directive) : t.overlay (({} : Task).obey d) = t.obey d := by
  cases d <;> simp [overlay, obey, Tags.union, Tags.empty, Tags.insert, Tags.insertSorted]

def hear (t : Task) (d : Option Directive) : Task := d.toList.foldl obey t

theorem overlay_hear (t : Task) (d : Option Directive) :
    t.overlay (({} : Task).hear d) = t.hear d := by
  cases d with
  | none => exact t.overlay_empty
  | some d => exact t.overlay_obey d

theorem foldl_obey_flatMap {α : Type} (said : α → Option Directive) (words : List α) (t : Task) :
    (words.flatMap fun w => (said w).toList).foldl obey t =
      (words.map fun w => ({} : Task).hear (said w)).foldl overlay t := by
  induction words generalizing t with
  | nil => rfl
  | cons w words ih =>
    rw [List.map_cons, List.foldl_cons, overlay_hear, ← ih, List.flatMap_cons, List.foldl_append]
    rfl

end Task

open Token Text

section

variable {ts : List Token} {f : Token → Token} (htag : ∀ t, (f t).tag = t.tag)
  (htext : ∀ t, (f t).text = t.text)

include htag htext

theorem Date.Spells.map {date : Date} (h : date.Spells ts) : date.Spells (ts.map f) := by
  obtain ⟨hyear, hfirst, hmonth, hsecond, hday, hvalue⟩ := h
  refine .mk (by rwa [htag]) (by rwa [htag]) (by rwa [htag]) (by rwa [htag]) (by rwa [htag]) ?_
  simpa only [Token.value?_map htag htext] using hvalue

theorem Image.Path.map {path : List Char} (h : Path ts path) : Path (ts.map f) path := by
  induction h with
  | nil => exact .nil
  | plain hends hback _ ih =>
    rw [← htext]
    exact .plain (by rwa [htag]) (by rwa [htag]) ih
  | escaped hback hline _ ih =>
    rw [← htext]
    exact .escaped (by rwa [htag]) (by rwa [htag]) ih

theorem Image.Spells.map {i : Image} (h : i.Spells ts) : i.Spells (ts.map f) := by
  cases h with
  | bare hgap hpath hne => exact .bare (by rwa [htag]) (hpath.map htag htext) hne
  | wide hgap hnumber hvalue hbehind hpath hne =>
    exact .wide (by rwa [htag]) (by rwa [htag]) (by rwa [Token.value?_map htag htext])
      (by rwa [htag]) (hpath.map htag htext) hne

theorem Directive.Spells.map {d : Directive} (h : d.Spells ts) : d.Spells (ts.map f) := by
  have hvalue := Token.value?_map htag htext
  cases h with
  | done ht hx => exact .done (by rwa [htag]) (by rwa [htext])
  | hide ht hx => exact .hide (by rwa [htag]) (by rwa [htext])
  | pin ht hx => exact .pin (by rwa [htag]) (by rwa [htext])
  | admonition kind ht hx => exact .admonition kind (by rwa [htag]) (by rwa [htext])
  | tag hsign ht hx hname => exact .tag (by rwa [htag]) (by rwa [htag]) (by rwa [htext]) hname
  | priority hsign ht hv => exact .priority (by rwa [htag]) (by rwa [htag]) (by rwa [hvalue])
  | track ht hx hcolon hnumber hv =>
    exact .track (by rwa [htag]) (by rwa [htext]) (by rwa [htag]) (by rwa [htag]) (by rwa [hvalue])
  | due ht hx hcolon hdate =>
    exact .due (by rwa [htag]) (by rwa [htext]) (by rwa [htag]) (hdate.map htag htext)
  | created ht hx hcolon hdate =>
    exact .created (by rwa [htag]) (by rwa [htext]) (by rwa [htag]) (hdate.map htag htext)
  | image ht hx himage => exact .image (by rwa [htag]) (by rwa [htext]) (himage.map htag htext)

end

theorem Directive.spells_place_iff {d : Directive} {rs : List (List Char)} (start : Nat) :
    d.Spells (place start rs) ↔ d.Spells (place 0 rs) := by
  have hmoved : place start rs = (place 0 rs).map (moved start) := by
    rw [← place_moved, Nat.zero_add]
  constructor
  · intro h
    have hback := h.map (f := fun t => { t with start := t.start - start }) (fun _ => rfl)
      fun _ => rfl
    rw [hmoved, List.map_map] at hback
    simpa [Function.comp_def, moved] using hback
  · intro h
    rw [hmoved]
    exact h.map (moved_tag start) (moved_text start)

namespace Directive

/-- A word between brackets: no white space and no bracket, nor the start of an image. -/
structure IsWord (w : String) : Prop where
  ne_empty : w ≠ ""
  plain : ∀ c ∈ w.toList, c ≠ ' ' ∧ c ≠ '\t' ∧ c ≠ '\n' ∧ c ≠ '[' ∧ c ≠ ']'
  image : w ≠ "image"

instance (w : String) : Decidable (IsWord w) :=
  have : Decidable (∀ c ∈ w.toList, c ≠ ' ' ∧ c ≠ '\t' ∧ c ≠ '\n' ∧ c ≠ '[' ∧ c ≠ ']') :=
    List.decidableBAll _ _
  decidable_of_iff (w ≠ "" ∧ (∀ c ∈ w.toList, c ≠ ' ' ∧ c ≠ '\t' ∧ c ≠ '\n' ∧ c ≠ '[' ∧ c ≠ ']') ∧
    w ≠ "image") ⟨fun ⟨h, h', h''⟩ => ⟨h, h', h''⟩, fun ⟨h, h', h''⟩ => ⟨h, h', h''⟩⟩

def Says (ts : List Token) : Option Directive → Prop
  | some d => d.Spells ts ∧ ∀ i, d ≠ .image i
  | none => Garbles ts

variable {w : String}

theorem IsWord.within (hw : IsWord w) (start : Nat) : ∀ t ∈ place start (runs w.toList),
    t.tag.endsDirective = false ∧ t.tag ≠ .leftBracket := by
  intro t ht
  have hspelled : t.Spelled := spelled_of_mem_place ht
  have hmem : ∀ c ∈ t.text, c ∈ w.toList := by
    intro c hc
    have htexts := texts_place start (runs w.toList)
    rw [flatten_runs] at htexts
    rw [← htexts]
    exact List.mem_flatMap.2 ⟨t, ht, hc⟩
  have hne {tag : Tag} {c : Char} (hc : tag.char? = some c) (hcw : c ∉ w.toList) : t.tag ≠ tag := by
    rintro rfl
    exact hcw (hmem c (by simp [hspelled.text_of_char? hc]))
  have hspace : t.tag.isInlineSpace = false := by
    refine Bool.eq_false_iff.2 fun hspace => ?_
    obtain ⟨c, cs, hcs⟩ := List.exists_cons_of_ne_nil hspelled.text_ne_nil
    have hplain := hw.plain c (hmem c (by simp [hcs]))
    rcases hspelled.blank hspace c (by simp [hcs]) with rfl | rfl
    · exact hplain.1 rfl
    · exact hplain.2.1 rfl
  have hline : t.tag.endsLine = false :=
    hspelled.endsLine_eq_false fun hc => (hw.plain _ (hmem _ hc)).2.2.1 rfl
  have hright : t.tag ≠ .rightBracket := hne rfl fun hc => (hw.plain _ hc).2.2.2.2 rfl
  refine ⟨by simp [Tag.endsDirective, hspace, hline, hright], ?_⟩
  exact hne rfl fun hc => (hw.plain _ hc).2.2.2.1 rfl

theorem IsWord.ne_space (hw : IsWord w) : ∀ c ∈ w.toList, c ≠ ' ' := fun c hc => (hw.plain c hc).1

theorem IsWord.toList_ne_nil (hw : IsWord w) : w.toList ≠ [] := by
  simpa using hw.ne_empty

theorem IsWord.says_some {d : Directive} (hw : IsWord w) (hd : d.Spells (tokenize w.toList))
    (start : Nat) : Says (place start (runs w.toList)) (some d) := by
  refine ⟨(spells_place_iff start).2 hd, ?_⟩
  rintro i rfl
  -- An image has a gap before its path.
  have hwithin := hw.within 0
  change ∀ t ∈ tokenize w.toList, _ at hwithin
  cases hts : tokenize w.toList with
  | nil =>
    rw [hts] at hd
    cases hd
  | cons t ts =>
    rw [hts] at hd hwithin
    cases hd with
    | image _ _ hi =>
      cases hi with
      | bare hgap | wide hgap =>
        have := (hwithin _ (List.mem_cons_of_mem _ List.mem_cons_self)).1
        simp [hgap, Tag.endsDirective, Tag.isInlineSpace] at this

theorem IsWord.says_none (hw : IsWord w) (h : ∀ d : Directive, ¬d.Spells (tokenize w.toList))
    (start : Nat) : Says (place start (runs w.toList)) none := by
  refine ⟨?_, fun t ht => (hw.within start t ht).1,
    fun t ht => (hw.within start t (List.mem_of_mem_head? ht)).2, ?_,
    fun d hd => h d ((spells_place_iff start).1 hd)⟩
  · intro hnil
    have htexts := texts_place start (runs w.toList)
    rw [hnil, flatten_runs] at htexts
    exact hw.toList_ne_nil htexts.symm
  · intro himage
    have htexts := texts_place start (runs w.toList)
    rw [flatten_runs, texts, himage, List.flatten_singleton] at htexts
    exact hw.image (String.toList_inj.1 htexts.symm)

theorem exists_said : ∃ said : String → Option Directive,
    ∀ w, IsWord w → ∀ start, Says (place start (runs w.toList)) (said w) := by
  have hspeaks (w : String) : ∃ said, IsWord w →
      ∀ start, Says (place start (runs w.toList)) said := by
    by_cases h : ∃ d : Directive, d.Spells (tokenize w.toList)
    · obtain ⟨d, hd⟩ := h
      exact ⟨some d, fun hw => hw.says_some hd⟩
    · exact ⟨none, fun hw => hw.says_none fun d hd => h ⟨d, hd⟩⟩
  choose said hsaid using hspeaks
  exact ⟨said, hsaid⟩

theorem Lists.speaks {gap ts us : List Token} {said : Option Directive} {ds : List Directive}
    (hgap : ∀ t ∈ gap, t.tag.isInlineSpace = true) (h : Says ts said)
    (hus : ∀ t ∈ us.head?, t.tag.isInlineSpace = true) (hrest : Lists us ds) :
    Lists (gap ++ (ts ++ us)) (said.toList ++ ds) := by
  cases said with
  | none => exact .skip hgap h hus hrest
  | some d => exact .cons hgap h.1 (fun i hi => absurd hi (h.2 i)) hus hrest

def gapped (words : List String) : List Char := words.flatMap fun w => ' ' :: w.toList

variable {words : List String} {said : String → Option Directive}

theorem gapped_head (words : List String) : ∀ c ∈ (gapped words).head?, c = ' ' := by
  cases words <;> simp [gapped]

theorem Lists.word {gap : List Token} {ds : List Directive}
    (hgap : ∀ t ∈ gap, t.tag.isInlineSpace = true) (hw : IsWord w)
    (hspeaks : ∀ start, Says (place start (runs w.toList)) (said w))
    (hrest : ∀ start, Lists (place start (runs (gapped words))) ds) (start : Nat) :
    Lists (gap ++ place start (runs (w.toList ++ gapped words))) ((said w).toList ++ ds) := by
  have hseam : ∀ a ∈ w.toList.getLast?, ∀ b ∈ (gapped words).head?, joins a b = false := by
    intro a ha b hb
    rw [gapped_head words b hb, joins_space]
    simpa using hw.ne_space a (List.mem_of_mem_getLast? ha)
  rw [runs_append hseam, place_append]
  exact .speaks hgap (hspeaks start) (isInlineSpace_head_place (gapped_head words) _) (hrest _)

theorem lists_gapped
    (hsaid : ∀ w ∈ words, IsWord w ∧ ∀ start, Says (place start (runs w.toList)) (said w))
    (start : Nat) :
    Lists (place start (runs (gapped words))) (words.flatMap fun w => (said w).toList) := by
  induction words generalizing start with
  | nil => exact .nil
  | cons w words ih =>
    obtain ⟨hw, hspeaks⟩ := hsaid w List.mem_cons_self
    have hfirst : ∀ c ∈ (w.toList ++ gapped words).head?, c ≠ ' ' := by
      rw [List.head?_append_of_ne_nil _ hw.toList_ne_nil]
      exact fun c hc => hw.ne_space c (List.mem_of_mem_head? hc)
    have htext : gapped (w :: words) = ' ' :: (w.toList ++ gapped words) := rfl
    have hgap : ∀ t ∈ [(⟨.spaces, start, [' ']⟩ : Token)], t.tag.isInlineSpace = true := by
      simp [Tag.isInlineSpace]
    rw [htext, runs_space_cons hfirst, List.flatMap_cons]
    exact .word hgap hw hspeaks (ih fun v hv => hsaid v (List.mem_cons_of_mem _ hv)) _

theorem lists_words
    (hsaid : ∀ w ∈ words, IsWord w ∧ ∀ start, Says (place start (runs w.toList)) (said w))
    (start : Nat) : Lists (place start (runs (" ".intercalate words).toList))
      (words.flatMap fun w => (said w).toList) := by
  cases words with
  | nil => exact .nil
  | cons w words =>
    obtain ⟨hw, hspeaks⟩ := hsaid w List.mem_cons_self
    have htext : (" ".intercalate (w :: words)).toList = w.toList ++ gapped words := by
      rw [String.toList_intercalate, List.map_cons]
      simp [intercalate_cons, gapped, List.flatMap_map]
    rw [htext, List.flatMap_cons]
    have hgap : ∀ t ∈ ([] : List Token), t.tag.isInlineSpace = true := by simp
    exact .word hgap hw hspeaks
      (lists_gapped fun v hv => hsaid v (List.mem_cons_of_mem _ hv)) start

end Directive

end TaskMarkup
