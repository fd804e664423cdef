import TaskMarkup.Proofs.Task.Spelling

namespace TaskMarkup

open Token Text

namespace Date

def signedYear (d : Date) : List Char := '+' :: zeroFill 4 (Nat.toDigits 10 d.year.toNat)

variable {d : Date}

theorem toList_text_of_wide (h : 9999 < d.year) : ∃ cs, d.text.toList = d.signedYear ++ '-' :: cs ∧
    ∀ c ∈ cs, c = '-' ∨ c.isDigit = true := by
  refine ⟨zeroFill 2 (Nat.toDigits 10 d.month) ++ '-' :: zeroFill 2 (Nat.toDigits 10 d.day), ?_, ?_⟩
  · have hneg : ¬d.year < 0 := by omega
    have hwide : ¬d.year ≤ 9999 := by omega
    simp [text, yearText, padded, hneg, hwide, signedYear]
  · intro c hc
    rcases List.mem_append.1 hc with hc | hc
    · exact .inr (isDigit_of_mem_zeroFill hc)
    · exact (List.mem_cons.1 hc).imp id isDigit_of_mem_zeroFill

theorem signedYear_ne_nil (d : Date) : d.signedYear ≠ [] := List.cons_ne_nil _ _

theorem isPlain_of_mem_signedYear {c : Char} (hc : c ∈ d.signedYear) : isPlain c = true := by
  rcases List.mem_cons.1 hc with rfl | hc
  · decide
  · exact isPlain_of_isDigit (isDigit_of_mem_zeroFill hc)

theorem isPlain_of_mem_text (h : 9999 < d.year) {c : Char} (hc : c ∈ d.text.toList) :
    c = '-' ∨ isPlain c = true := by
  obtain ⟨cs, htext, hcs⟩ := toList_text_of_wide h
  rw [htext, List.mem_append, List.mem_cons] at hc
  rcases hc with hc | hc | hc
  · exact .inr (isPlain_of_mem_signedYear hc)
  · exact .inl hc
  · exact (hcs c hc).imp id isPlain_of_isDigit

theorem tag_signedYear (d : Date) : Tag.ofRun d.signedYear ≠ .number := by
  have hsign : '+'.isDigit = false := rfl
  rw [Tag.ofRun_of_isPlain d.signedYear_ne_nil fun c => isPlain_of_mem_signedYear]
  simp [isNumeral, signedYear, hsign]

end Date

namespace Directive

theorem garbles_of_wide {word : List Char} {date : Date}
    (hword : word = "created".toList ∨ word = "due".toList) (hwide : 9999 < date.year)
    (start : Nat) : Garbles (place start (runs (word ++ ':' :: date.text.toList))) := by
  obtain ⟨cs, htext, -⟩ := Date.toList_text_of_wide hwide
  have hruns : runs date.text.toList = date.signedYear :: ['-'] :: runs cs := by
    rw [htext, runs_append_cons (c := '-') rfl,
      runs_of_isPlain date.signedYear_ne_nil fun c => Date.isPlain_of_mem_signedYear]
    rfl
  have hends (n : Nat) : ∀ u ∈ place n (runs date.text.toList), u.tag.endsDirective = false := by
    intro u hu
    have hsub : ∀ c ∈ u.text, c = '-' ∨ isPlain c = true := by
      intro c hc
      apply Date.isPlain_of_mem_text hwide
      have htexts := texts_place n (runs date.text.toList)
      rw [flatten_runs] at htexts
      rw [← htexts]
      exact List.mem_flatMap.2 ⟨u, hu, hc⟩
    refine (Image.plain_of_shields (spelled_of_mem_place hu) (fun hc => ?_) fun c hc => ?_).1
    · exact absurd (hsub _ hc) (by decide)
    · rcases hsub c hc with rfl | hplain
      · rfl
      · by_contra hspecial
        have := Image.not_isPlain_of_isSpecial c (by simpa using hspecial)
        rw [hplain] at this
        contradiction
  have hrun : runs word = [word] ∧ Tag.ofRun word = .word := by
    rcases hword with rfl | rfl <;> exact ⟨by decide, by decide⟩
  have hend := hends (start + byteSize word + byteSize [':'])
  rw [runs_append_cons (c := ':') rfl, hrun.1, hruns]
  rw [hruns] at hend
  exact .of_date hrun.2 hword rfl date.tag_signedYear hend

end Directive

namespace Image

variable {i : Image} {name : String} {path : List Char}

theorem legible_merged (hname : isTagName name.toList = true) :
    (Directive.image (i.merged name)).Legible true := by
  obtain ⟨hne, hplain⟩ := isPlain_of_isTagName hname
  have hlast : name.toList.getLast? ≠ some ' ' := by
    intro hspace
    have := hplain ' ' (List.mem_of_getLast? hspace)
    simp [isPlain] at this
  unfold merged
  split
  · refine fun _ => ⟨?_, fun _ => ?_⟩
    · simp only [String.toList_append]
      rwa [List.getLast?_append_of_ne_nil _ hne]
    · have hat : '@'.isDigit = false := rfl
      simp [isNumeral, hat]
  · refine fun _ => ⟨?_, by simp⟩
    simp only [String.toList_append]
    rwa [List.getLast?_append_of_ne_nil _ hne]

theorem path_tag (hname : isTagName name.toList = true) (start : Nat) :
    Path (place start (runs ('@' :: name.toList))) ('@' :: name.toList) := by
  obtain ⟨hne, hplain⟩ := isPlain_of_isTagName hname
  have htag : Tag.ofRun name.toList = .word ∨ Tag.ofRun name.toList = .number := by
    rw [Tag.ofRun_of_isPlain hne hplain]
    split <;> simp
  rw [runs_cons (c := '@') rfl, runs_of_isPlain hne hplain]
  have hpath (n : Nat) : Path (place n [name.toList]) (name.toList ++ []) := by
    refine .plain ?_ ?_ .nil
    · rcases htag with htag | htag <;>
        simp [htag, Tag.endsDirective, Tag.isInlineSpace, Tag.endsLine]
    · rcases htag with htag | htag <;> simp [htag]
  rw [List.append_nil] at hpath
  exact .plain rfl (show Tag.at ≠ .backslash by decide) (hpath _)

theorem path_append_tag (hlast : path.getLast? = some ' ') (hline : '\n' ∉ path)
    (hname : isTagName name.toList = true) (start : Nat) :
    Path (place start (runs (escapePath path ++ ' ' :: '@' :: name.toList)))
      (path ++ ' ' :: '@' :: name.toList) := by
  obtain ⟨path, rfl⟩ := List.getLast?_eq_some_iff.1 hlast
  have hescape : escapePath (path ++ [' ']) = escapePath path ++ ['\\', ' '] := by
    simp [escapePath_eq_shield, shield, isSpecial]
  have hspaces : runs (' ' :: ' ' :: '@' :: name.toList) =
      [' ', ' '] :: runs ('@' :: name.toList) := by
    rw [runs_cons (c := '@') rfl]
    exact runs_append_cons (c := '@') rfl [' ', ' '] name.toList
  rw [hescape, List.append_assoc, List.cons_append, List.singleton_append,
    runs_append_cons (c := '\\') rfl, hspaces, place_append, List.append_assoc]
  rw [List.mem_append, not_or] at hline
  exact (path_escapePath hline.1 start).append (.escaped rfl rfl (path_tag hname _))

theorem spells_merged (hi : (Directive.image i).Written) (hlegible : ¬(Directive.image i).Legible true)
    (hname : isTagName name.toList = true) (start : Nat) :
    Directive.Spells (place start (runs (i.directive.toList ++ ' ' :: '@' :: name.toList)))
      (.image (i.merged name)) := by
  obtain ⟨hne, hline, hwidth⟩ := hi
  rw [toList_directive, List.append_assoc, List.cons_append, List.append_assoc, runs_image]
  refine .image rfl rfl ?_
  unfold merged
  split
  · next hlast =>
    have hescape : escapePath i.path.toList ≠ [] := by
      rw [Ne, ← List.getLast?_eq_none_iff, getLast?_escapePath, hlast]
      exact Option.some_ne_none _
    refine spells_of_path (i := { i with path := i.path ++ " @" ++ name }) hwidth ?_ ?_ ?_ _
    · rw [List.head?_append_of_ne_nil _ hescape]
      exact escapePath_ne_space
    · intro n
      simpa using path_append_tag hlast hline hname n
    · simp [hne]
  · next hlast =>
    -- The path has no width before it, and looks like one.
    obtain ⟨hnone, hnumeral⟩ : i.width = none ∧ isNumeral i.path.toList = true := by
      by_contra hno
      refine hlegible fun _ => ⟨hlast, fun hnone => ?_⟩
      by_contra hnumeral
      exact hno ⟨hnone, by simpa using hnumeral⟩
    have hempty : i.widthText = [] := by rw [widthText, hnone]
    rw [hempty, List.nil_append, escapePath_of_isNumeral hnumeral]
    refine spells_wide hnumeral (by simp) (fun n => ?_) (by simp) _
    simpa using path_tag hname n

end Image

namespace Directive

def behind (ds : List Directive) : List Char := ds.flatMap fun d => ' ' :: d.text.toList

variable {d : Directive} {ds hs : List Directive} {cs : List Char}

theorem behind_cons (d : Directive) (ds : List Directive) :
    behind (d :: ds) = ' ' :: (d.text.toList ++ behind ds) := rfl

theorem isInlineSpace_head_behind (start : Nat) :
    ∀ t ∈ (place start (runs (behind ds))).head?, t.tag.isInlineSpace = true := by
  apply isInlineSpace_head_place
  cases ds <;> simp [behind]

theorem exists_place_behind (ds : List Directive) (hne : cs ≠ []) (hfirst : ∀ c ∈ cs.head?, c ≠ ' ')
    (hlast : ds ≠ [] → ∀ c ∈ cs.getLast?, c ≠ ' ') (start : Nat) :
    ∃ m n, place start (runs (' ' :: (cs ++ behind ds))) =
      [⟨.spaces, start, [' ']⟩] ++ (place m (runs cs) ++ place n (runs (behind ds))) := by
  have happend : runs (cs ++ behind ds) = runs cs ++ runs (behind ds) := by
    apply runs_append
    intro a ha b hb
    cases ds with
    | nil => simp [behind] at hb
    | cons e ds =>
      obtain rfl : ' ' = b := by simpa [behind] using hb
      rw [joins_space]
      simpa using hlast (List.cons_ne_nil _ _) a ha
  have hfirst' : ∀ c ∈ (cs ++ behind ds).head?, c ≠ ' ' := by
    rwa [List.head?_append_of_ne_nil _ hne]
  rw [runs_space_cons hfirst', happend, place, place_append]
  exact ⟨_, _, rfl⟩

theorem legible_behind (h : d.Legible (!ds.isEmpty)) (n : Nat) :
    d.Legible (!(place n (runs (behind ds))).isEmpty) := by
  cases ds with
  | nil => exact h
  | cons => exact h.of_true _

theorem ne_space_of_wide {word : List Char} {date : Date}
    (hword : word = "created".toList ∨ word = "due".toList) (hwide : 9999 < date.year) :
    ∀ c ∈ word ++ ':' :: date.text.toList, c ≠ ' ' := by
  rintro _ hc rfl
  rw [List.mem_append, List.mem_cons] at hc
  rcases hc with hc | hc | hc
  · rcases hword with rfl | rfl <;> simp at hc
  · contradiction
  · exact absurd (Date.isPlain_of_mem_text hwide hc) (by decide)

theorem Hears.lists (h : Hears ds hs) (hds : ∀ d ∈ ds, d.Written) (start : Nat) :
    Lists (place start (runs (behind ds))) hs := by
  have hgap (start : Nat) : ∀ t ∈ [(⟨.spaces, start, [' ']⟩ : Token)], t.tag.isInlineSpace = true := by
    simp [Tag.isInlineSpace]
  have hskip {word : List Char} {date : Date} {ds hs : List Directive}
      (hword : word = "created".toList ∨ word = "due".toList) (hwide : 9999 < date.year)
      (ih : ∀ start, Lists (place start (runs (behind ds))) hs) (start : Nat) :
      Lists (place start (runs (' ' :: ((word ++ ':' :: date.text.toList) ++ behind ds)))) hs := by
    have hspace := ne_space_of_wide hword hwide
    obtain ⟨m, n, hplace⟩ := exists_place_behind ds (by simp)
      (fun c hc => hspace c (List.mem_of_mem_head? hc))
      (fun _ c hc => hspace c (List.mem_of_mem_getLast? hc)) start
    rw [hplace]
    exact .skip (hgap start) (garbles_of_wide hword hwide m) (isInlineSpace_head_behind n) (ih n)
  induction h generalizing start with
  | nil => exact .nil
  | @heard d ds hs hlegible h ih =>
    have hd := hds _ List.mem_cons_self
    obtain ⟨c, cs, htext, hc⟩ := d.exists_text_eq
    have hlast : ds ≠ [] → ∀ c ∈ d.text.toList.getLast?, c ≠ ' ' := fun hne =>
      getLast?_text_ne_space hd (by simpa [List.isEmpty_eq_false_iff.2 hne] using hlegible)
    obtain ⟨m, n, hplace⟩ := exists_place_behind ds (by simp [htext]) (by simpa [htext] using hc) hlast
      start
    rw [behind_cons, hplace]
    exact .cons (hgap start) (spells_text hd hlegible m) (fun _ _ => legible_behind hlegible n)
      (isInlineSpace_head_behind n) (ih (fun e he => hds e (List.mem_cons_of_mem _ he)) n)
  | created hwide h ih =>
    rw [behind_cons, text_created]
    exact hskip (.inl rfl) hwide (ih fun e he => hds e (List.mem_cons_of_mem _ he)) start
  | due hwide h ih =>
    rw [behind_cons, text_due]
    exact hskip (.inr rfl) hwide (ih fun e he => hds e (List.mem_cons_of_mem _ he)) start
  | @merged i name ds hs hlegible h ih =>
    have hi := hds _ List.mem_cons_self
    have hname : isTagName name.toList = true := hds (.tag name) (by simp)
    obtain ⟨hne, hplain⟩ := isPlain_of_isTagName hname
    have htext : behind (.image i :: .tag name :: ds) =
        ' ' :: ((i.directive.toList ++ ' ' :: '@' :: name.toList) ++ behind ds) := by
      simp [behind, text]
    have hfirst : ∀ c ∈ (i.directive.toList ++ ' ' :: '@' :: name.toList).head?, c ≠ ' ' := by
      rw [Image.toList_directive]
      simp
    have hlast : ∀ c ∈ (i.directive.toList ++ ' ' :: '@' :: name.toList).getLast?, c ≠ ' ' := by
      rw [List.getLast?_append_cons, List.getLast?_cons_cons, List.getLast?_cons_of_ne_nil hne]
      exact fun c hc => (ofChar?_of_isPlain (hplain c (List.mem_of_mem_getLast? hc))).1
    obtain ⟨m, n, hplace⟩ := exists_place_behind ds (by simp) hfirst (fun _ => hlast) start
    rw [htext, hplace]
    exact .cons (hgap start) (Image.spells_merged hi hlegible hname m)
      (fun _ _ => (Image.legible_merged hname).of_true _) (isInlineSpace_head_behind n)
      (ih (fun e he => hds e (by simp [he])) n)

theorem intercalate_text (d : Directive) (ds : List Directive) :
    ' ' :: (" ".intercalate ((d :: ds).map text)).toList = behind (d :: ds) := by
  rw [String.toList_intercalate, List.map_cons, List.map_cons]
  simp [intercalate_cons, behind, List.flatMap_map]

end Directive

theorem Task.exists_markup_eq {t : Task} (h : t.Written) :
    ∃ cs, t.markup.toList = '[' :: cs ++ [']'] ∧
      Directive.Lists (place 1 (runs cs)) t.heard.stated := by
  refine ⟨(" ".intercalate t.directives).toList, by simp [markup], ?_⟩
  have hhears := t.hears_stated
  rw [directives_eq_map_text]
  cases hstated : t.stated with
  | nil =>
    rw [hstated] at hhears
    generalize t.heard.stated = hs at hhears
    cases hhears
    exact .nil
  | cons d ds =>
    -- The space before the first directive is not there.
    have hlists := hhears.lists h.stated 0
    have hfirst : ∀ c ∈ (" ".intercalate ((d :: ds).map Directive.text)).toList.head?, c ≠ ' ' := by
      obtain ⟨c, cs, htext, hc⟩ := d.exists_text_eq
      have hhead := Directive.intercalate_text d ds
      rw [Directive.behind_cons, htext, List.cons_append] at hhead
      rw [(List.cons.inj hhead).2]
      simpa using hc
    rw [hstated, ← Directive.intercalate_text, runs_space_cons hfirst] at hlists
    exact hlists.of_cons rfl

end TaskMarkup
