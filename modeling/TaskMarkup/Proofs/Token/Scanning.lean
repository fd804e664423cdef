import TaskMarkup.Proofs.Token.Spelling

/-!
What singles out the token list of a text. A lexical rule matches some texts; a scanner takes at each
place the longest text that any rule matches, a number before a word. The list of its tokens is also
the only one that tiles the text with a token for each reserved character, for each maximal run of
spaces and for each maximal run of other characters.
-/

namespace TaskMarkup

namespace Text

variable {cs : List Char} {ra rb : List (List Char)}

theorem eq_nil_or_head?_flatten (h : [] ∉ rb) : rb = [] ∨ ∃ run rb', rb = run :: rb' ∧
    rb.flatten.head? = run.head? := by
  cases rb with
  | nil => exact .inl rfl
  | cons run rb =>
    cases run with
    | nil => simp at h
    | cons c run => exact .inr ⟨_, _, rfl, rfl⟩

theorem eq_nil_or_getLast?_flatten (h : [] ∉ ra) : ra = [] ∨ ∃ ra' run, ra = ra' ++ [run] ∧
    ra.flatten.getLast? = run.getLast? := by
  rcases List.eq_nil_or_concat ra with rfl | ⟨ra', run, rfl⟩
  · exact .inl rfl
  · have hrun : run ≠ [] := by
      rintro rfl
      simp at h
    refine .inr ⟨ra', run, List.concat_eq_append, ?_⟩
    rw [List.concat_eq_append, List.flatten_append, List.flatten_singleton,
      List.getLast?_append_of_ne_nil _ hrun]

theorem joins_eq_false_of_runs_eq_append (h : runs cs = ra ++ rb) :
    ∀ a ∈ ra.flatten.getLast?, ∀ b ∈ rb.flatten.head?, joins a b = false := by
  intro a ha b hb
  obtain ⟨-, hn, -, hchain⟩ := List.splitBy_eq_iff.1 h
  rw [List.mem_append, not_or] at hn
  rcases eq_nil_or_getLast?_flatten hn.1 with rfl | ⟨ra', run, rfl, hlast⟩
  · simp at ha
  rcases eq_nil_or_head?_flatten hn.2 with rfl | ⟨run', rb', rfl, hhead⟩
  · simp at hb
  rw [hlast] at ha
  rw [hhead] at hb
  obtain ⟨hrun, hrun', hjoins⟩ := (List.isChain_append.1 hchain).2.2 run (by simp) run' (by simp)
  rw [List.getLast?_eq_some_getLast hrun, Option.mem_some_iff] at ha
  rw [List.head?_eq_some_head hrun', Option.mem_some_iff] at hb
  rw [← ha, ← hb]
  exact hjoins

theorem runs_of_isChain (hne : cs ≠ []) (h : cs.IsChain fun a b => joins a b) : runs cs = [cs] :=
  List.splitBy_of_isChain hne h

end Text

/-- The lexical rules: the texts that a tag may stand for. -/
inductive Tag.Matches : Tag → List Char → Prop
  | reserved {tag : Tag} {c : Char} : tag.char? = some c → Matches tag [c]
  | spaces {w : List Char} : w ≠ [] → (∀ c ∈ w, c = ' ') → Matches .spaces w
  | number {w : List Char} : Text.isNumeral w = true → Matches .number w
  | word {w : List Char} : w ≠ [] → (∀ c ∈ w, Text.isPlain c = true) → Matches .word w

def Tag.priority : Tag → Nat
  | .number => 3
  | _ => 2

/-- The longest text at the start of `w ++ rest` that any rule matches is `w`, and `tag` is the first
of the rules that match it. -/
structure Tag.Munches (tag : Tag) (w rest : List Char) : Prop where
  matching : tag.Matches w
  longest {tag' : Tag} {w' rest' : List Char} :
    tag'.Matches w' → w' ++ rest' = w ++ rest → w'.length ≤ w.length
  first {tag' : Tag} : tag'.Matches w → tag'.priority ≤ tag.priority

inductive Scans : Nat → List Char → List Token → Prop
  | nil {start : Nat} : Scans start [] []
  | cons {start : Nat} {tag : Tag} {w rest : List Char} {ts : List Token} :
    tag.Munches w rest → Scans (start + Text.byteSize w) rest ts →
    Scans start (w ++ rest) (⟨tag, start, w⟩ :: ts)

def Token.Tile : Nat → List Token → List Char → Prop
  | _, [], cs => cs = []
  | start, t :: ts, cs =>
    t.start = start ∧ t.text ≠ [] ∧ ∃ rest, cs = t.text ++ rest ∧ Tile t.stop ts rest

structure Text.MaximalRun (p : Char → Bool) (before run after : List Char) : Prop where
  ne_nil : run ≠ []
  all : ∀ c ∈ run, p c = true
  before : ∀ c ∈ before.getLast?, p c = false
  after : ∀ c ∈ after.head?, p c = false

structure Tokenized (cs : List Char) (ts : List Token) : Prop where
  tile : Token.Tile 0 ts cs
  reserved {before after : List Char} {c : Char} {tag : Tag} : cs = before ++ c :: after →
    Tag.ofChar? c = some tag → ⟨tag, Text.byteSize before, [c]⟩ ∈ ts
  spaces {before run after : List Char} : cs = before ++ run ++ after →
    Text.MaximalRun (· == ' ') before run after → ⟨.spaces, Text.byteSize before, run⟩ ∈ ts
  plain {before run after : List Char} : cs = before ++ run ++ after →
    Text.MaximalRun Text.isPlain before run after →
    ⟨if Text.isNumeral run then .number else .word, Text.byteSize before, run⟩ ∈ ts
  value {t : Token} : t ∈ ts →
    t.value? = (if Text.isNumeral t.text then some (Text.decimal t.text) else none) ∧
      ∀ n ∈ t.value?, n < 10 ^ 8

namespace Tag

variable {tag tag' : Tag} {w rest : List Char} {b : Char}

theorem Matches.isPlain_of_isNumeral (h : Text.isNumeral w = true) :
    ∀ c ∈ w, Text.isPlain c = true := by
  simp only [Text.isNumeral, Bool.and_eq_true, List.all_eq_true] at h
  exact fun c hc => Text.isPlain_of_isDigit (h.2 c hc)

namespace Matches

theorem ne_nil (h : tag.Matches w) : w ≠ [] := by
  cases h with
  | reserved => simp
  | spaces hne => exact hne
  | number h =>
    rintro rfl
    simp [Text.isNumeral] at h
  | word hne => exact hne

theorem runs_eq (h : tag.Matches w) : Text.runs w = [w] := by
  cases h with
  | reserved => rfl
  | spaces hne hall =>
    refine Text.runs_of_isChain hne ?_
    rw [List.eq_replicate_of_mem hall]
    exact List.isChain_replicate_of_rel _ (by decide)
  | number h => exact Text.runs_of_isPlain (number h).ne_nil (isPlain_of_isNumeral h)
  | word hne hall => exact Text.runs_of_isPlain hne hall

theorem append (h : tag.Matches w) (hj : ∀ a ∈ w.getLast?, Text.joins a b = true) :
    ∃ tag' : Tag, tag'.Matches (w ++ [b]) := by
  obtain ⟨a, ha⟩ := Option.ne_none_iff_exists'.1 (mt List.getLast?_eq_none_iff.1 h.ne_nil)
  have hmem : a ∈ w := List.mem_of_getLast? ha
  have hplain (hw : ∀ c ∈ w, Text.isPlain c = true) : Matches .word (w ++ [b]) := by
    have hspace : a ≠ ' ' := (Text.ofChar?_of_isPlain (hw a hmem)).1
    have hb : Text.isPlain b = true := by simpa [Text.joins, hspace, hw a hmem] using hj a ha
    refine word (by simp) fun c hc => ?_
    rcases List.mem_append.1 hc with hc | hc
    · exact hw c hc
    · rw [List.mem_singleton.1 hc, hb]
  cases h with
  | @reserved _ c hc =>
    have := Text.joins_eq_false_of_reserved (Tag.ofChar?_eq_some_iff.2 hc) b
    simp [this] at hj
  | spaces _ hall =>
    obtain rfl := hall a hmem
    have hb : b = ' ' := by
      simpa [Text.joins_comm, Text.joins_space] using hj ' ' ha
    refine ⟨.spaces, spaces (by simp) fun c hc => ?_⟩
    rcases List.mem_append.1 hc with hc | hc
    · exact hall c hc
    · rw [List.mem_singleton.1 hc, hb]
  | number h => exact ⟨.word, hplain (isPlain_of_isNumeral h)⟩
  | word _ hall => exact ⟨.word, hplain hall⟩

theorem le_priority_ofRun (h : tag.Matches w) : tag.priority ≤ (ofRun w).priority := by
  cases h with
  | reserved hc => rw [ofRun_reserved (ofChar?_eq_some_iff.2 hc)]
  | spaces hne hall =>
    obtain ⟨c, w, rfl⟩ := List.exists_cons_of_ne_nil hne
    obtain rfl := hall c (by simp)
    rfl
  | number h => rw [ofRun_of_isPlain (number h).ne_nil (isPlain_of_isNumeral h), if_pos h]
  | word hne hall =>
    rw [ofRun_of_isPlain hne hall]
    split <;> decide

theorem eq_ofRun (h : tag.Matches w) (hp : (ofRun w).priority ≤ tag.priority) :
    tag = ofRun w := by
  cases h with
  | reserved hc => rw [ofRun_reserved (ofChar?_eq_some_iff.2 hc)]
  | spaces hne hall =>
    obtain ⟨c, w, rfl⟩ := List.exists_cons_of_ne_nil hne
    obtain rfl := hall c (by simp)
    rfl
  | number h => rw [ofRun_of_isPlain (number h).ne_nil (isPlain_of_isNumeral h), if_pos h]
  | word hne hall =>
    rw [ofRun_of_isPlain hne hall] at hp ⊢
    split at hp
    · simp [priority] at hp
    · next h => rw [if_neg h]

end Matches

theorem Munches.runs_eq (h : tag.Munches w rest) :
    Text.runs (w ++ rest) = w :: Text.runs rest := by
  rw [Text.runs_append, h.matching.runs_eq]
  · rfl
  · intro a ha b hb
    by_contra hj
    rw [Bool.not_eq_false] at hj
    obtain ⟨rest', rfl⟩ := List.head?_eq_some_iff.1 hb
    have hlast : ∀ a' ∈ w.getLast?, Text.joins a' b = true := by
      intro a' ha'
      rw [Option.mem_unique ha' ha, hj]
    obtain ⟨tag', htag'⟩ := h.matching.append hlast
    have hlen := h.longest htag' (List.append_cons w b rest').symm
    simp only [List.length_append, List.length_singleton] at hlen
    omega

theorem Munches.eq_ofRun (h : tag.Munches w rest) (hw : (ofRun w).Matches w) : tag = ofRun w :=
  h.matching.eq_ofRun (h.first hw)

end Tag

theorem Token.Spelled.matches_text {t : Token} (h : t.Spelled) : t.tag.Matches t.text := by
  cases h with
  | reserved hc ht =>
    rw [ht]
    exact .reserved (Tag.ofChar?_eq_some_iff.1 hc)
  | spaces ht hne hall =>
    rw [ht]
    exact .spaces hne hall
  | plain ht hne hall hnum =>
    rcases ht with ht | ht
    · rw [ht]
      exact .number (hnum.1 ht)
    · rw [ht]
      exact .word hne hall

variable {cs run : List Char} {rs : List (List Char)} {start : Nat} {ts us : List Token}

theorem Tag.matches_ofRun (h : run ∈ Text.runs cs) : (ofRun run).Matches run := by
  obtain ⟨ra, rb, hr⟩ := List.append_of_mem h
  have hmem : (⟨ofRun run, Text.byteSize ra.flatten, run⟩ : Token) ∈ tokenize cs := by
    rw [tokenize, hr, Token.place_append]
    simp [Token.place]
  exact (spelled_of_mem_tokenize hmem).matches_text

theorem Tag.munches_ofRun (h : Text.runs cs = run :: rs) :
    (ofRun run).Munches run rs.flatten where
  matching := matches_ofRun (h ▸ List.mem_cons_self)
  longest {tag' w' rest'} hw' happ := by
    by_contra hlt
    rw [Nat.not_le] at hlt
    rcases List.append_eq_append_iff.1 happ with ⟨v, rfl, -⟩ | ⟨v, rfl, hv⟩
    · simp only [List.length_append] at hlt
      omega
    -- The longer text would be one run, but the text is cut inside it.
    · have hmatch : (ofRun run).Matches run := matches_ofRun (h ▸ List.mem_cons_self)
      rw [← List.singleton_append] at h
      have hcut := Text.joins_eq_false_of_runs_eq_append h
      have hjoins : ∀ a ∈ run.getLast?, ∀ b ∈ v.head?, Text.joins a b = false := by
        intro a ha b hb
        refine hcut a (by simpa using ha) b ?_
        rw [hv, List.head?_append, hb]
        rfl
      have hruns := hw'.runs_eq
      rw [Text.runs_append hjoins, hmatch.runs_eq] at hruns
      have hrun := congrArg List.length (List.cons.inj hruns).1
      omega
  first hw' := hw'.le_priority_ofRun

theorem Scans.place : Scans start (Text.runs cs).flatten (Token.place start (Text.runs cs)) := by
  generalize hr : Text.runs cs = rs
  induction rs generalizing cs start with
  | nil => exact nil
  | cons run rs ih =>
    have hsplit : Text.runs cs = [run] ++ rs := hr
    have hrest := (Text.runs_of_runs_eq_append hsplit).2
    exact cons (Tag.munches_ofRun hr) (ih hrest)

theorem Scans.eq_place (h : Scans start cs ts) : ts = Token.place start (Text.runs cs) := by
  induction h with
  | nil => rfl
  | cons hw _ ih =>
    have hruns := hw.runs_eq
    rw [hruns, Token.place, ← ih, hw.eq_ofRun (Tag.matches_ofRun (by rw [hruns]; simp))]

theorem scans_iff : Scans 0 cs ts ↔ ts = tokenize cs := by
  constructor
  · exact Scans.eq_place
  · rintro rfl
    have hscans : Scans 0 (Text.runs cs).flatten (tokenize cs) := Scans.place
    rwa [Text.flatten_runs] at hscans

theorem Scans.tile (h : Scans start cs ts) : Token.Tile start ts cs := by
  induction h with
  | nil => rfl
  | cons hw _ ih => exact ⟨rfl, hw.matching.ne_nil, _, rfl, ih⟩

namespace Token.Tile

theorem lt_stop {t : Token} (h : t.text ≠ []) : t.start < t.stop := by
  have := mt Text.byteSize_eq_zero_iff.1 h
  simp only [stop, size]
  omega

theorem start_le (h : Tile start ts cs) : ∀ t ∈ ts, start ≤ t.start := by
  induction ts generalizing start cs with
  | nil => simp
  | cons t ts ih =>
    obtain ⟨hstart, hne, rest, rfl, hts⟩ := h
    intro u hu
    rcases List.mem_cons.1 hu with rfl | hu
    · exact Nat.le_of_eq hstart.symm
    · have := ih hts u hu
      have := lt_stop hne
      omega

theorem eq_of_subset (h : Tile start ts cs) (h' : Tile start us cs) (hs : us ⊆ ts) : ts = us := by
  induction us generalizing start ts cs with
  | nil =>
    cases ts with
    | nil => rfl
    | cons t ts =>
      obtain ⟨-, hne, rest, hcs, -⟩ := h
      rw [h'] at hcs
      exact absurd (List.append_eq_nil_iff.1 hcs.symm).1 hne
  | cons u us ih =>
    obtain ⟨hu, hne, rest, rfl, hus⟩ := h'
    cases ts with
    | nil => simp at hs
    | cons t ts =>
      obtain ⟨ht, hne', rest', hcs, hts⟩ := h
      -- What stands behind a token starts behind it, so the first tokens are the same.
      have hut : u = t := by
        rcases List.mem_cons.1 (hs (List.mem_cons_self ..)) with hut | hut
        · exact hut
        · have := start_le hts u hut
          have := lt_stop hne'
          omega
      subst hut
      obtain rfl := List.append_cancel_left hcs
      have hsub : us ⊆ ts := by
        intro v hv
        rcases List.mem_cons.1 (hs (List.mem_cons_of_mem _ hv)) with rfl | hv'
        · have := start_le hus v hv
          have := lt_stop hne
          omega
        · exact hv'
      rw [ih hts hus hsub]

end Token.Tile

variable {before after : List Char}

theorem mem_tokenize_of_runs (h : Text.runs cs = Text.runs before ++ run :: Text.runs after) :
    ⟨Tag.ofRun run, Text.byteSize before, run⟩ ∈ tokenize cs := by
  rw [tokenize, h, Token.place_append, Text.flatten_runs]
  simp [Token.place]

theorem mem_tokenize_of_not_joins (hrun : Text.runs run = [run])
    (hb : ∀ a ∈ before.getLast?, ∀ b ∈ run.head?, Text.joins a b = false)
    (ha : ∀ a ∈ run.getLast?, ∀ b ∈ after.head?, Text.joins a b = false) :
    ⟨Tag.ofRun run, Text.byteSize before, run⟩ ∈ tokenize (before ++ run ++ after) := by
  refine mem_tokenize_of_runs (?_ : _ = _ ++ _ :: Text.runs after)
  have hb' : ∀ a ∈ before.getLast?, ∀ b ∈ (run ++ after).head?, Text.joins a b = false := by
    have hne : run ≠ [] := by
      rintro rfl
      simp at hrun
    rw [List.head?_append_of_ne_nil _ hne]
    exact hb
  rw [List.append_assoc, Text.runs_append hb', Text.runs_append ha, hrun]
  rfl

namespace Text.MaximalRun

variable {p : Char → Bool}

theorem not_joins (h : MaximalRun p before run after)
    (hp : ∀ a b, p a ≠ p b → joins a b = false) :
    (∀ a ∈ before.getLast?, ∀ b ∈ run.head?, joins a b = false) ∧
      ∀ a ∈ run.getLast?, ∀ b ∈ after.head?, joins a b = false := by
  constructor
  · intro a ha b hb
    apply hp
    simp [h.before a ha, h.all b (List.mem_of_mem_head? hb)]
  · intro a ha b hb
    apply hp
    simp [h.all a (List.mem_of_getLast? ha), h.after b hb]

end Text.MaximalRun

theorem Text.joins_eq_false_of_space {a b : Char} (h : (a == ' ') ≠ (b == ' ')) :
    joins a b = false := by
  by_cases ha : a = ' '
  · subst ha
    rw [joins_comm, joins_space]
    exact Bool.eq_false_iff.2 fun hb => h (by rw [hb]; rfl)
  · have hb : b = ' ' := by simpa [ha] using h
    rw [hb, joins_space]
    simpa using ha

theorem Text.joins_eq_false_of_isPlain {a b : Char} (h : isPlain a ≠ isPlain b) :
    joins a b = false := by
  by_contra hj
  rw [Bool.not_eq_false, joins, Bool.or_eq_true, Bool.and_eq_true, Bool.and_eq_true, beq_iff_eq,
    beq_iff_eq] at hj
  rcases hj with ⟨rfl, rfl⟩ | ⟨ha, hb⟩
  · exact h rfl
  · exact h (ha.trans hb.symm)

namespace Token.Spelled

variable {t : Token}

theorem tag_eq_number_iff (h : t.Spelled) : t.tag = .number ↔ Text.isNumeral t.text = true := by
  have hplain (hn : Text.isNumeral t.text = true) {c : Char} (hc : c ∈ t.text) :=
    Text.ofChar?_of_isPlain (Tag.Matches.isPlain_of_isNumeral hn c hc)
  cases h with
  | reserved hc ht =>
    constructor
    · intro hn
      simp [Tag.ofChar?_eq_some_iff, hn, Tag.char?] at hc
    · intro hn
      simp [(hplain hn (ht ▸ List.mem_singleton_self _)).2] at hc
  | spaces ht hne hall =>
    constructor
    · simp [ht]
    · intro hn
      obtain ⟨c, hc⟩ := List.exists_mem_of_ne_nil _ hne
      exact absurd (hall c hc) (hplain hn hc).1
  | plain _ _ _ hn => exact hn

theorem value?_eq (h : t.Spelled) :
    t.value? = (if Text.isNumeral t.text then some (Text.decimal t.text) else none) ∧
      ∀ n ∈ t.value?, n < 10 ^ 8 := by
  constructor
  · simp only [value?, h.tag_eq_number_iff]
  · intro n hn
    have ht : t.tag = .number := by
      by_contra ht
      simp [value?, ht] at hn
    have := h.value_lt ht
    rwa [Option.mem_def.1 hn] at this

end Token.Spelled

theorem tokenized_tokenize (cs : List Char) : Tokenized cs (tokenize cs) where
  tile := (scans_iff.2 rfl).tile
  reserved {before after c tag} hcs hc := by
    have := mem_tokenize_of_runs (Text.runs_append_cons hc before after)
    rwa [Tag.ofRun_reserved hc, ← hcs] at this
  spaces {before run after} hcs h := by
    have hmatch : Tag.spaces.Matches run := .spaces h.ne_nil (by simpa using h.all)
    obtain ⟨hb, ha⟩ := h.not_joins fun _ _ => Text.joins_eq_false_of_space
    have hmem := mem_tokenize_of_not_joins hmatch.runs_eq hb ha
    have htag : Tag.spaces = Tag.ofRun run := by
      obtain ⟨c, run, rfl⟩ := List.exists_cons_of_ne_nil h.ne_nil
      obtain rfl : c = ' ' := by simpa using h.all c (by simp)
      rfl
    rwa [← htag, ← hcs] at hmem
  plain {before run after} hcs h := by
    obtain ⟨hb, ha⟩ := h.not_joins fun _ _ => Text.joins_eq_false_of_isPlain
    have hmem := mem_tokenize_of_not_joins (Text.runs_of_isPlain h.ne_nil h.all) hb ha
    rwa [Tag.ofRun_of_isPlain h.ne_nil h.all, ← hcs] at hmem
  value ht := (spelled_of_mem_tokenize ht).value?_eq

theorem joins_eq_false_of_tokenize_eq_append {as bs : List Token} (h : tokenize cs = as ++ bs) :
    ∀ a ∈ (Token.texts as).getLast?, ∀ b ∈ (Token.texts bs).head?, Text.joins a b = false := by
  obtain ⟨ra, rb, hr, rfl, rfl⟩ := Token.place_eq_append h
  simpa using Text.joins_eq_false_of_runs_eq_append hr

theorem maximalRun_of_tokenize {as bs : List Token} {t : Token} {p : Char → Bool}
    (h : tokenize cs = as ++ t :: bs) (ht : ∀ c ∈ t.text, p c = true)
    (hp : ∀ a b, p a = true → p b = true → Text.joins a b = true) :
    Text.MaximalRun p (Token.texts as) t.text (Token.texts bs) := by
  have hspelled : t.Spelled := spelled_of_mem_tokenize (h ▸ List.mem_append_cons_self)
  have hbefore := joins_eq_false_of_tokenize_eq_append h
  have hafter := joins_eq_false_of_tokenize_eq_append (h.trans (List.append_cons as t bs))
  obtain ⟨a, ha⟩ := Option.ne_none_iff_exists'.1 (mt List.getLast?_eq_none_iff.1 hspelled.text_ne_nil)
  obtain ⟨b, hb⟩ := Option.ne_none_iff_exists'.1 (mt List.head?_eq_none_iff.1 hspelled.text_ne_nil)
  refine ⟨hspelled.text_ne_nil, ht, fun c hc => ?_, fun c hc => ?_⟩
  · have := hbefore c hc b (by simp [hb])
    by_contra hpc
    rw [hp c b (by simpa using hpc) (ht b (List.mem_of_mem_head? hb))] at this
    contradiction
  · have := hafter a (by simp [List.getLast?_append, ha]) c hc
    by_contra hpc
    rw [hp a c (ht a (List.mem_of_getLast? ha)) (by simpa using hpc)] at this
    contradiction

theorem Tokenized.subset (h : Tokenized cs ts) : tokenize cs ⊆ ts := by
  intro t ht
  have hspelled := spelled_of_mem_tokenize ht
  obtain ⟨as, bs, hsplit⟩ := List.append_of_mem ht
  have hcs : cs = Token.texts as ++ t.text ++ Token.texts bs := by
    rw [(tokenize_eq_append hsplit).1, Token.texts_cons, List.append_assoc]
  have hstart := start_of_tokenize_eq_append hsplit
  obtain ⟨tag, start, text⟩ := t
  obtain rfl := hstart
  cases hspelled with
  | @reserved c hc htext =>
    obtain rfl : text = [c] := htext
    exact h.reserved (by simpa using hcs) hc
  | spaces htag _ hall =>
    obtain rfl : tag = .spaces := htag
    refine h.spaces hcs (maximalRun_of_tokenize hsplit (by simpa using hall) ?_)
    simp +contextual [Text.joins]
  | plain htag _ hall hnum =>
    have htag : tag = if Text.isNumeral text then .number else .word := by
      split
      · next hn => exact hnum.2 hn
      · next hn => exact htag.resolve_left fun ht => hn (hnum.1 ht)
    subst htag
    refine h.plain hcs (maximalRun_of_tokenize hsplit hall ?_)
    simp +contextual [Text.joins]

theorem Tokenized.eq_tokenize (h : Tokenized cs ts) : ts = tokenize cs :=
  h.tile.eq_of_subset (scans_iff.2 rfl).tile h.subset

/-- The token list of a text is what a scanner for the longest match finds, and the only list that
tiles the text with each reserved character, each maximal run of spaces and each maximal run of other
characters as a token of its own. -/
theorem eq_tokenize_iff (cs : List Char) (ts : List Token) :
    (ts = tokenize cs ↔ Tokenized cs ts) ∧ (ts = tokenize cs ↔ Scans 0 cs ts) := by
  refine ⟨⟨?_, Tokenized.eq_tokenize⟩, scans_iff.symm⟩
  rintro rfl
  exact tokenized_tokenize cs

end TaskMarkup
