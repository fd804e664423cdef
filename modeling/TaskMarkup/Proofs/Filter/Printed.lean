import TaskMarkup.Filter.Canonical
import TaskMarkup.Proofs.Filter.Query
import TaskMarkup.Proofs.Token.Escaped

namespace TaskMarkup

/-- Whether the predicate has a spelling: names are those of tags, numbers have at most eight digits,
and literals stay on their line. -/
def Predicate.printable : Predicate → Bool
  | .tag (some name) => isTagName name.toList
  | .track (some id) => id < 10 ^ 8
  | .priority (some n) => n < 10 ^ 8
  | .fuzzy needle | .literal needle => !needle.toList.contains '\n'
  | _ => true

namespace Filter

def printable : Filter → Bool
  | .predicate _ p => p.printable
  | .not _ f => f.printable
  | .binary _ _ f g => f.printable && g.printable

/-- How many expressions the reader opens inside the filter when it stands as an operand. -/
def depth : Filter → Nat
  | .predicate .. => 0
  | .not _ f => 1 + f.depth
  | .binary _ _ f g => 1 + max f.depth (1 + g.depth)

def topDepth : Filter → Nat
  | .binary _ _ f g => 1 + max f.depth (1 + g.depth)
  | f => 1 + f.depth

def nots : Filter → Nat
  | .not _ f => f.nots + 1
  | _ => 0

def longestNots : Filter → Nat
  | .predicate .. => 0
  | .not _ f => max (f.nots + 1) f.longestNots
  | .binary _ _ f g => max f.longestNots g.longestNots

@[simp] theorem sameStructure_withSpan (f g : Filter) (s : Span) :
    f.sameStructure (g.withSpan s) = f.sameStructure g := by
  cases g <;> cases f <;> rfl

theorem escaped_eq_shield (delimiter : Char) (needle : List Char) :
    Text.escaped delimiter needle =
      Text.shield (fun c => c = delimiter || c = '\\') needle := rfl

theorem literal_of_texts {delimiter : Tag} {d : Char} (hd : delimiter.char? = some d)
    {ts : List Token} (hts : ∀ t ∈ ts, t.Spelled) {needle : List Char} (hline : '\n' ∉ needle)
    (h : Token.texts ts = Text.escaped d needle) : Literal delimiter ts needle := by
  rw [escaped_eq_shield] at h
  have hres : ∀ c, (c = d || c = '\\') = true → Text.isPlain c = false := by
    intro c hc
    rcases (by simpa using hc : c = d ∨ c = '\\') with rfl | rfl
    · simp [Text.isPlain, Tag.ofChar?_eq_some_iff.2 hd]
    · decide
  have hshields : Token.Shields (fun c => c = d || c = '\\') ts needle :=
    Token.shields_of_texts (by simp) hres hts h
  clear h hts
  induction hshields with
  | nil => exact .nil
  | @plain t ts cs ht hplain _ ih =>
    have hne {tag : Tag} {c : Char} (hc : tag.char? = some c) (hspecial : c = d ∨ c = '\\') :
        t.tag ≠ tag := by
      rintro rfl
      have := hplain c (by simp [ht.text_of_char? hc])
      rcases hspecial with rfl | rfl <;> simp at this
    exact .plain (ht.endsLine_eq_false fun hm => hline (by simp [hm])) (hne hd (.inl rfl))
      (hne rfl (.inr rfl)) (ih fun hm => hline (by simp [hm]))
  | @escaped back t c ts cs hback ht htext _ _ ih =>
    have := Literal.escaped ⟨back, hback⟩ (t := t) (ht.endsLine_eq_false (by
      rw [htext]
      exact fun hm => hline (List.mem_cons.2 (.inl (List.mem_singleton.1 hm)))))
      (ih fun hm => hline (by simp [hm]))
    rwa [htext] at this

def Spells.By (p : Predicate) (cs : List Char) : Prop :=
  ∀ start, Spells (Token.place start (Text.runs cs)) p

theorem spelledBy_word {word : String} {p : Predicate} (hp : word? word = some p)
    (hruns : Text.runs word.toList = [word.toList]) (htag : Tag.ofRun word.toList = .word) :
    Spells.By p word.toList := by
  intro start
  rw [hruns]
  exact .word ⟨⟨Tag.ofRun word.toList, start, word.toList⟩, htag⟩ (by rw [String.ofList_toList, hp])

theorem spelledBy_delimited {delimiter : Tag} {d : Char} {make : String → Predicate}
    (hd : delimiter.char? = some d)
    (hmake : ∀ (opening closing : Sign delimiter) {ts : List Token} {text : List Char},
      Literal delimiter ts text →
        Spells (opening.val :: (ts ++ [closing.val])) (make (String.ofList text)))
    {needle : String} (hline : '\n' ∉ needle.toList) :
    Spells.By (make needle) (Text.delimited d needle.toList) := by
  intro start
  have hres := Tag.ofChar?_eq_some_iff.2 hd
  have htag : Tag.ofRun [d] = delimiter := Tag.ofRun_reserved hres
  rw [Text.delimited, List.cons_append, Text.runs_cons hres, Text.runs_concat hres,
    ← List.singleton_append, Token.place_append, Token.place_append]
  have hliteral (offset : Nat) : Literal delimiter (Token.place offset (Text.runs
      (Text.escaped d needle.toList))) needle.toList :=
    literal_of_texts hd (fun t ht => spelled_of_mem_place ht) hline
      (by rw [Token.texts_place, Text.flatten_runs])
  suffices h : Spells _ (make (String.ofList needle.toList)) by rwa [String.ofList_toList] at h
  exact hmake ⟨_, htag⟩ ⟨_, htag⟩ (hliteral _)

theorem spelledBy_text {p : Predicate} (h : p.printable = true) : Spells.By p p.text.toList := by
  cases p with
  | any => exact fun start => .any ⟨_, rfl⟩
  | due => exact spelledBy_word rfl (by decide) (by decide)
  | done => exact spelledBy_word rfl (by decide) (by decide)
  | pin => exact spelledBy_word rfl (by decide) (by decide)
  | hide => exact spelledBy_word rfl (by decide) (by decide)
  | tag name =>
    cases name with
    | none => exact fun start => .anyTag ⟨_, rfl⟩
    | some name =>
      intro start
      have hname : isTagName name.toList = true := h
      obtain ⟨hne, hplain⟩ := Text.isPlain_of_isTagName hname
      have htext : (Predicate.tag (some name)).text.toList = '@' :: name.toList := by
        simp [Predicate.text]
      rw [htext, Text.runs_cons (c := '@') rfl, Text.runs_of_isPlain hne hplain]
      have htag : Tag.ofRun name.toList = .word ∨ Tag.ofRun name.toList = .number := by
        rw [Tag.ofRun_of_isPlain hne hplain]
        split <;> simp
      suffices h : Spells _ (.tag (some (String.ofList name.toList))) by
        rwa [String.ofList_toList] at h
      exact .tag ⟨_, rfl⟩ htag hname
  | track id =>
    cases id with
    | none => exact spelledBy_word rfl (by decide) (by decide)
    | some id =>
      intro start
      have hid : id < 10 ^ 8 := by simpa [Predicate.printable] using h
      have htext : (Predicate.track (some id)).text.toList =
          "track".toList ++ ':' :: Nat.toDigits 10 id := by
        simp only [Predicate.text, Nat.toString_eq_repr, String.toList_append, Nat.toList_repr]
        rfl
      have htag : Tag.ofRun (Nat.toDigits 10 id) = .number := Tag.ofRun_toDigits hid
      have hword : Text.runs "track".toList = ["track".toList] := by decide
      rw [htext, Text.runs_append_cons (c := ':') rfl, Text.runs_toDigits, hword]
      rw [← Token.value?_of_toDigits (t := ⟨_, 0, Nat.toDigits 10 id⟩) htag rfl]
      exact .track ⟨_, rfl⟩ ⟨_, rfl⟩ ⟨_, htag⟩ rfl
  | fuzzy needle =>
    have hline : '\n' ∉ needle.toList := by simpa [Predicate.printable] using h
    have htext : (Predicate.fuzzy needle).text.toList = Text.delimited '/' needle.toList := by
      simp [Predicate.text]
    rw [htext]
    exact spelledBy_delimited rfl .fuzzy hline
  | literal needle =>
    have hline : '\n' ∉ needle.toList := by simpa [Predicate.printable] using h
    have htext : (Predicate.literal needle).text.toList = Text.delimited '\x27' needle.toList := by
      simp [Predicate.text]
    rw [htext]
    exact spelledBy_delimited rfl .literal hline
  | priority n =>
    cases n with
    | none => exact fun start => .anyPriority ⟨_, rfl⟩
    | some n =>
      intro start
      have hn : n < 10 ^ 8 := by simpa [Predicate.printable] using h
      have htext : (Predicate.priority (some n)).text.toList = '#' :: Nat.toDigits 10 n := by
        simp only [Predicate.text, Nat.toString_eq_repr, String.toList_append, Nat.toList_repr]
        rfl
      have htag : Tag.ofRun (Nat.toDigits 10 n) = .number := Tag.ofRun_toDigits hn
      rw [htext, Text.runs_cons (c := '#') rfl, Text.runs_toDigits,
        ← Token.value?_of_toDigits (t := ⟨_, 0, Nat.toDigits 10 n⟩) htag rfl]
      exact .priority ⟨_, rfl⟩ ⟨_, htag⟩

variable {ℓ : Layer} {start : Nat} {cs : List Char} {f g : Filter}

/-- The phrase stands for the filter, and its tokens are those of the text. -/
structure Prints (start : Nat) (cs : List Char) (f : Filter) (ph : Phrase ℓ) : Prop where
  tokens : ph.tokens = Token.place start (Text.runs cs)
  same : f.sameStructure ph.filter = true
  longestBangs : ph.longestBangs = f.longestNots

theorem Prints.ne_space {ph : Phrase ℓ} (h : Prints start cs f ph) :
    (∀ c ∈ cs.head?, c ≠ ' ') ∧ ∀ c ∈ cs.getLast?, c ≠ ' ' := by
  have hspelled : ∀ t ∈ ph.tokens, t.Spelled := fun t ht => spelled_of_mem_place (h.tokens ▸ ht)
  have htexts : cs = Token.texts ph.tokens := by
    rw [h.tokens, Token.texts_place, Text.flatten_runs]
  constructor
  · obtain ⟨t, us, ht, hspace⟩ := ph.exists_head
    have hsp := hspelled t (by simp [ht])
    rw [htexts, ht, Token.texts_cons, List.head?_append_of_ne_nil _ hsp.text_ne_nil]
    intro c hc
    refine hsp.ne_space ?_ (List.mem_of_mem_head? hc)
    rintro htag
    simp [htag, Tag.isInlineSpace] at hspace
  · obtain ⟨us, t, ht, hspace⟩ := ph.exists_last
    have hsp := hspelled t (by simp [ht])
    rw [htexts, ht, Token.texts_append, Token.texts_cons, Token.texts_nil, List.append_nil,
      List.getLast?_append_of_ne_nil _ hsp.text_ne_nil]
    intro c hc
    refine hsp.ne_space ?_ (List.mem_of_mem_getLast? hc)
    rintro htag
    simp [isSpace, htag, Tag.isInlineSpace] at hspace

theorem runs_join (op : Operator) {l r : String} (hl : ∀ c ∈ l.toList.getLast?, c ≠ ' ')
    (hr : ∀ c ∈ r.toList.head?, c ≠ ' ') : Text.runs (op.join l r).toList =
      Text.runs l.toList ++ [' '] :: [op.sign] :: [' '] :: Text.runs r.toList := by
  have hsign : ∃ tag, Tag.ofChar? op.sign = some tag := by
    cases op
    · exact ⟨.ampersand, rfl⟩
    · exact ⟨.pipe, rfl⟩
  obtain ⟨tag, htag⟩ := hsign
  have htext : (op.join l r).toList = l.toList ++ ' ' :: op.sign :: ' ' :: r.toList := by
    simp [Operator.join]
  have hne : op.sign ≠ ' ' := by cases op <;> decide
  rw [htext, Text.runs_append_space hl (by simpa using hne), Text.runs_cons htag,
    ← List.nil_append (' ' :: r.toList), Text.runs_append_space (by simp) hr]
  rfl

structure PrintsOperand (start : Nat) (f : Filter) (u : Phrase .operand) : Prop
    extends Prints start f.operandText.toList f u where
  nesting : u.nesting = f.depth
  bangs : u.bangs = f.nots

theorem exists_between (op : Operator) {u : Phrase .operand} (hu : PrintsOperand start f u)
    (hg : ∀ start, ∃ v, PrintsOperand start g v) : ∃ (before : Gap) (sign : Sign op.tag)
      (after : Gap) (start' : Nat) (v : Phrase .operand), PrintsOperand start' g v ∧
        Token.place start (Text.runs (op.join f.operandText g.operandText).toList) =
          u.tokens ++ (before.val ++ sign.val :: (after.val ++ v.tokens)) := by
  obtain ⟨w, hw⟩ := hg 0
  have hspace {t : Token} (ht : t.tag = Tag.ofRun [' ']) : ∀ u ∈ [t], u.tag.isInlineSpace = true := by
    intro u hu
    rw [List.mem_singleton.1 hu, ht]
    rfl
  have hop : Tag.ofRun [op.sign] = op.tag := by cases op <;> rfl
  rw [runs_join op hu.ne_space.2 hw.ne_space.1, Token.place_append, ← hu.tokens]
  obtain ⟨before, s₁, hbefore, -, h₁⟩ := Token.exists_place_cons
    (start + Text.byteSize (Text.runs f.operandText.toList).flatten) [' ']
    ([op.sign] :: [' '] :: Text.runs g.operandText.toList)
  obtain ⟨sign, s₂, hsign, -, h₂⟩ := Token.exists_place_cons s₁ [op.sign]
    ([' '] :: Text.runs g.operandText.toList)
  obtain ⟨after, s₃, hafter, -, h₃⟩ := Token.exists_place_cons s₂ [' ']
    (Text.runs g.operandText.toList)
  obtain ⟨v, hv⟩ := hg s₃
  refine ⟨⟨[before], hspace hbefore⟩, ⟨sign, hsign.trans hop⟩, ⟨[after], hspace hafter⟩, s₃, v, hv, ?_⟩
  rw [h₁, h₂, h₃, hv.tokens]
  rfl

theorem exists_joined (op : Operator) (sp : Span) (hf : ∀ start, ∃ u, PrintsOperand start f u)
    (hg : ∀ start, ∃ u, PrintsOperand start g u) (start : Nat) :
    ∃ ph : Phrase (.chain .or),
      Prints start (op.join f.operandText g.operandText).toList (.binary sp op f g) ph ∧
        ph.nesting = max f.depth (1 + g.depth) := by
  obtain ⟨u, hu⟩ := hf start
  obtain ⟨before, sign, after, start', v, hv, htokens⟩ := exists_between op hu hg
  have hsame {sp' : Span} : (Filter.binary sp op f g).sameStructure (.binary sp' op u.filter v.filter) := by
    simp [sameStructure, hu.same, hv.same]
  have hbangs : max u.longestBangs v.longestBangs = (Filter.binary sp op f g).longestNots := by
    rw [hu.longestBangs, hv.longestBangs]
    rfl
  have hnesting : max u.nesting (v.nesting + 1) = max f.depth (1 + g.depth) := by
    rw [hu.nesting, hv.nesting, Nat.add_comm g.depth]
  cases op with
  | and =>
    exact ⟨.first .or (.more .and (.first .and u) before sign after v),
      ⟨htokens.symm, hsame, hbangs⟩, hnesting⟩
  | or =>
    exact ⟨.more .or (.first .or (.first .and u)) before sign after (.first .and v),
      ⟨htokens.symm, hsame, hbangs⟩, hnesting⟩

theorem exists_operand (hf : f.printable = true) (start : Nat) : ∃ u, PrintsOperand start f u := by
  induction f generalizing start with
  | predicate sp p =>
    exact ⟨.predicate ⟨_, p, spelledBy_text hf start⟩, ⟨rfl, by simp [Phrase.filter, sameStructure], rfl⟩, rfl, rfl⟩
  | not sp f ih =>
    have htext : (Filter.not sp f).operandText.toList = '!' :: f.operandText.toList := by
      simp [operandText]
    obtain ⟨u, hu⟩ := ih hf (start + Text.byteSize ['!'])
    refine ⟨.not ⟨⟨Tag.ofRun ['!'], start, ['!']⟩, rfl⟩ .none u, ⟨?_, ?_, ?_⟩, ?_, ?_⟩
    · rw [htext, Text.runs_cons (c := '!') rfl, Token.place, ← hu.tokens]
      rfl
    · exact hu.same
    · show max (u.bangs + 1) u.longestBangs = max (f.nots + 1) f.longestNots
      rw [hu.bangs, hu.longestBangs]
    · show u.nesting + 1 = 1 + f.depth
      rw [hu.nesting, Nat.add_comm]
    · show u.bangs + 1 = f.nots + 1
      rw [hu.bangs]
  | binary sp op f g ihf ihg =>
    have hprintable : f.printable = true ∧ g.printable = true := by simpa [printable] using hf
    have hruns : Text.runs (Filter.binary sp op f g).operandText.toList =
        ['('] :: (Text.runs (op.join f.operandText g.operandText).toList ++ [[')']]) := by
      have htext : (Filter.binary sp op f g).operandText.toList =
          '(' :: ((op.join f.operandText g.operandText).toList ++ [')']) := by
        simp [operandText]
      rw [htext, Text.runs_cons (c := '(') rfl, Text.runs_concat (c := ')') rfl]
    obtain ⟨opening, s₁, hopening, -, h₁⟩ := Token.exists_place_cons start ['(']
      (Text.runs (op.join f.operandText g.operandText).toList ++ [[')']])
    obtain ⟨ph, hph, hnesting⟩ := exists_joined op sp (fun s => ihf hprintable.1 s)
      (fun s => ihg hprintable.2 s) s₁
    obtain ⟨closing, s₂, hclosing, -, h₂⟩ := Token.exists_place_cons
      (s₁ + Text.byteSize (Text.runs (op.join f.operandText g.operandText).toList).flatten) [')'] []
    refine ⟨.group ⟨opening, hopening⟩ .none ph .none ⟨closing, hclosing⟩, ⟨?_, ?_, ?_⟩, ?_, ?_⟩
    · rw [hruns, h₁, Token.place_append, h₂, ← hph.tokens]
      rfl
    · rw [Phrase.filter, sameStructure_withSpan]
      exact hph.same
    · exact hph.longestBangs
    · show ph.nesting + 1 = 1 + max f.depth (1 + g.depth)
      rw [hnesting, Nat.add_comm]
    · rfl

theorem exists_canonical (hf : f.printable = true) : ∃ ph : Phrase (.chain .or),
    Prints 0 f.canonical.toList f ph ∧ ph.nesting + 1 = f.topDepth := by
  cases f with
  | predicate | not =>
    obtain ⟨u, hu⟩ := exists_operand hf 0
    exact ⟨.first .or (.first .and u), ⟨hu.tokens, hu.same, hu.longestBangs⟩,
      (Nat.add_comm ..).trans (congrArg (1 + ·) hu.nesting)⟩
  | binary sp op f g =>
    have hprintable : f.printable = true ∧ g.printable = true := by simpa [printable] using hf
    obtain ⟨ph, hph, hnesting⟩ := exists_joined op sp (exists_operand hprintable.1)
      (exists_operand hprintable.2) 0
    exact ⟨ph, hph, (Nat.add_comm ..).trans (congrArg (1 + ·) hnesting)⟩

theorem Prints.derives {text : String} {ph : Phrase (.chain .or)} (h : Prints 0 text.toList f ph) :
    Derives text ph := derives_of_tokens h.tokens

theorem parse?_canonical_of_topDepth_le (hf : f.printable = true) (hn : f.longestNots ≤ maxBangs)
    (htop : f.topDepth ≤ maxDepth) :
    ∃ g, parse? f.canonical = some g ∧ f.sameStructure g = true := by
  obtain ⟨ph, hph, hnesting⟩ := exists_canonical hf
  have hbangs : ph.longestBangs ≤ maxBangs := by rwa [hph.longestBangs]
  exact ⟨ph.filter, parse?_eq_some_of_derives hph.derives (by omega) hbangs, hph.same⟩

theorem parse_canonical_of_lt_topDepth (hf : f.printable = true) (hn : f.longestNots ≤ maxBangs)
    (htop : maxDepth < f.topDepth) :
    ∃ offset, parse f.canonical = .error (.rejected (.tooDeep offset)) := by
  obtain ⟨ph, hph, hnesting⟩ := exists_canonical hf
  have hbangs : ph.longestBangs ≤ maxBangs := by rwa [hph.longestBangs]
  exact parse_tooDeep_of_derives hph.derives (by omega) hbangs

/-- The canonical text of a filter is read back as the same filter, unless it nests too deep for the
reader: then it is rejected for that. -/
theorem parse?_canonical (f : Filter) (hf : f.printable = true) (hn : f.longestNots ≤ maxBangs) :
    (f.topDepth ≤ maxDepth → ∃ g, parse? f.canonical = some g ∧ f.sameStructure g = true) ∧
      (maxDepth < f.topDepth →
        ∃ offset, parse f.canonical = .error (.rejected (.tooDeep offset))) :=
  ⟨parse?_canonical_of_topDepth_le hf hn, parse_canonical_of_lt_topDepth hf hn⟩

theorem parse?_canonical_quoted :
    (let f := Filter.binary ⟨0, 0, 0⟩ .or (.not ⟨0, 0, 0⟩ (.predicate ⟨0, 0, 0⟩ (.literal "a'b")))
      (.predicate ⟨0, 0, 0⟩ (.track (some 7)))
    ∃ g, parse? f.canonical = some g ∧ f.sameStructure g = true) ∧
    (let f := Nat.repeat (Filter.binary ⟨0, 0, 0⟩ .and (.predicate ⟨0, 0, 0⟩ .done)) 32
      (.not ⟨0, 0, 0⟩ (.predicate ⟨0, 0, 0⟩ (.fuzzy "a/b")))
    ∃ offset, parse f.canonical = .error (.rejected (.tooDeep offset))) :=
  ⟨(parse?_canonical _ (by decide) (by decide)).1 (by decide),
    (parse?_canonical _ (by decide) (by decide)).2 (by decide +kernel)⟩

end Filter

end TaskMarkup
