import Mathlib
import TaskMarkup.Proofs.Document.Drains
import TaskMarkup.Proofs.Task.Listing
import TaskMarkup.Proofs.Task.Reading

namespace TaskMarkup

namespace Parse

open Rule

variable {F : Fault → Prop} {E : Empty → Lexer Cursor → Prop} {s t : Lexer Cursor} {k i : Nat}
  {ruler : Ruler} {level : Level} {body : Nat → Parse (List Block)} {tok : Token} {rest : List Token}

theorem ends_dispatch_of_word {room : Nat} (hs : s.Sound) (hk : s.Spare F k) (hk' : k < 98)
    (hword : (s.ahead 0).tag = .word) :
    Ends F (dispatch room) s (fun r t => r = .paragraph ∧ s.Looks t ∧ t.Spare F (k + 1)) E := by
  refine Ends.seq (Q := fun r t => r = .paragraph ∧ s.Looks t ∧ t.Spare F (k + 1)) ?_ ?_
  · refine Ends.bind (Ends.peek (.refl hs) (by decide) hk hk' fun t ht hkt _ => ?_)
    rw [hword]
    exact Ends.pure ⟨rfl, ht, hkt⟩
  · rintro _ t ⟨rfl, ht⟩
    exact Ends.pure ⟨by simp [Marker.opensBody], ht⟩

theorem ends_dispatch_of_bracket {room : Nat} (hroom : room ≠ 0) (hs : s.Sound) (hk : s.Spare F k) (hk' : k < 98)
    (hp : s.pending = tok :: rest) (htok : tok.tag = .leftBracket)
    (hrest : ∀ t ∈ rest.head?, t.tag ≠ .leftBracket) :
    Ends F (dispatch room) s (fun r t => r = .task ∧ s.Looks t ∧ t.Spare F (k + 1)) E := by
  refine Ends.seq (Q := fun r t => r = .task ∧ s.Looks t ∧ t.Spare F (k + 1)) ?_ ?_
  · refine Ends.bind (Ends.peek (.refl hs) (by decide) hk hk' fun t ht hkt _ => ?_)
    rw [Lexer.ahead_zero_of_cons hp, htok]
    have hpt := ht.pending.trans hp
    refine Ends.seq (Ends.repeats ht.sound hpt (by rw [htok]; rfl)) ?_
    rintro _ _ ⟨rfl, rfl⟩
    have hrun : tok.run (tok :: rest) = [tok] := by
      rw [Token.run_cons_self]
      cases rest with
      | nil => rfl
      | cons u us => simp [Token.run, htok, hrest u (by simp)]
    rw [hpt, hrun]
    exact Ends.pure ⟨rfl, ht, hkt⟩
  · rintro _ t ⟨rfl, ht⟩
    exact Ends.pure ⟨by simp [hroom], ht⟩

theorem ends_paragraph_of_word {p : ParagraphContext} (hs : s.Sound) (hk : s.Spare F k)
    (hk' : k < 96) (hp : s.pending = [tok]) (hword : tok.tag = .word) :
    Ends F (paragraph p) s (fun _ t => t.Sound ∧ t.atEof = true ∧ t.Spare F 1) E := by
  refine Ends.bind (Ends.peek (.refl hs) (by decide) hk (by omega) fun t ht hkt _ => ?_)
  have hpt := ht.pending.trans hp
  refine Ends.seq (Q := fun _ t => t.Sound ∧ t.atEof = true ∧ t.Spare F 1) ?_ ?_
  · refine Ends.loop (fun _ u => u.Sound ∧ (u.pending = [tok] ∧ u.Spare F (k + 1) ∨
      u.pending = [] ∧ u.Spare F 0)) ht.sound ⟨ht.sound, .inl ⟨hpt, hkt⟩⟩ ?_
    rintro c u ⟨hu, ⟨hpu, hku⟩ | ⟨hpu, hku⟩⟩
    · refine Ends.bind (Ends.peek (.refl hu) (by decide) hku (by omega) fun v hv hkv _ => ?_)
      rw [Lexer.ahead_zero_of_cons hpu, hword]
      refine Ends.bind (Ends.bind (Ends.eat hv hkv (by omega) hpu fun w hw hpw hkw => ?_))
      exact Ends.pure (Ends.pure ⟨⟨hw.sound, .inr ⟨hpw, hkw⟩⟩, by simp [hpw, hpu]⟩)
    · refine Ends.bind (Ends.peek (.refl hu) (by decide) hku (by decide) fun v hv hkv hz => ?_)
      rw [Lexer.ahead_zero_of_nil hpu]
      exact Ends.pure ⟨hv.sound, (hv.sound.atEof_iff hz).2 (hv.pending.trans hpu), hkv⟩
  · rintro - t ⟨ht, hkt⟩
    exact Ends.bind (Ends.endFrom (Ends.pure ⟨ht, hkt⟩))

def OnWord (F : Fault → Prop) (i : Nat) (tok : Token) (s : Lexer Cursor) : Prop :=
  s.Sound ∧ (s.pending = [tok] ∧ s.atEof = false ∧ s.observer.lineIndent = some i ∧ s.Spare F 2 ∨
    s.atEof = true ∧ s.Spare F 1)

theorem ends_body_of_word {room : Nat} (h : OnWord F i tok s) (hword : tok.tag = .word) :
    Ends F (Parse.body ruler (room + 1) i) s (fun _ _ => True) E := by
  refine Ends.loop (fun _ t => OnWord F i tok t) h.1 h ?_
  rintro bs t ⟨ht, ⟨hp, he, hm, hk⟩ | ⟨he, hk⟩⟩
  · refine Ends.seq (Q := fun r u => (∃ b, r = some b) ∧ u.Sound ∧ u.atEof = true ∧ u.Spare F 1) ?_ ?_
    · refine Ends.seq (ends_lineStart_of_measured ht he hm) ?_
      rintro _ _ ⟨rfl, rfl⟩
      dsimp only
      rw [if_neg (Nat.lt_irrefl i)]
      refine Ends.seq (ends_dispatch_of_word ht hk (by decide) (by
        rw [Lexer.ahead_zero_of_cons hp, hword])) ?_
      rintro _ u ⟨rfl, hu, hku⟩
      refine Ends.bind (Ends.record ?_)
      refine Ends.seq (ends_paragraph_of_word hu.sound.onCursor hku.onCursor (by decide)
        (hu.pending.trans hp) hword) ?_
      rintro b v hv
      exact Ends.pure ⟨⟨b, rfl⟩, hv⟩
    · rintro _ u ⟨⟨b, rfl⟩, hu, heu, hku⟩
      refine Ends.pure ⟨⟨hu, .inr ⟨heu, hku⟩⟩, ?_⟩
      rw [hu.pending_of_atEof heu, hp]
      exact Nat.zero_lt_one
  · refine Ends.seq (Q := fun r u => r = none) ?_ ?_
    · refine Ends.seq (ends_lineStart_of_atEof ht he) ?_
      rintro _ _ ⟨rfl, rfl⟩
      exact Ends.pure rfl
    · rintro _ u rfl
      exact Ends.pure trivial

theorem ends_bodied_of_word {room start : Nat} {kind : Container} {gap : Token} (hs : s.Sound)
    (hk : s.Spare F 0) (hp : s.pending = [gap, tok]) (hgap : gap.tag = .spaces)
    (hword : tok.tag = .word) :
    Ends F (bodied (Parse.body ruler (room + 1)) i start kind) s
      (fun b _ => ∃ span kids, b = .container span kind kids) E := by
  refine Ends.seq (Q := fun _ t => OnWord F (i + 1) tok t) ?_ ?_
  · refine Ends.seq (Ends.passInlineSpace hs hk (by decide)) ?_
    rintro - t ⟨ht, hkt, -⟩
    obtain ⟨ht, hpt⟩ := passed_gap hp hgap (by rw [hword]; rfl) ht
    refine Ends.bind (Ends.peekTag (.refl ht.sound) (by decide) hkt (by decide)
      fun u hu hku hz => ?_)
    have hpu := hu.pending.trans hpt
    rw [Lexer.ahead_zero_of_cons hpt, hword]
    refine Ends.setLineIndent ⟨hu.sound.onCursor, .inl ⟨hpu, ?_, rfl, hku⟩⟩
    rw [Lexer.atEof_onCursor, Bool.eq_false_iff, Ne, hu.sound.atEof_iff hz, hpu]
    exact List.cons_ne_nil _ _
  · rintro - t ht
    refine Ends.seq (ends_body_of_word ht hword) ?_
    rintro kids u -
    exact Ends.bind (Ends.bind (Ends.endFrom (Ends.pure (Ends.pure ⟨_, kids, rfl⟩))))

def Bodies (F : Fault → Prop) (E : Empty → Lexer Cursor → Prop) (body : Nat → Parse (List Block))
    (i : Nat) (rest : List Token) : Prop :=
  ∀ start kind t, t.Sound → t.Spare F 0 → t.pending = rest →
    Ends F (bodied body i start kind) t (fun b _ => ∃ span kids, b = .container span kind kids) E

theorem ends_task_of_lists {ts : List Token} {ds : List Directive} {opening closing : Token}
    (hs : s.Sound) (hk : s.Spare F k) (hk' : k < 98)
    (hp : s.pending = opening :: (ts ++ closing :: rest)) (h : Directive.Lists ts ds)
    (hclosing : closing.tag = .rightBracket) (hbody : Bodies F E body i rest) :
    Ends F (task body i) s (fun b _ => b.task? = some (ds.foldl Task.obey {})) E := by
  refine Ends.bind (Ends.eat (.refl hs) hk hk' hp fun t ht hpt hkt => ?_)
  refine Ends.seq (ends_directives_of_lists h hclosing ht.sound (hkt.mono (by decide)) hpt) ?_
  rintro _ u ⟨rfl, hu, hku⟩
  have hpu : u.pending = rest := by
    have := hu.pending
    rw [hpt, List.append_assoc, List.singleton_append] at this
    simpa using this.symm
  refine (hbody _ _ u hu.sound hku hpu).imp ?_
  rintro _ v ⟨span, kids, rfl⟩
  rfl

theorem ends_nextBlock_of_lists {ts : List Token} {ds : List Directive} {opening closing : Token}
    (hroom : level.room ≠ 0) (hs : s.Steady) (hk : s.Spare F k) (hk' : k < 90)
    (hm : s.observer.lineIndent = none) (hp : s.pending = opening :: (ts ++ closing :: rest))
    (h : Directive.Lists ts ds) (hopening : opening.tag = .leftBracket)
    (hclosing : closing.tag = .rightBracket) (hbody : Bodies F E body 0 rest) :
    Ends F (nextBlock level body 0) s
      (fun r _ => ∃ b, r = some b ∧ b.task? = some (ds.foldl Task.obey {})) E := by
  have hcontent : (s.ahead 0).tag.isContent = true := by
    rw [Lexer.ahead_zero_of_cons hp, hopening]
    rfl
  have hrest : ∀ t ∈ (ts ++ closing :: rest).head?, t.tag ≠ .leftBracket := by
    have hfirst := h.ne_leftBracket
    cases ts with
    | nil => simp [hclosing]
    | cons t ts => exact hfirst
  refine Ends.seq (ends_lineStart_content hs.sound hcontent hm hk (by omega) _) ?_
  rintro _ t ⟨rfl, ht, hpt, -, hkt⟩
  dsimp only
  rw [if_neg (Nat.lt_irrefl 0)]
  refine Ends.seq (ends_dispatch_of_bracket hroom ht.sound hkt (by omega) (hpt.trans hp) hopening
    hrest) ?_
  rintro _ u ⟨rfl, hu, hku⟩
  refine Ends.bind (Ends.record ?_)
  refine Ends.seq (ends_task_of_lists hu.sound.onCursor hku.onCursor (by omega)
    (hu.pending.trans (hpt.trans hp)) h hclosing hbody) ?_
  rintro b v hb
  exact Ends.pure ⟨b, rfl, hb⟩

theorem ends_block_task {marker : Marker} (hs : s.Sound) (ha : Announces s marker) :
    Ends (fun _ => True) (block level body i marker) s
      (fun b _ => ∀ c, b.task? = some c → marker = .task ∧ c.Written) fun _ _ => True := by
  -- All other rules end with a block of their own kind.
  cases marker with
  | header size =>
    exact .last fun _ _ => .last fun _ _ => .last fun _ _ => .last fun _ _ => .last fun _ _ =>
      .last fun _ _ => Ends.pure (by simp [Block.task?])
  | task =>
    obtain ⟨hp, -⟩ := ha.cons rfl
    refine Ends.bind (Ends.eat (.refl hs) (k := 0) (.inl fun _ _ => trivial) (by decide) hp fun t ht _ hkt => ?_)
    refine Ends.seq (ends_directives ht.sound (.inl fun _ _ => trivial)) ?_
    rintro task u ⟨htask, -⟩
    refine .last fun _ _ => .last fun _ _ => .last fun _ _ => Ends.pure ?_
    rintro _ ⟨⟩
    exact ⟨rfl, htask⟩
  | list | ordered first =>
    exact .last fun _ _ => .last fun _ _ => .last fun _ _ => Ends.pure (by simp [Block.task?])
  | table =>
    exact .last fun _ _ => .last fun _ _ => .last fun _ _ => .last fun _ _ =>
      Ends.pure (by simp [Block.task?])
  | separator =>
    exact .last fun _ _ => .last fun _ _ => .last fun _ _ => .last fun _ _ => .last fun _ _ =>
      Ends.pure (by simp [Block.task?])
  | raw =>
    exact .last fun _ _ => .last fun _ _ => .last fun _ _ => .last fun _ _ => .last fun _ _ =>
      .last fun _ _ => Ends.pure (by simp [Block.task?])
  | paragraph =>
    exact .last fun _ _ => .last fun _ _ => .last fun _ _ => Ends.pure (by simp [Block.task?])

theorem ends_nextBlock_task (hs : s.Steady) (hi : Rests (fun _ => True) i s) :
    Ends (fun _ => True) (nextBlock level body i) s
      (fun r _ => ∀ b, r = some b → ∀ c, b.task? = some c → level.room ≠ 0 ∧ c.Written)
      fun _ _ => True := by
  refine Ends.seq (ends_lineStart (excused_true _) hs hi) ?_
  rintro r t ⟨-, ht, -⟩
  cases r with
  | none => exact Ends.pure (by simp)
  | some measured =>
    dsimp only
    split
    · exact Ends.pure (by simp)
    · refine Ends.seq (ends_dispatch (k := 0) ht.sound (.inl fun _ _ => trivial) (by decide)) ?_
      rintro marker u ⟨hu, -, ha, hroom⟩
      have ha := ha.looks hu
      refine Ends.bind (Ends.record ?_)
      refine Ends.seq (ends_block_task hu.sound.onCursor ⟨ha.heads, ha.pos⟩) ?_
      intro b v hb
      refine Ends.pure ?_
      rintro _ ⟨⟩ c hc
      obtain ⟨rfl, hwritten⟩ := hb c hc
      exact ⟨hroom rfl, hwritten⟩

end Parse

theorem Document.head?_blocks_readFrom {r : Reader} (hf : r.finished = false)
    (hs : r.started = false) (n : Nat) :
    (readFrom (n + 1) r).blocks.head? = match Reader.rule r.options r.lexer with
      | .ok (some b) _ => some b
      | .ok none _ => some (.dummy ⟨0, 0, 0⟩)
      | .error _ _ => none := by
  rw [readFrom]
  cases h : Reader.rule r.options r.lexer with
  | ok b t =>
    cases b with
    | some b => simp only [Reader.next_of_some hf h, List.head?_cons]
    | none => simp only [Reader.next_of_none hf h, hs, Bool.false_eq_true, if_false, List.head?_cons]
  | error e t =>
    cases e with
    | fault f => simp only [Reader.next_of_fault hf h, List.head?_nil]
    | rejected e => exact e.elim

theorem Document.head?_blocks_read (o : Options) (text : String) :
    (read o text).blocks.head? = match Reader.rule o (Reader.start o text).lexer with
      | .ok (some b) _ => some b
      | .ok none _ => some (.dummy ⟨0, 0, 0⟩)
      | .error _ _ => none :=
  head?_blocks_readFrom (r := Reader.start o text) rfl rfl _

namespace Document

/-- The task that a document starts with. -/
def task? (o : Options) (text : String) : Option Task := (read o text).blocks.head?.bind Block.task?

theorem written_of_task? {o : Options} {text : String} {c : Task} (h : task? o text = some c) :
    o.maxDepth ≠ 0 ∧ c.Written := by
  have hstands := Reader.start_stands (F := fun _ => True) (o := o) text (.inl fun _ => trivial)
  have hends : Rule.Ends (fun _ => True) (Reader.rule o) (Reader.start o text).lexer _ _ :=
    Parse.ends_nextBlock_task hstands.steady hstands.rests
  rw [task?, head?_blocks_read] at h
  cases hrule : Reader.rule o (Reader.start o text).lexer with
  | ok r t =>
    rw [hrule] at h
    cases r with
    | some b => exact hends.of_ok hrule b rfl c (by simpa using h)
    | none => simp [Block.task?] at h
  | error e t => simp [hrule] at h

theorem exists_tokenize_brackets (cs ds : List Char) :
    ∃ k, tokenize ('[' :: (cs ++ ']' :: ds)) = ⟨.leftBracket, 0, ['[']⟩ ::
      (Token.place 1 (Text.runs cs) ++ ⟨.rightBracket, k, [']']⟩ ::
        Token.place (k + 1) (Text.runs ds)) := by
  refine ⟨1 + Text.byteSize cs, ?_⟩
  rw [tokenize, Text.runs_cons (c := '[') rfl, Text.runs_append_cons (c := ']') rfl, Token.place,
    Token.place_append, Text.flatten_runs]
  rfl

theorem task?_of_lists {o : Options} {text : String} {opening closing : Token}
    {ts rest : List Token} {ds : List Directive} (hpeeks : 100 ≤ o.maxPeeks)
    (hdepth : o.maxDepth ≠ 0)
    (hp : tokenize text.toList = opening :: (ts ++ closing :: rest))
    (h : Directive.Lists ts ds) (hopening : opening.tag = .leftBracket)
    (hclosing : closing.tag = .rightBracket)
    (hbody : Parse.Bodies (fun _ => False) (fun e _ => e.elim)
      (Parse.body o.level.ruler o.level.room) 0 rest) :
    task? o text = some (ds.foldl Task.obey {}) := by
  let start := Reader.start o text
  have hsteady : start.lexer.Steady :=
    (Reader.start_stands (F := fun _ => False) text (.inr hpeeks)).steady
  have hspare : start.lexer.Spare (fun _ => False) 0 :=
    .inr ⟨Nat.le_trans hpeeks (Nat.le_max_left ..), Nat.zero_le _⟩
  have hends : Rule.Ends (fun _ => False) (Reader.rule o) start.lexer
      (fun r _ => ∃ b, r = some b ∧ b.task? = some (ds.foldl Task.obey {})) fun e _ => e.elim :=
    Parse.ends_nextBlock_of_lists hdepth hsteady hspare (by decide) rfl
      ((Reader.pending_start ..).trans hp) h hopening hclosing hbody
  obtain ⟨_, t, hrule, b, rfl, hb⟩ := hends.exists_ok fun e => e.elim
  rw [task?, head?_blocks_read, hrule, Option.bind_some, hb]

theorem task?_markup_eq_heard (o : Options) {c : Task} (hpeeks : 100 ≤ o.maxPeeks)
    (hdepth : o.maxDepth ≠ 0) (hwritten : c.Written) :
    task? o (c.markup ++ " body") = some c.heard := by
  obtain ⟨cs, hmarkup, hlists⟩ := c.exists_markup_eq hwritten
  have htext : (c.markup ++ " body").toList = '[' :: (cs ++ ']' :: " body".toList) := by
    simp [hmarkup]
  obtain ⟨k, hp⟩ := exists_tokenize_brackets cs " body".toList
  rw [← htext, show Text.runs " body".toList = [[' '], "body".toList] by decide] at hp
  obtain ⟨room, hroom⟩ := Nat.exists_eq_succ_of_ne_zero hdepth
  rw [task?_of_lists hpeeks hdepth hp hlists rfl rfl ?_, Task.foldl_obey_stated]
  intro start kind t ht hkt hpt
  rw [show o.level.room = room + 1 from hroom]
  exact Parse.ends_bodied_of_word ht hkt hpt rfl rfl

theorem task?_markup (o : Options) (text : String) {c : Task} (hpeeks : 100 ≤ o.maxPeeks)
    (h : task? o text = some c) (hc : c.Legible) : task? o (c.markup ++ " body") = some c := by
  obtain ⟨hdepth, hwritten⟩ := written_of_task? h
  rw [task?_markup_eq_heard o hpeeks hdepth hwritten, Task.heard_eq_iff.2 hc]

theorem task?_markup_tagged :
    let c := (({} : Task).obey (.image ⟨"a b", some 5⟩)).obey (.tag "t")
    100 ≤ ({} : Options).maxPeeks ∧ task? {} "[image 5 a\\ b @t] x" = some c ∧ c.Legible ∧
      task? {} (c.markup ++ " body") = some c := by
  intro c
  have hread : task? {} "[image 5 a\\ b @t] x" = some c := by cbv
  have hlegible : c.Legible := by
    refine ⟨by simp [c, Task.obey], by simp [c, Task.obey], ?_⟩
    rintro _ ⟨⟩ -
    exact ⟨by decide, by simp⟩
  exact ⟨Nat.le_refl _, hread, hlegible,
    task?_markup {} "[image 5 a\\ b @t] x" (Nat.le_refl _) hread hlegible⟩

/-- The markup of the task of a text is read back as another task. -/
def Alters (text : String) : Prop :=
  ∃ c, task? {} text = some c ∧ task? {} (c.markup ++ " body") ≠ some c

theorem alters_of_ne {text : String} {c d : Task} (hread : task? {} text = some c)
    (hreread : task? {} (c.markup ++ " body") = some d) (hne : d ≠ c) : Alters text := by
  refine ⟨c, hread, ?_⟩
  rw [hreread]
  exact fun h => hne (Option.some.inj h)

theorem alters_wideYear : Alters "[created:12024-1-2] a" := by
  have hread : task? {} "[created:12024-1-2] a" =
      some (({} : Task).obey (.created ⟨12024, 1, 2, by decide⟩)) := by cbv
  exact alters_of_ne (d := {}) hread (by cbv) (by decide)

theorem alters_digitPath : Alters "[@a image 5] a" := by
  have hread : task? {} "[@a image 5] a" =
      some ((({} : Task).obey (.image ⟨"5", none⟩)).obey (.tag "a")) := by cbv
  exact alters_of_ne (d := ({} : Task).obey (.image ⟨"@a", some 5⟩)) hread (by cbv) (by decide)

theorem alters_spacedPath : Alters "[@a image b\\ ] a" := by
  have hread : task? {} "[@a image b\\ ] a" =
      some ((({} : Task).obey (.image ⟨"b ", none⟩)).obey (.tag "a")) := by cbv
  exact alters_of_ne (d := ({} : Task).obey (.image ⟨"b  @a", none⟩)) hread (by cbv) (by decide)

/-- Years of five digits, paths that look like a width and paths that end in a space do not survive:
the first are skipped, the others run into the tag behind them. -/
theorem exists_task?_markup_ne :
    Alters "[created:12024-1-2] a" ∧ Alters "[@a image 5] a" ∧ Alters "[@a image b\\ ] a" :=
  ⟨alters_wideYear, alters_digitPath, alters_spacedPath⟩

/-- The tasks whose markup is read back as the same task are those whose values can be read, and are
legible in front of each other. -/
theorem task?_markup_eq_iff (o : Options) (c : Task) (hpeeks : 100 ≤ o.maxPeeks)
    (hdepth : o.maxDepth ≠ 0) :
    task? o (c.markup ++ " body") = some c ↔ c.Written ∧ c.Legible := by
  constructor
  · intro h
    have hwritten := (written_of_task? h).2
    rw [task?_markup_eq_heard o hpeeks hdepth hwritten, Option.some.injEq] at h
    exact ⟨hwritten, Task.heard_eq_iff.1 h⟩
  · rintro ⟨hwritten, hlegible⟩
    rw [task?_markup_eq_heard o hpeeks hdepth hwritten, Task.heard_eq_iff.2 hlegible]

theorem task?_markup_eq_iff_wideYear :
    let c := ({} : Task).obey (.due ⟨12024, 1, 2, by decide⟩)
    100 ≤ ({} : Options).maxPeeks ∧ ({} : Options).maxDepth ≠ 0 ∧ ¬c.Legible ∧
      task? {} (c.markup ++ " body") ≠ some c := by
  intro c
  have hlegible : ¬c.Legible := fun h => absurd (h.due _ rfl) (by decide)
  refine ⟨Nat.le_refl _, by decide, hlegible, fun h => hlegible ?_⟩
  exact ((task?_markup_eq_iff {} c (Nat.le_refl _) (by decide)).1 h).2

/-- A path that ends in a space is not read back, though it is no number and its values can be read. -/
theorem exists_written_task?_ne : ∃ c : Task, c.Written ∧
    (∀ d, c.created = some d ∨ c.due = some d → d.year ≤ 9999) ∧
    (∀ i, c.image = some i → Text.isNumeral i.path.toList = false) ∧
    ∃ d ≠ c, task? {} (c.markup ++ " body") = some d := by
  let c : Task := (({} : Task).obey (.image ⟨"b ", none⟩)).obey (.tag "a")
  have himage : (Directive.image ⟨"b ", none⟩).Written := ⟨by decide, by decide, by simp⟩
  have htag : isTagName "a".toList = true := by decide
  have hwritten : c.Written := (Task.written_empty.obey himage).obey htag
  refine ⟨c, hwritten, by simp [c, Task.obey], ?_, c.heard, by decide,
    task?_markup_eq_heard {} (Nat.le_refl _) (by decide) hwritten⟩
  rintro _ ⟨⟩
  decide

end Document

end TaskMarkup
