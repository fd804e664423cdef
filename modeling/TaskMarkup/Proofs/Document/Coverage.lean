import TaskMarkup.Proofs.Document.Spans
import TaskMarkup.Proofs.Origin.Block

namespace TaskMarkup

namespace Block

/-- What is left of the line of a block that covers `inside`: nothing, but behind the equals signs
of a separator. -/
inductive Leaves : Block → (inside line : List Char) → Prop
  | nothing {b : Block} {inside : List Char} : Leaves b inside []
  | rest {span : Span} {n : Nat} {line : List Char} : 3 ≤ n → '\n' ∉ line →
      Leaves (.separator span) (List.replicate n '=') line

def Discards (src : Source) (b : Block) (n : Nat) : Prop :=
  ∃ k span as line, 3 ≤ k ∧ b = .separator span ∧ span.start = Text.byteSize as ∧
    span.stop = span.start + k ∧ src.before n = as ++ List.replicate k '=' ++ line ∧ '\n' ∉ line

def Holds (src : Source) (b : Block) (n : Nat) (c : Char) : Prop :=
  ∃ us vs, (src.excerpt b).text.toList = us ++ c :: vs ∧ b.start + Text.byteSize us = n

/-- The character `c` at the offset `n` is white, or discarded, or lies in exactly one block. -/
def Account (src : Source) (bs : List Block) (n : Nat) (c : Char) : Prop :=
  Text.White [c] ∨ (∃ b ∈ bs, b.Discards src n) ∨ ∃ (i : Nat) (b : Block), bs[i]? = some b ∧
    b.Holds src n c ∧ ∀ (j : Nat) (b' : Block), bs[j]? = some b' → b'.start ≤ n → n < b'.stop → j = i

/-- The text `cs`, which starts at the offset `lo`, is that of the blocks with white space around
them, but for what separators leave of their lines. -/
inductive Tile : (lo : Nat) → (cs : List Char) → List Block → Prop
  | nil {lo : Nat} {ws : List Char} : Text.White ws → Tile lo ws []
  | cons {lo : Nat} {ws inside line cs : List Char} {b : Block} {bs : List Block} :
      Text.White ws → b.start = lo + Text.byteSize ws →
      b.stop = b.start + Text.byteSize inside → b.Leaves inside line →
      Tile (b.stop + Text.byteSize line) cs bs → Tile lo (ws ++ (inside ++ (line ++ cs))) (b :: bs)

namespace Tile

variable {src : Source} {lo : Nat} {ws inside line cs pre as ds : List Char} {c : Char} {b : Block}
  {bs : List Block}

theorem white_append (h : Tile (lo + Text.byteSize ws) cs bs) (hw : Text.White ws) :
    Tile lo (ws ++ cs) bs := by
  cases h with
  | nil hcs => exact .nil (hw.append hcs)
  | cons hvs hstart hstop hleaves htile =>
    rw [← List.append_assoc]
    refine .cons (hw.append hvs) ?_ hstop hleaves htile
    rw [Text.byteSize_append, hstart, Nat.add_assoc]

theorem le_start (h : Tile lo cs bs) : ∀ b ∈ bs, lo ≤ b.start := by
  induction h with
  | nil => simp
  | cons _ hstart hstop _ _ ih =>
    intro b hb
    rcases List.mem_cons.1 hb with rfl | hb
    · omega
    · have := ih b hb
      omega

end Tile

variable {src : Source} {n : Nat} {c : Char} {b : Block} {bs : List Block}

theorem account_first (hb : b.Holds src n c) (hn : n < b.stop) (hbs : ∀ d ∈ bs, b.stop ≤ d.start) :
    Account src (b :: bs) n c := by
  refine .inr (.inr ⟨0, b, rfl, hb, fun j d hj hle _ => ?_⟩)
  cases j with
  | zero => rfl
  | succ j =>
    have := hbs d (List.mem_of_getElem? hj)
    omega

theorem Account.cons (h : Account src bs n c) (hb : b.stop ≤ n) : Account src (b :: bs) n c := by
  rcases h with hc | ⟨d, hd, hdis⟩ | ⟨i, d, hi, hd, hunique⟩
  · exact .inl hc
  · exact .inr (.inl ⟨d, List.mem_cons_of_mem _ hd, hdis⟩)
  · refine .inr (.inr ⟨i + 1, d, hi, hd, fun j d' hj hle hlt => ?_⟩)
    cases j with
    | zero =>
      obtain rfl : b = d' := by simpa using hj
      omega
    | succ j => rw [hunique j d' hj hle hlt]

theorem Tile.account {lo : Nat} {cs pre as ds : List Char} (h : Tile lo cs bs)
    (hsrc : src.chars = pre ++ cs) (hlo : Text.byteSize pre = lo) (hcs : cs = as ++ c :: ds) :
    Account src bs (lo + Text.byteSize as) c := by
  induction h generalizing pre as with
  | @nil lo ws hws => exact .inl (hws.of_mem (c := c) (by simp [hcs]))
  | @cons lo ws inside line cs b bs hws hstart hstop hleaves htile ih =>
    have hoff : b.start = Text.byteSize (pre ++ ws) := by rw [hstart, Text.byteSize_append, hlo]
    rcases Text.append_eq_append_cons hcs with ⟨us, hus⟩ | ⟨us, hus, hinside⟩
    · exact .inl (hws.of_mem (c := c) (by simp [hus]))
    subst hus
    rw [Text.byteSize_append, ← Nat.add_assoc, ← hstart]
    rcases Text.append_eq_append_cons hinside with ⟨vs, hvs⟩ | ⟨vs, hvs, hline⟩
    · have hslice : src.slice b.start b.stop = inside := by
        have hsrc : src.chars = (pre ++ ws) ++ inside ++ (line ++ cs) := by
          rw [hsrc]
          simp only [List.append_assoc]
        rw [Source.slice, hsrc, hstop, hoff, ← Text.byteSize_append, Text.slice_append_append]
      refine account_first ⟨us, vs, ?_, rfl⟩ ?_ fun d hd => ?_
      · rw [Source.excerpt, String.toList_ofList, hslice, hvs]
      · have := c.utf8Size_pos
        rw [hstop, hvs, Text.byteSize_append, Text.byteSize_cons]
        omega
      · have := htile.le_start d hd
        omega
    subst hvs
    rw [Text.byteSize_append, ← Nat.add_assoc, ← hstop]
    rcases Text.append_eq_append_cons hline with ⟨us, hus⟩ | ⟨us, hus, hrest⟩
    · cases hleaves with
      | nothing => simp at hus
      | @rest span n _ hn hnl =>
        subst hus
        have hsrc : src.chars = ((pre ++ ws) ++ List.replicate n '=' ++ vs) ++ (c :: us ++ cs) := by
          rw [hsrc]
          simp only [List.append_assoc]
        have hsize : Text.byteSize (List.replicate n '=') = n := by
          rw [Text.byteSize_replicate, show ('=').utf8Size = 1 from rfl, Nat.mul_one]
        refine .inr (.inl ⟨_, List.mem_cons_self, n, span, pre ++ ws, vs, hn, rfl, hoff, ?_, ?_, ?_⟩)
        · rw [hsize] at hstop
          exact hstop
        · rw [hstop, hoff, ← Text.byteSize_append, ← Text.byteSize_append,
            Source.before_of_append hsrc]
        · exact fun hmem => hnl (by simp [hmem])
    · subst hus
      rw [Text.byteSize_append, ← Nat.add_assoc]
      apply Account.cons
      · apply ih _ _ hrest
        · exact (pre ++ ws ++ inside ++ line)
        · rw [hsrc]
          simp only [List.append_assoc]
        · simp only [Text.byteSize_append, hlo]
          omega
      · omega

end Block

theorem Token.newline_not_mem_texts {ts : List Token} (hs : ∀ t ∈ ts, t.Spelled)
    (hts : ∀ t ∈ ts, t.tag ≠ .newline) : '\n' ∉ texts ts := by
  intro hmem
  obtain ⟨t, ht, hc⟩ : ∃ t ∈ ts, '\n' ∈ t.text := by simpa [texts] using hmem
  exact (hs t ht).newline_not_mem (hts t ht) hc

theorem Parse.Opens.consumed {F : Fault → Prop} {level : Level} {body : Nat → Parse (List Block)}
    {i : Nat} {s u t : Lexer Cursor} {b : Block}
    (hbody : level.room ≠ 0 → Bodied (fun _ => True) level.ruler body) (hs : s.Sound)
    (h : Opens F level body i s u b t) : ∃ ws inside line vs,
      t.consumed = s.consumed ++ (ws ++ (inside ++ (line ++ vs))) ∧ Text.White ws ∧
        Text.White vs ∧ b.start = s.nextOffset + Text.byteSize ws ∧
          b.stop = b.start + Text.byteSize inside ∧ b.Leaves inside line := by
  obtain ⟨ws, hws, hwhite⟩ := h.skips.consumed hs
  have hu := h.steady.sound
  have hstart : b.start = s.nextOffset + Text.byteSize ws := by
    rw [h.spans.start, ← hu.position.2.1, hws, Text.byteSize_append, hs.position.2.1]
  rcases h.drops hbody with
    hb | ⟨-, hequals, hthree, hblock, v, hv, line, nl, ht, hline, hnl⟩
  · obtain ⟨vs, hvs, hwhite'⟩ := h.spans.steady.gap
    have hproper := h.spans.fits.tidy.toProper
    have hbegin : u.source.IsBoundary b.start := hproper.start
    have hend : u.source.IsBoundary b.stop := hproper.stop
    have hstop : b.stop = t.observer.lastEnd := h.spans.covers hb
    have hslice : u.source.before b.stop = u.source.before b.start ++ u.source.slice b.start b.stop :=
      Source.before_eq_append_slice hbegin hend hproper.le
    have hbefore : u.source.before b.start = u.consumed := by rw [h.spans.start, Lexer.consumed]
    refine ⟨ws, u.source.slice b.start b.stop, [], vs, ?_, hwhite, hwhite', hstart, ?_, .nothing⟩
    · rw [hvs, h.spans.source, ← hstop, hslice, hbefore, hws]
      simp only [List.append_assoc, List.nil_append]
    · have := congrArg Text.byteSize hslice
      rwa [Text.byteSize_append, hbegin.byteSize_before, hend.byteSize_before] at this
  · have hspell : ∀ w ∈ line ++ nl, w.Spelled := fun w hw =>
      hv.sound.spelled (ht.pending ▸ List.mem_append_left _ hw)
    refine ⟨ws, Token.texts ((u.ahead 0).run u.pending), Token.texts line, Token.texts nl, ?_,
      hwhite, ?_, hstart, ?_, ?_⟩
    · rw [ht.consumed hv.sound, hv.consumed hu, hws, Token.texts_append]
      simp only [List.append_assoc]
    · exact Token.white_texts (fun w hw => hspell w (List.mem_append_right _ hw)) fun w hw => by
        simp [hnl w hw]
    · rw [Parse.texts_run_equals hu hequals, Text.byteSize_replicate, hblock,
        show ('=').utf8Size = 1 from rfl, Nat.mul_one]
      rfl
    · rw [hblock, Parse.texts_run_equals hu hequals]
      exact .rest hthree (Token.newline_not_mem_texts
        (fun w hw => hspell w (List.mem_append_left _ hw)) hline)

namespace Reader

variable {F : Fault → Prop} {o : Options} {src : Source} {lo n : Nat} {r : Reader}

theorem tile_of_skips {s t : Lexer Cursor} (lo : Nat) (hs : s.Sound) (h : s.Skips t)
    (ht : t.pending = []) : Block.Tile lo (Token.texts s.pending) [] := by
  obtain ⟨ts, hp, hts⟩ := h.white
  rw [ht, List.append_nil] at hp
  exact .nil (Token.white_texts (fun u hu => hs.spelled hu) fun u hu => hts u (hp ▸ hu))

theorem Stands.tile (hr : Excused F o src) (h : Stands F o src lo r)
    (hn : r.lexer.pending.length < n) (hfault : (Document.readFrom n r).fault = none) :
    Block.Tile r.lexer.nextOffset (Token.texts r.lexer.pending) (Document.readFrom n r).blocks := by
  induction n generalizing r lo with
  | zero => omega
  | succ n ih =>
    have hsound := h.steady.sound
    cases h.steps hr with
    | @block b r' u hnext hopens _ _ hstands hlt =>
      simp only [Document.readFrom, hnext] at hfault ⊢
      obtain ⟨ws, inside, line, vs, hconsumed, hws, hvs, hstart, hstop, hleaves⟩ :=
        hopens.consumed Parse.bodied_body hsound
      have hsrc : r'.lexer.source = r.lexer.source := hstands.source.trans h.source.symm
      have hpos := hstands.steady.sound.position
      have htexts : Token.texts r.lexer.pending =
          ws ++ (inside ++ (line ++ (vs ++ Token.texts r'.lexer.pending))) := by
        have hchars := hpos.1
        rw [hsrc, hsound.position.1, hconsumed, List.append_assoc] at hchars
        simpa only [List.append_assoc] using List.append_cancel_left hchars
      have hnext : r'.lexer.nextOffset = b.stop + Text.byteSize line + Text.byteSize vs := by
        rw [← hpos.2.1, hconsumed]
        simp only [Text.byteSize_append, hsound.position.2.1]
        omega
      rw [htexts]
      refine .cons hws hstart hstop hleaves (Block.Tile.white_append ?_ hvs)
      rw [← hnext]
      exact ih hstands (by omega) hfault
    | dummy hnext hdummy hstart hfinished hskips hnil =>
      subst hdummy
      simp only [Document.readFrom, hnext, (readFrom_of_finished hfinished).1]
      have htile := tile_of_skips 0 hsound hskips hnil
      rw [h.fresh hstart]
      have hempty : (Block.dummy ⟨0, 0, 0⟩).stop = (Block.dummy ⟨0, 0, 0⟩).start + Text.byteSize [] :=
        rfl
      exact .cons Text.white_nil rfl hempty .nothing htile
    | last hnext _ hskips hnil =>
      simp only [Document.readFrom, hnext]
      exact tile_of_skips _ hsound hskips hnil
    | fault hnext _ => simp [Document.readFrom, hnext] at hfault

end Reader

namespace Document

variable {o : Options} {text : String}

theorem tile_read (h : (read o text).fault = none) :
    Block.Tile 0 text.toList (read o text).blocks := by
  have hstands := Reader.start_stands (F := fun _ => True) (o := o) text (.inl fun _ => trivial)
  have hsound := hstands.steady.sound
  have hlt : (Reader.start o text).lexer.pending.length < (Source.ofString text).size + 1 :=
    Nat.lt_succ_of_le hsound.length_pending_le
  have htile := hstands.tile (Reader.excused_true o _) hlt h
  have htexts : Token.texts (Reader.start o text).lexer.pending = text.toList := by
    have hchars := hsound.position.1
    rw [show (Reader.start o text).lexer.consumed = [] from Lexer.consumed_start ..] at hchars
    exact hchars.symm
  rwa [hstands.fresh rfl, htexts] at htile

/-- Every character of a text that is read to its end is a space, a tab or a newline, or it follows
the equals signs of a top-level separator on their line, or it lies in the text of exactly one
top-level block. -/
theorem read_account (o : Options) (text : String) (h : (read o text).fault = none)
    (as cs : List Char) (c : Char) (htext : text.toList = as ++ c :: cs) :
    Text.White [c] ∨
    (∃ b ∈ (read o text).blocks, b.Discards (Source.ofString text) (Text.byteSize as)) ∨
    ∃ (i : Nat) (b : Block), (read o text).blocks[i]? = some b ∧
      b.Holds (Source.ofString text) (Text.byteSize as) c ∧
        ∀ (j : Nat) (b' : Block), (read o text).blocks[j]? = some b' →
          b'.start ≤ Text.byteSize as → Text.byteSize as < b'.stop → j = i := by
  have hsrc : (Source.ofString text).chars = [] ++ text.toList := rfl
  have := (tile_read h).account hsrc Text.byteSize_nil htext
  rwa [Nat.zero_add] at this

theorem read_account_separator :
    (read {} "=== x\n- a").fault = none ∧ "=== x\n- a".toList = "=== ".toList ++ 'x' :: "\n- a".toList ∧
      (Text.White ['x'] ∨
        (∃ b ∈ (read {} "=== x\n- a").blocks, b.Discards (Source.ofString "=== x\n- a") 4) ∨
        ∃ (i : Nat) (b : Block), (read {} "=== x\n- a").blocks[i]? = some b ∧
          b.Holds (Source.ofString "=== x\n- a") 4 'x' ∧
            ∀ (j : Nat) (b' : Block), (read {} "=== x\n- a").blocks[j]? = some b' →
              b'.start ≤ 4 → 4 < b'.stop → j = i) :=
  have hfault : (read {} "=== x\n- a").fault = none := by decide +kernel
  ⟨hfault, rfl, read_account {} "=== x\n- a" hfault "=== ".toList "\n- a".toList 'x' rfl⟩

end Document

end TaskMarkup
