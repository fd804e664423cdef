import TaskMarkup.Proofs.Document.Spans
import TaskMarkup.Proofs.Excerpt.Block
import TaskMarkup.Proofs.Excerpt.Cut
import TaskMarkup.Proofs.Origin.Block

/-!
The excerpts of a document. Each holds its block in full: read by itself it gives that block and no
other, moved to where the excerpt starts.
-/

namespace TaskMarkup

namespace Lexer

variable {s : Lexer Cursor} {ts rest : List Token}

theorem Sound.slice (hs : s.Sound) (hp : s.pending = ts ++ rest) :
    s.source.slice s.nextOffset (s.nextOffset + Text.byteSize (Token.texts ts)) =
      Token.texts ts := by
  obtain ⟨hchars, hsize, -⟩ := hs.position
  rw [hp, Token.texts_append, ← List.append_assoc] at hchars
  rw [Source.slice, hchars, ← hsize, ← Text.byteSize_append, Text.slice_append_append]

theorem Sound.pending_nil_of_size_le (hs : s.Sound) (hle : s.source.size ≤ s.nextOffset) :
    s.pending = [] := by
  obtain ⟨hchars, hsize, -⟩ := hs.position
  rw [s.source.size_eq, hchars, Text.byteSize_append, hsize] at hle
  have htexts : Token.texts s.pending = [] := Text.byteSize_eq_zero_iff.1 (by omega)
  cases hp : s.pending with
  | nil => rfl
  | cons tok rest =>
    rw [hp, Token.texts_cons] at htexts
    have := (hs.spelled (t := tok) (by simp [hp])).text_ne_nil
    exact absurd (List.append_eq_nil_iff.1 htexts).1 this

end Lexer

namespace Reader

variable {F F' : Fault → Prop} {o : Options} {text : String} {b : Block} {src : Source}
  {s t u f g : Lexer Cursor} {ts rest : List Token}

theorem Rests.of_stalled {i : Nat} (h : Parse.Rests F i t) (hF : ∀ p n, ¬ F (.stalled p n)) :
    Parse.Rests F' i t := by
  have hspare {n : Nat} (hk : t.Spare F n) : t.Spare F' n :=
    .inr (hk.resolve_left fun h => hF 0 0 (h 0 0))
  cases h with
  | found h =>
    cases h with
    | ended hp he hk => exact .found (.ended hp he (hspare hk))
    | line hm hc hk hd => exact .found (.line hm hc (hspare hk) hd)
  | fresh hm hd hk => exact .fresh hm hd (hspare hk)

structure Starts (o : Options) (text : List Char) (f : Lexer Cursor) : Prop where
  line : Parse.lineStart o.level.ruler (start o (String.ofList text)).lexer = .ok (some 0) f
  steady : f.Steady
  source : f.source.chars = text
  pending : f.pending = tokenize text
  lastEnd : f.observer.lastEnd = 0
  wordStart : f.observer.wordStart = true
  content : (f.ahead 0).tag.isContent = true
  spare : Lexer.defaultLimit ≤ f.limit ∧ f.peeks ≤ 21

theorem exists_starts (hpeeks : Lexer.defaultLimit ≤ o.maxPeeks) (text : List Char)
    (hc : ((tokenize text).head?.map Token.tag).any Tag.isContent = true) :
    ∃ f, Starts o text f := by
  have hstands := start_stands (F := fun _ => False) (String.ofList text) (.inr hpeeks)
  have hsource : (start o (String.ofList text)).lexer.source.chars = text := String.toList_ofList
  have hpending : (start o (String.ofList text)).lexer.pending = tokenize text :=
    (pending_start ..).trans (congrArg tokenize hsource)
  have hcontent : ((start o (String.ofList text)).lexer.ahead 0).tag.isContent = true := by
    rwa [Lexer.isContent_ahead_iff, hpending]
  have hspare : (start o (String.ofList text)).lexer.Spare (fun _ => False) 0 :=
    .inr ⟨Nat.le_trans hpeeks (Nat.le_max_left ..), Nat.le_refl _⟩
  have hends := Parse.ends_lineStart_content (E := fun e _ => e.elim) hstands.steady.sound
    hcontent rfl hspare (by decide)
  obtain ⟨r, f, hline, rfl, hskips, hpf, -, hkf⟩ := (hends o.level.ruler).exists_ok fun e => e.elim
  have hword : f.observer.wordStart = true := by
    rcases hskips.wordStart with ⟨-, hw⟩ | hw
    · exact hw
    · exact hw
  refine ⟨f, hline, hstands.steady.skips (.inr rfl) hskips, ?_, hpf.trans hpending,
    hskips.lastEnd, hword, ?_, ?_⟩
  · rw [hskips.source, hsource]
  · rw [Lexer.ahead, hpf, hskips.source]
    exact hcontent
  · exact (hkf.resolve_left fun h => h 0 0).imp_right fun h => Nat.le_trans h (by decide)

theorem Starts.nextOffset_eq_zero {text : List Char} (h : Starts o text f) : f.nextOffset = 0 := by
  obtain ⟨hchars, hsize, -⟩ := h.steady.sound.position
  rw [h.source, h.pending, texts_tokenize, List.self_eq_append_left] at hchars
  rw [← hsize, hchars, Text.byteSize_nil]

theorem exists_starts_ahead (hpeeks : Lexer.defaultLimit ≤ o.maxPeeks) (hu : u.Sound)
    (hp : u.pending = ts ++ rest) (hne : ts ≠ []) (hc : (u.ahead 0).tag.isContent = true) :
    ∃ f, Starts o (Token.texts ts) f ∧ f.pending.map Token.tag = ts.map Token.tag := by
  have hts := congrArg (List.map Token.tag) (hu.tokenize_texts hp)
  rw [List.map_map, show Token.tag ∘ Token.moved u.nextOffset = Token.tag from rfl] at hts
  obtain ⟨f, hf⟩ := exists_starts hpeeks (Token.texts ts) (by
    obtain ⟨tok, toks, rfl⟩ := List.exists_cons_of_ne_nil hne
    rw [← List.head?_map, ← hts]
    simpa [Lexer.ahead, hp] using hc)
  exact ⟨f, hf, by rw [hf.pending, hts]⟩

theorem Starts.abreast {free : Prop} {plain : free ∨ Token.Plain rest}
    (h : Starts o (Token.texts ts) f) (hu : u.Steady) (hw : u.observer.wordStart = true)
    (hp : u.pending = ts ++ rest)
    (hb : free ∧ (rest = [] ∨ rest.head?.map Token.tag = some .newline) ∨
      ts.getLast?.map Token.tag = some .newline) :
    (Stretch.ahead u ts rest free plain).Abreast True u f :=
  Stretch.abreast_ahead hu hp hw hb h.steady.sound h.source h.pending h.lastEnd h.steady.unpaused
    h.wordStart

theorem Starts.exists_dispatch {text : List Char} (h : Starts o text f) (room : Nat) :
    ∃ marker t, Parse.dispatch room f = .ok marker t := by
  have hannounced : Rule.Ends (fun _ => False) (Parse.dispatch room) f
      (fun marker t => f.Looks t ∧ t.Spare (fun _ => False) 24 ∧ marker = Parse.announced room f)
      fun e _ => e.elim := Parse.ends_announced h.steady.sound (.inr h.spare) (by decide)
  obtain ⟨marker, t, ht, -⟩ := hannounced.exists_ok fun e => e.elim
  exact ⟨marker, t, ht⟩

structure Holds (o : Options) (text : List Char) (marker : Marker) (b : Block)
    (f g : Lexer Cursor) : Prop where
  starts : Starts o text f
  announced : Parse.announced o.level.room f = marker
  opened : Parse.opened o.level (Parse.body o.level.ruler o.level.room) 0 f = .ok b g
  onward : f.Onward g
  steady : g.Steady
  rests : Parse.Rests (fun _ => False) 0 g

theorem Holds.blocks {text : List Char} {marker : Marker} (h : Holds o text marker b f g)
    (hnil : g.pending = []) : Document.blocks o (String.ofList text) = .ok [b] := by
  have hfirst : rule o (start o (String.ofList text)).lexer = .ok (some b) g := by
    rw [rule, Parse.nextBlock_eq, Rule.bind_of_ok h.starts.line]
    exact Rule.bind_of_ok h.opened
  have hends := Parse.ends_lineStart_nil (E := fun e _ => e.elim) h.steady.sound hnil h.rests
  obtain ⟨r, k, hlast, rfl, -⟩ := (hends o.level.ruler).exists_ok fun e => e.elim
  have hsecond : rule o g = .ok none k := by
    rw [rule, Parse.nextBlock_eq, Rule.bind_of_ok hlast]
    rfl
  have hsize : (Source.ofString (String.ofList text)).size ≠ 0 := by
    rw [Source.size_eq]
    intro hzero
    have hchars : text = [] :=
      String.toList_ofList.symm.trans (Text.byteSize_eq_zero_iff.1 hzero)
    have hp := h.starts.pending
    have hcontent := h.starts.content
    rw [Lexer.ahead_zero_of_nil (by rw [hp, hchars]; rfl)] at hcontent
    simp [Tag.isContent, Tag.endsLine] at hcontent
  obtain ⟨n, hn⟩ := Nat.exists_eq_succ_of_ne_zero hsize
  have hread : Document.read o (String.ofList text) =
      Document.readFrom (n + 2) (start o (String.ofList text)) :=
    congrArg (Document.readFrom · _) (congrArg (· + 1) hn)
  have hnext := next_of_some (r := start o (String.ofList text)) rfl hfirst
  have hnext' := next_of_none
    (r := { start o (String.ofList text) with lexer := g, started := true }) rfl hsecond
  rw [Document.blocks, hread]
  simp only [Document.readFrom, hnext, hnext', if_true]

theorem exists_blocks {text : List Char} {P : Block → Lexer Cursor → Prop}
    (hpeeks : Lexer.defaultLimit ≤ o.maxPeeks)
    (hc : ((tokenize text).head?.map Token.tag).any Tag.isContent = true)
    (hF : ∀ f, F f → ¬f.IsArithmetic)
    (h : ∀ f, Starts o text f → Rule.Ends F
      (Parse.opened o.level (Parse.body o.level.ruler o.level.room) 0) f
      (fun b g => P b g ∧ g.pending = []) fun e _ => e.elim) :
    ∃ f b g, P b g ∧ Parse.Spans Fault.IsArithmetic 0 f b g ∧ g.nextOffset = Text.byteSize text ∧
      Document.blocks o (String.ofList text) = .ok [b] := by
  obtain ⟨f, hf⟩ := exists_starts hpeeks text hc
  have hspans := Parse.ends_opened (E := fun e _ => e.elim) (i := 0)
    (Parse.excused_arithmetic o.level.ruler)
    (fun hroom : o.level.room ≠ 0 => Parse.bodied_body hroom) hf.steady hf.content (.inr hf.spare)
  obtain ⟨b, g, hopened, ⟨hb, hnil⟩, hg⟩ := ((h f hf).meet hspans hF).exists_ok fun e => e.elim
  have hholds : Holds o text _ b f g := ⟨hf, rfl, hopened, hg.toOnward, hg.steady,
    Rests.of_stalled hg.rests fun _ _ => id⟩
  refine ⟨f, b, g, hb, hg, ?_, hholds.blocks hnil⟩
  simp [hg.steady.sound.nextOffset_eq, hnil, hg.source, f.source.size_eq, hf.source]

theorem exists_block {text : List Char} {marker : Marker} {P : Block → Prop}
    (hpeeks : Lexer.defaultLimit ≤ o.maxPeeks)
    (hc : ((tokenize text).head?.map Token.tag).any Tag.isContent = true)
    (hm : ∀ f : Lexer Cursor, f.pending = tokenize text →
      Parse.announced o.level.room f = marker)
    (h : ∀ f t, Starts o text f → f.Took [] t → Rule.Ends Fault.IsInternal
      (Parse.block o.level (Parse.body o.level.ruler o.level.room) 0 marker) t
      (fun b g => P b ∧ g.pending = []) fun e _ => e.elim) :
    ∃ b, P b ∧ Document.blocks o (String.ofList text) = .ok [b] := by
  obtain ⟨-, b, -, hb, -, -, hblocks⟩ := exists_blocks (P := fun b _ => P b) hpeeks hc
    (fun _ => id) fun f hf => Parse.ends_opened_announced o.level _ 0 hf.steady.sound
      (hm f hf.pending) (f.spare_internal 0) (by decide) fun t ht _ => h f t hf ht
  exact ⟨b, hb, hblocks⟩

theorem Opens.holds (hpeeks : Lexer.defaultLimit ≤ o.maxPeeks) (h : Opens F o s u b t)
    (hset : s.Settled) (hp : u.pending = ts ++ rest)
    (hbounds : (rest = [] ∨ rest.head?.map Token.tag = some .newline) ∨
      ts.getLast?.map Token.tag = some .newline)
    (hle : t.observer.lastEnd ≤ u.nextOffset + Text.byteSize (Token.texts ts)) :
    ∃ b' f g, Holds o (Token.texts ts) (Parse.announced o.level.room u) b' f g ∧
      b = b'.moved u.nextOffset ∧ t.observer.lastEnd = g.observer.lastEnd + u.nextOffset := by
  have hu := h.steady
  have hcontent := h.content
  have hlt := h.spans.lt
  have hne : ts ≠ [] := by
    rintro rfl
    simp only [Token.texts_nil, Text.byteSize_nil] at hle
    omega
  obtain ⟨f, hf, -⟩ := exists_starts_ahead hpeeks hu.sound hp hne hcontent
  have hword : u.observer.wordStart = true := (hset.skips h.skips).wordStart hcontent
  let x := Stretch.ahead u ts rest True (.inl trivial)
  have habreast : x.Abreast True u f := hf.abreast hu hword hp (hbounds.imp (⟨trivial, ·⟩) id)
  have horigin : x.origin = u.nextOffset := Stretch.origin_ahead hu.sound
  have hcutoff : x.cut = u.nextOffset + Text.byteSize (Token.texts ts) :=
    Stretch.cut_ahead hu.sound
  have hfollows := (Parse.follows_opened (E := fun _ _ => False) (fun hr => Parse.nested_body hr)
    habreast hu hf.steady hcontent hf.content (.inl trivial)).of_ok h.opened
  have hends := Parse.ends_opened (F := Fault.IsArithmetic) (E := fun e _ => e.elim) (i := 0)
    (Parse.excused_arithmetic o.level.ruler)
    (fun hroom : o.level.room ≠ 0 => Parse.bodied_body hroom) hf.steady hf.content (.inr hf.spare)
  have hnot : ¬ t.Lost x.cut := fun hlost => by
    have := hlost.lt
    omega
  obtain ⟨b', g, hopened, ⟨hmoved, hnear⟩, hg⟩ := ((hfollows.resolve_left fun h => hnot h.1).meet
    (G := fun _ => False) hends fun _ h h' => h h').exists_ok fun _ _ h => h.1
  obtain ⟨_, _, hdispatch, -⟩ := Rule.exists_of_bind h.opened
  obtain ⟨_, _, hdispatch'⟩ := hf.exists_dispatch o.level.room
  have hlast := hnear.lastEnd
  rw [horigin] at hmoved hlast
  exact ⟨b', f, g, ⟨hf, (Parse.announced_of_abreast habreast hdispatch hdispatch').symm, hopened,
    hg.toOnward, hg.steady, Rests.of_stalled hg.rests fun _ _ => id⟩, hmoved, by omega⟩

structure Quotes (o : Options) (src : Source) (marker : Marker) (b b' : Block)
    (f g : Lexer Cursor) : Prop
    extends Holds o (src.excerpt b).text.toList marker b' f g where
  moved : b = b'.moved b.start
  ended : g.pending = []

theorem Opens.exists_cut (h : Opens F o s u b t) (hb : ∀ span, b ≠ .separator span) :
    ∃ ts rest, u.pending = ts ++ rest ∧
      t.observer.lastEnd = u.nextOffset + Text.byteSize (Token.texts ts) ∧
      ((rest = [] ∨ rest.head?.map Token.tag = some .newline) ∨
        ts.getLast?.map Token.tag = some .newline) ∧
      (u.source.excerpt b).text.toList = Token.texts ts := by
  have hlt := h.spans.lt
  have hends : u.source.EndsLine t.observer.lastEnd := by
    rw [← h.spans.source]
    exact h.spans.settled.done.resolve_right (by omega)
  obtain ⟨ts, rest, hp, hcut, hbounds⟩ := h.steady.sound.cut hends hlt
  refine ⟨ts, rest, hp, hcut, hbounds, ?_⟩
  rw [Source.excerpt, h.spans.covers hb, h.spans.start, hcut, h.steady.sound.slice hp,
    String.toList_ofList]

theorem Opens.exists_quotes_of_ne_separator (hpeeks : Lexer.defaultLimit ≤ o.maxPeeks)
    (h : Opens F o s u b t) (hset : s.Settled) (hb : ∀ span, b ≠ .separator span) :
    ∃ b' f g, Quotes o u.source (Parse.announced o.level.room u) b b' f g := by
  obtain ⟨ts, rest, hp, hcut, hbounds, htext⟩ := h.exists_cut hb
  obtain ⟨b', f, g, hholds, hmoved, hlast⟩ := h.holds hpeeks hset hp hbounds (by omega)
  refine ⟨b', f, g, ⟨htext ▸ hholds, h.spans.start ▸ hmoved, ?_⟩⟩
  apply hholds.steady.sound.pending_nil_of_size_le
  have hle := hholds.steady.lastEnd_le
  rw [hholds.onward.source, f.source.size_eq, hholds.starts.source]
  omega

theorem Opens.exists_quotes_of_drops (hpeeks : Lexer.defaultLimit ≤ o.maxPeeks)
    (h : Opens F o s u b t) (hm : Parse.announced o.level.room u = .separator)
    (hb : Parse.Drops 0 u b t) :
    ∃ b' f g, Quotes o u.source (Parse.announced o.level.room u) b b' f g ∧
      ∀ tok ∈ f.pending, tok.tag = .equals := by
  obtain ⟨hequals, hthree, hblock, v, hv, -⟩ := hb
  have hu := h.steady.sound
  have htexts := Parse.texts_run_equals hu hequals
  have hp := hv.pending
  have htags : ∀ tok ∈ (u.ahead 0).run u.pending, tok.tag = .equals := fun tok htok => by
    have htag := List.mem_takeWhile_imp htok
    rw [beq_iff_eq] at htag
    rw [htag, hequals]
  generalize (u.ahead 0).run u.pending = ts at *
  have hne : ts ≠ [] := by
    rintro rfl
    simp at hthree
  have hsize : Text.byteSize (Token.texts ts) = ts.length := by
    rw [htexts, Text.byteSize_replicate, show ('=').utf8Size = 1 from rfl, Nat.mul_one]
  have htext : (u.source.excerpt b).text.toList = Token.texts ts := by
    rw [Source.excerpt, hblock, String.toList_ofList]
    show u.source.slice u.nextOffset (u.nextOffset + ts.length) = _
    rw [← hsize, hu.slice hp]
  obtain ⟨f, hf, hmap⟩ := exists_starts_ahead hpeeks hu hp hne h.content
  -- All that is left there are the equals signs.
  have hall : ∀ tok ∈ f.pending, tok.tag = .equals := fun tok htok => by
    have htag : tok.tag ∈ ts.map Token.tag := hmap ▸ List.mem_map_of_mem htok
    obtain ⟨tok', htok', heq⟩ := List.mem_map.1 htag
    rw [← heq, htags tok' htok']
  have hlen : f.pending.length = ts.length := by simpa using congrArg List.length hmap
  have hahead : (f.ahead 0).tag = .equals := by
    cases hpf : f.pending with
    | nil =>
      rw [hpf, List.length_nil] at hlen
      omega
    | cons tok toks =>
      rw [Lexer.ahead_zero_of_cons hpf]
      exact hall tok (by simp [hpf])
  have hrun : (f.ahead 0).run f.pending = f.pending :=
    List.takeWhile_eq_self_iff.2 fun tok htok => by rw [hall tok htok, hahead, beq_self_eq_true]
  have hmarker : Parse.announced o.level.room f = .separator := by
    have hclassified : Parse.classified f = .separator := by
      simp only [Parse.classified, hahead, hrun, hlen, if_pos hthree]
    simp [Parse.announced, hclassified, Marker.opensBody]
  have hends := Parse.ends_opened_separator (F := fun _ => False) (E := fun e _ => e.elim) (i := 0)
    (Parse.body o.level.ruler o.level.room) hf.steady hmarker hf.content (.inr hf.spare)
  obtain ⟨b', g, hopened, hg, -, -, hblock', w, hw, line, nl, htook, -⟩ :=
    hends.exists_ok fun e => e.elim
  have hnil : g.pending = [] := by
    have hpw := hw.pending
    rw [hrun, List.self_eq_append_right] at hpw
    have := htook.pending
    rw [hpw, eq_comm, List.append_eq_nil_iff] at this
    exact this.2
  rw [hrun, hlen, hf.nextOffset_eq_zero] at hblock'
  have hmoved : b = b'.moved b.start := by
    rw [hblock, hblock']
    show Block.separator _ = Block.separator ⟨0 + u.nextOffset, 0 + ts.length + u.nextOffset, 0⟩
    rw [Nat.zero_add, Nat.zero_add, Nat.add_comm]
  exact ⟨b', f, g, ⟨⟨htext ▸ hf, hmarker.trans hm.symm, hopened, hg.toOnward, hg.steady, hg.rests⟩,
    hmoved, hnil⟩, hall⟩

theorem Opens.exists_quotes (hpeeks : Lexer.defaultLimit ≤ o.maxPeeks) (h : Opens F o s u b t)
    (hset : s.Settled) :
    ∃ b' f g, Quotes o u.source (Parse.announced o.level.room u) b b' f g := by
  rcases h.drops Parse.bodied_body with hb | ⟨hm, hdrops⟩
  · exact h.exists_quotes_of_ne_separator hpeeks hset hb
  · obtain ⟨b', f, g, hquotes, -⟩ := h.exists_quotes_of_drops hpeeks hm hdrops
    exact ⟨b', f, g, hquotes⟩

/-- What is claimed of the excerpt of a block. -/
def Whole (o : Options) (src : Source) (b : Block) : Prop :=
  Document.blocks o (src.excerpt b).text = .ok [(src.excerpt b).block] ∧
    (src.excerpt b).block.moved b.start = b

theorem whole_of_blocks (b' : Block) (hmoved : b = b'.moved b.start)
    (hb : Document.blocks o (src.excerpt b).text = .ok [b']) : Whole o src b := by
  have hblock : (src.excerpt b).block = b' := by
    have hback := Block.relativeTo_moved b.start b'
    rwa [← hmoved] at hback
  rw [Whole, hblock]
  exact ⟨hb, hmoved.symm⟩

theorem Quotes.whole {marker : Marker} {b' : Block} (h : Quotes o src marker b b' f g) :
    Whole o src b :=
  whole_of_blocks b' h.moved (by
    have hblocks := h.blocks h.ended
    rwa [String.ofList_toList] at hblocks)

theorem blocks_empty (hpeeks : Lexer.defaultLimit ≤ o.maxPeeks) :
    Document.blocks o (String.ofList []) = .ok [.dummy ⟨0, 0, 0⟩] := by
  have hstands := start_stands (F := fun _ => False) (String.ofList []) (.inr hpeeks)
  have hpending : (start o (String.ofList [])).lexer.pending = [] := pending_start ..
  have hends := Parse.ends_lineStart_nil (E := fun e _ => e.elim) hstands.steady.sound hpending
    hstands.rests
  obtain ⟨r, t, hline, rfl, -⟩ := (hends o.level.ruler).exists_ok fun e => e.elim
  have hrule : rule o (start o (String.ofList [])).lexer = .ok none t := by
    rw [rule, Parse.nextBlock_eq, Rule.bind_of_ok hline]
    rfl
  have hnext := next_of_none (r := start o (String.ofList [])) rfl hrule
  have hread : Document.read o (String.ofList []) =
      Document.readFrom 1 (start o (String.ofList [])) := rfl
  rw [Document.blocks, hread]
  simp only [Document.readFrom, hnext]
  rfl

theorem whole_dummy (hpeeks : Lexer.defaultLimit ≤ o.maxPeeks) (src : Source) :
    Whole o src (.dummy ⟨0, 0, 0⟩) := by
  refine whole_of_blocks (.dummy ⟨0, 0, 0⟩) rfl ?_
  have htext : (src.excerpt (.dummy ⟨0, 0, 0⟩)).text = String.ofList [] :=
    congrArg String.ofList (Text.takeBytes_zero _)
  rw [htext, blocks_empty hpeeks]

theorem Stands.whole {lo n : Nat} {r : Reader} (hpeeks : Lexer.defaultLimit ≤ o.maxPeeks)
    (h : Stands (fun _ => True) o src lo r) :
    ∀ b ∈ (Document.readFrom n r).blocks, Whole o src b := by
  induction n generalizing r lo with
  | zero => simp [Document.readFrom]
  | succ n ih =>
    cases h.steps (Reader.excused_true o _) with
    | @block b r' u hnext hopens _ _ hstands _ =>
      simp only [Document.readFrom, hnext]
      intro b' hb'
      rcases List.mem_cons.1 hb' with rfl | hb'
      · have hsource : u.source = src := hopens.skips.source.trans h.source
        obtain ⟨b'', f, g, hquotes⟩ := hopens.exists_quotes hpeeks h.settled
        exact hsource ▸ hquotes.whole
      · exact ih hstands b' hb'
    | dummy hnext hdummy _ hfinished _ _ =>
      simp only [Document.readFrom, hnext, (readFrom_of_finished hfinished).1, List.mem_singleton]
      rintro b rfl
      rw [hdummy]
      exact whole_dummy hpeeks src
    | last hnext _ _ _ => simp [Document.readFrom, hnext]
    | fault hnext _ => simp [Document.readFrom, hnext]

end Reader

namespace Document

/-- The excerpts of a document are those of its blocks in order. Each has the text between the
offsets of its block and the block as counted from there, and its text alone has that block only. -/
theorem excerpts_whole (o : Options) (text : String) (hpeeks : 100 ≤ o.maxPeeks) :
    excerpts o text = (blocks o text).map (List.map (Source.ofString text).excerpt) ∧
      ∀ b ∈ (read o text).blocks, ∃ as cs,
        text.toList = as ++ (((Source.ofString text).excerpt b).text.toList ++ cs) ∧
        Text.byteSize as = b.start ∧
        Text.byteSize as +
          Text.byteSize ((Source.ofString text).excerpt b).text.toList = b.stop ∧
        ((Source.ofString text).excerpt b).block.moved b.start = b ∧
        blocks o ((Source.ofString text).excerpt b).text =
          .ok [((Source.ofString text).excerpt b).block] := by
  refine ⟨rfl, fun b hb => ?_⟩
  have hstands := Reader.start_stands (F := fun _ => True) (o := o) text (.inl fun _ => trivial)
  obtain ⟨hblocks, hmoved⟩ := hstands.whole hpeeks b hb
  have hrow := hstands.blocks (Reader.excused_true o _)
    (n := (Reader.start o text).source.size + 1)
  have hproper := (hrow.fits b hb).tidy.toProper
  have hslice : (Source.ofString text).before b.stop = (Source.ofString text).before b.start ++
      ((Source.ofString text).excerpt b).text.toList := by
    rw [Source.excerpt, String.toList_ofList]
    exact Source.before_eq_append_slice hproper.start hproper.stop hproper.le
  have hsizes := congrArg Text.byteSize hslice
  have hstop : Text.byteSize ((Source.ofString text).before b.stop) = b.stop :=
    hproper.stop.byteSize_before
  rw [hstop, Text.byteSize_append] at hsizes
  obtain ⟨as, cs, hchars, hsize⟩ := hproper.stop
  have hbefore : (Source.ofString text).before b.stop = as := by
    rw [show b.stop = Text.byteSize as from hsize.symm, Source.before_of_append hchars]
  refine ⟨_, cs, ?_, hproper.start.byteSize_before, hsizes.symm, hmoved, hblocks⟩
  show text.toList = (Source.ofString text).before b.start ++ _
  rw [← List.append_assoc, ← hslice, hbefore]
  exact hchars

theorem excerpts_whole_separator : 100 ≤ ({} : Options).maxPeeks ∧
    ∃ b ∈ (read {} " - a\n=== x").blocks, b.span = ⟨5, 8, 0⟩ ∧ ∃ as cs,
      " - a\n=== x".toList =
        as ++ (((Source.ofString " - a\n=== x").excerpt b).text.toList ++ cs) ∧
      Text.byteSize as = b.start ∧
      Text.byteSize as +
        Text.byteSize ((Source.ofString " - a\n=== x").excerpt b).text.toList = b.stop ∧
      ((Source.ofString " - a\n=== x").excerpt b).block.moved b.start = b ∧
      blocks {} ((Source.ofString " - a\n=== x").excerpt b).text =
        .ok [((Source.ofString " - a\n=== x").excerpt b).block] := by
  have hpeeks : 100 ≤ ({} : Options).maxPeeks := Nat.le_refl _
  have hb : ∃ b ∈ (read {} " - a\n=== x").blocks, b.span = ⟨5, 8, 0⟩ := by decide +kernel
  obtain ⟨b, hb, hspan⟩ := hb
  exact ⟨hpeeks, b, hb, hspan, (excerpts_whole {} " - a\n=== x" hpeeks).2 b hb⟩

end Document

end TaskMarkup
