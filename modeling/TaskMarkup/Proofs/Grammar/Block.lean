import TaskMarkup.Proofs.Grammar.Directive
import TaskMarkup.Proofs.Grammar.Table

namespace TaskMarkup.Parse

open Rule

variable {F : Fault → Prop} {E : Empty → Lexer Cursor → Prop} {s t u : Lexer Cursor} {i k n : Nat}
  {level : Level} {ruler : Ruler} {body : Nat → Parse (List Block)} {b : Block} {bs : List Block}

theorem ends_marker {marker : Marker} (ha : Announces s marker) (hst : s.Looks t)
    (hk : t.Spare F k) (hk' : k < 97) (hn : marker.heads.length = n) (hpos : 0 < n) :
    Ends F (eatMany n) t (fun _ u => s.Reads u ∧ u.Spare F 0) E := by
  subst hn
  obtain ⟨hlen, hnl⟩ := ha.scans
  refine (Ends.eatMany hst.sound (by rwa [hst.pending]) hk (by omega)).imp ?_
  rintro - u ⟨hu, hku⟩
  rw [if_neg (by omega)] at hku
  rw [hst.pending] at hu
  refine ⟨⟨_, ?_, hnl, by simpa using hst.took.trans hu⟩, hku⟩
  intro hnil
  have := congrArg List.length hnil
  simp only [List.length_take, List.length_nil] at this
  omega

theorem ends_header {size : Nat} (hr : level.ruler.Excused F 0 s) (hs : s.Firm)
    (ha : Announces s (.header size)) (hk : s.Spare F 24) :
    Ends F (header level size i) s (fun b t => Spans F i s b t) E := by
  refine Ends.bind (Ends.peek (.refl hs.sound) (by decide) hk (by decide) fun t ht hkt _ => ?_)
  rw [hs.sound.start_ahead]
  refine Ends.seq (ends_marker ha ht hkt (by decide) (by simp [Marker.heads])
    (ha.pos size rfl)) ?_
  rintro - u ⟨hu, hku⟩
  refine Ends.seq (Ends.eatInlineSpace hu.sound hku (by decide)) ?_
  rintro - v ⟨hv, hkv, -⟩
  have hsv : s.Reads v := hu.scan (.of_takeWhile hv fun _ => Tag.ne_newline_of_isInlineSpace)
  have hfv := hsv.firm hs
  have hlast := hsv.lastEnd_eq hs.toSteady
  have hlt := hsv.nextOffset_lt hs.toSteady
  refine Ends.seq (ends_paragraph (p := ⟨level, i, .singleLine⟩) (hr.line hsv.source) hfv
    (hkv.mono (by decide))) ?_
  intro child w hw
  have hsw := (hsv.onward hs.toSteady).trans hw.toOnward
  have hle := hw.lastEnd_le
  have hstart := hw.start
  have hstop := hw.stop
  -- The newline behind the text belongs to the header, where there is one.
  have hdone (x : Lexer Cursor) (hwx : w.Onward x) (hx : x.Steady) (hset : x.Settled)
      (hrests : Rests F i x) : Ends F (do
        let stop := max (← endFrom s.nextOffset) child.stop
        return .header ⟨s.nextOffset, stop, i⟩ size child : Parse Block) x
          (fun b t => Spans F i s b t) E := by
    have hsx := hsw.trans hwx
    have hlx := hwx.lastEnd_le
    have hmax : max (max x.observer.lastEnd s.nextOffset) child.stop =
        max x.observer.lastEnd s.nextOffset := by omega
    refine Ends.bind (Ends.endFrom (Ends.pure ?_))
    have hfit : child.Faithful s.source := hsv.source ▸ hw.faithful
    have hend : max x.observer.lastEnd s.nextOffset = x.observer.lastEnd := by omega
    rw [hmax]
    refine ⟨hsx, hx, hrests, hset, ⟨⟨tidy_endFrom hx hsx.source hs.sound.isBoundary_nextOffset,
      ⟨?_, hfit.tidy.le, ?_⟩, hfit.fits⟩, hfit.renders⟩, rfl, Nat.le_of_eq hend, fun _ => hend,
      by omega⟩
    · show _ ≤ child.start
      simp only
      omega
    · show child.stop ≤ _
      simp only
      omega
  refine Ends.seq (Ends.eatIf hw.firm.sound (by decide) hw.spare (by decide)) ?_
  rintro r x (⟨-, htag, hx, hkx, hz⟩ | ⟨nl, -, hnl, hx, hkx⟩)
  · have hsteady := hw.firm.toSteady.looks hx
    have hp : x.pending = [] := by
      rw [hx.pending]
      cases hw.ended with
      | eof hp _ => exact hp
      | line _ hnl => exact absurd hnl htag
      | bar hmode _ => simp at hmode
      | rests hmode _ => simp at hmode
    exact hdone x hx.onward hsteady (hsteady.settled hp)
      (rests_eof hp ((hx.sound.atEof_iff hz).2 hp) (hkx.mono (by decide)) i)
  · obtain ⟨hwx, hsteady, hset, hrests⟩ := rests_newline hw.firm hx hnl hkx
    exact hdone x hwx hsteady hset (hrests i)

/-- A separator was read, which covers the equals signs ahead. What follows them on their line is
dropped. -/
structure Drops (i : Nat) (s : Lexer Cursor) (b : Block) (t : Lexer Cursor) : Prop where
  equals : (s.ahead 0).tag = .equals
  three : 3 ≤ ((s.ahead 0).run s.pending).length
  block : b = .separator ⟨s.nextOffset, s.nextOffset + ((s.ahead 0).run s.pending).length, i⟩
  line : ∃ u, s.Took ((s.ahead 0).run s.pending) u ∧ TookLine u t

theorem texts_run_equals (hs : s.Sound) (htag : (s.ahead 0).tag = .equals) :
    Token.texts ((s.ahead 0).run s.pending) =
      List.replicate ((s.ahead 0).run s.pending).length '=' :=
  Token.texts_run (by rw [htag, Tag.char?]) fun _ hu => hs.spelled hu

theorem ends_separator (hs : s.Firm) (ha : Announces s .separator) (hk : s.Spare F 24) :
    Ends F (separator i) s (fun b t => Spans F i s b t ∧ Drops i s b t) E := by
  obtain ⟨hp, htag⟩ := ha.cons rfl
  have hthree : 3 ≤ ((s.ahead 0).run s.pending).length := Token.le_length_run ha.heads htag
  have hc : (s.ahead 0).tag.char? = some '=' := by rw [htag, Tag.char?]
  refine Ends.bind (Ends.peek (.refl hs.sound) (by decide) hk (by decide) fun t ht hkt _ => ?_)
  have hpt := ht.pending.trans hp
  refine Ends.seq (Ends.repeats ht.sound hpt hc) ?_
  rintro n _ ⟨hsame, hn⟩
  rw [hsame]
  rw [ht.pending] at hn
  have hle := Token.length_run_le (s.ahead 0) s.pending
  refine Ends.seq (Ends.eatMany ht.sound (by rw [ht.pending]; omega) hkt (by decide)) ?_
  rintro - u ⟨hu, hku⟩
  rw [if_neg (by omega)] at hku
  -- The equals signs are what the tokens ahead are, as many as were counted.
  have htook : s.Took ((s.ahead 0).run s.pending) u := by
    have htake : s.pending.take n = (s.ahead 0).run s.pending := by
      rw [hn]
      exact (List.prefix_iff_eq_take.1 (List.takeWhile_prefix _)).symm
    have := ht.took.trans hu
    rwa [ht.pending, htake, List.nil_append] at this
  have hsu : s.Reads u := by
    refine ⟨_, fun hnil => ?_, fun v hv => ?_, htook⟩
    · rw [hnil] at hthree
      simp at hthree
    · have htag' : v.tag = (s.ahead 0).tag := by simpa [Token.run] using List.mem_takeWhile_imp hv
      simp [htag', htag]
  have hfu := hsu.firm hs
  have hlt := hsu.nextOffset_lt hs.toSteady
  have hou := hsu.onward hs.toSteady
  have hlast : u.observer.lastEnd = s.nextOffset + ((s.ahead 0).run s.pending).length := by
    rw [hsu.lastEnd_eq hs.toSteady, Lexer.nextOffset_of_pending hs.sound htook.sound htook.source
      htook.pending, texts_run_equals hs.sound htag, Text.byteSize_replicate,
      Tag.utf8Size_of_char? hc, Nat.mul_one]
  refine Ends.bind (Ends.endFrom (Ends.seq (ends_eatLine hfu (hku.mono (by decide))) ?_))
  rintro - v ⟨⟨hv, hsteady, hset, hrests⟩, hline⟩
  have hle := hv.lastEnd_le
  rw [hs.sound.start_ahead, Nat.max_eq_left (Nat.le_of_lt hlt)]
  have hfit : (Block.separator ⟨s.nextOffset, u.observer.lastEnd, i⟩).Fits s.source := by
    have htidy : (⟨s.nextOffset, max u.observer.lastEnd s.nextOffset, i⟩ : Span).Tidy s.source :=
      tidy_endFrom hfu.toSteady hou.source hs.sound.isBoundary_nextOffset
    rwa [Nat.max_eq_left (Nat.le_of_lt hlt)] at htidy
  exact Ends.pure ⟨⟨hou.trans hv, hsteady, hrests i, hset, ⟨hfit, trivial⟩, rfl, hle,
    fun h => absurd rfl (h _), by omega⟩, htag, hthree, by rw [hlast], _, htook, hline⟩

theorem ends_blankTurn (count : Nat) (hr : ruler.Excused F 0 s) (hs : s.Steady) (hd : s.LineDone)
    (hk : s.Spare F 0) :
    Ends F (blankTurn ruler count) s (fun turn t => (s.Skips t ∧ t.Steady) ∧ turn.Gives
      (fun r => (t.ahead 0).tag.isInlineSpace = false ∧ (t.ahead 0).tag ≠ .newline ∧ t.Spare F 2 ∧
        r.1 ≤ ruler.widest * s.source.size)
      fun _ => t.Spare F 0 ∧ t.pending.length < s.pending.length) E := by
  refine Ends.seq (ends_indentColumns hr hs.sound hk (by decide)) ?_
  intro columns u hu
  have hsu := hs.skips hd hu.toSkips
  refine Ends.bind (Ends.peekTag (.refl hu.sound) (by decide) hu.spare (by decide)
    fun v hv hkv _ => ?_)
  have hsv := hu.toSkips.looks hv
  split
  · next hnl =>
    refine Ends.pure ⟨⟨hsv, hsu.looks hv⟩, ?_, ?_, hkv, hu.columns_le hs.sound⟩
    · rw [hv.ahead, hu.next]
    · rw [hv.ahead]
      exact hnl
  · next hnl =>
    have hnl : (u.ahead 0).tag = .newline := by simpa using hnl
    obtain ⟨-, hp⟩ := hu.sound.tag_ahead_zero.resolve_left fun h => by simp [h.1] at hnl
    refine Ends.bind (Ends.paused (Ends.eat (.refl hv.sound.onCursor) hkv.onCursor (by decide)
      (hv.pending.trans hp) fun w hw hrest hkw => ⟨_, hw.took, by simp [hnl], fun hskip =>
        Ends.pure ⟨⟨hsv.trans hskip, (hsu.looks hv).skips (hd.skips hsv) hskip⟩, hkw, ?_⟩⟩))
    have hlen := hu.suffix.length_le
    rw [hp, List.length_cons] at hlen
    rw [Lexer.pending_onCursor, hrest]
    omega

theorem ends_skipBlankLines (hr : ruler.Excused F 0 s) (hs : s.Steady) (hd : s.LineDone)
    (hk : s.Spare F 0) :
    Ends F (skipBlankLines ruler) s (fun r t => s.Skips t ∧ t.Steady ∧
      (t.ahead 0).tag.isInlineSpace = false ∧ (t.ahead 0).tag ≠ .newline ∧ t.Spare F 2 ∧
        r.1 ≤ ruler.widest * s.source.size) E := by
  refine Ends.loop (fun _ t => s.Skips t ∧ t.Steady ∧ t.Spare F 0) hs.sound
    ⟨.refl hs.sound hs.unpaused, hs, hk⟩ ?_
  rintro count t ⟨hst, ht, hkt⟩
  refine (ends_blankTurn count (hr.line hst.source) ht (hd.skips hst) hkt).imp ?_
  rintro turn u ⟨⟨htu, hu⟩, hturn⟩
  rw [hst.source] at hturn
  have hsu := hst.trans htu
  cases turn with
  | done r => exact ⟨hsu, hu, hturn⟩
  | again count => exact ⟨⟨hsu, hu, hturn.1⟩, hturn.2⟩

theorem ends_columnSpaces {columns : Nat} (hr : F .capacity ∨ ∀ n ∈ ruler.maxColumns, 2 * columns ≤ n) :
    Ends F (columnSpaces ruler columns) s (fun _ t => t = s) E := by
  unfold columnSpaces
  split
  · next h =>
    refine hr.elim Ends.throw fun hr => ?_
    cases hmax : ruler.maxColumns with
    | none => simp [hmax] at h
    | some n =>
      have hle := hr n hmax
      simp only [hmax, Option.any_some, decide_eq_true_eq] at h
      omega
  · exact Ends.pure rfl

def TookFirst (s t : Lexer Cursor) : Prop :=
  ∀ tok rest, s.pending = tok :: rest → tok.tag ≠ .newline → tok.stop ≤ t.observer.lastEnd

theorem TookFirst.onward (h : TookFirst s t) (htu : t.Onward u) : TookFirst s u :=
  fun tok rest hp htag => Nat.le_trans (h tok rest hp htag) htu.lastEnd_le

theorem ends_rawNext {base columns blank : Nat} {text : List Char} (hs : s.Steady)
    (hset : s.Settled) (hspace : (s.ahead 0).tag.isInlineSpace = false)
    (hnl : (s.ahead 0).tag ≠ .newline)
    (hr : F .capacity ∨ ∀ n ∈ ruler.maxColumns, 2 * (columns - base) ≤ n) (hk : s.Spare F 2) :
    Ends F (rawNext ruler base i text columns blank) s (fun turn t => s.Onward t ∧ turn.Gives
      (fun _ => t.Steady ∧ t.Settled ∧ Rests F i t)
      fun _ => (t.Firm ∧ t.Spare F 6) ∧ t.pending.length ≤ s.pending.length) E := by
  refine Ends.bind (Ends.peekTag (.refl hs.sound) (by decide) hk (by decide)
    fun t ht hkt hz => ?_)
  have hst : s.Skips t := (Lexer.Skips.refl hs.sound hs.unpaused).looks ht
  split
  · next heof =>
    have hp : t.pending = [] :=
      ht.pending.trans (hs.sound.tag_ahead_zero.resolve_right fun h => h.1 heof).2
    exact Ends.pure ⟨ht.onward, hs.looks ht, hset.skips hst,
      rests_eof hp ((ht.sound.atEof_iff hz).2 hp) (hkt.mono (by decide)) i⟩
  · next heof =>
    have hcontent : (t.ahead 0).tag.isContent = true := by
      rw [ht.ahead, Tag.isContent_iff]
      exact ⟨hspace, by simpa [Tag.endsLine] using ⟨hnl, heof⟩⟩
    have hmeasured (m : Option Nat) : s.Onward (t.onCursor (.onLine m)) ∧
        (t.onCursor (.onLine m)).Firm ∧ (t.onCursor (.onLine m)).Settled := by
      refine ⟨(hst.onLine m).toOnward, ((hs.looks ht).onLine m).firm ?_, hset.skips (hst.onLine m)⟩
      rw [Lexer.ahead_onCursor]
      exact (Tag.isContent_iff.1 hcontent).1
    refine Ends.bind (Ends.setLineIndent ?_)
    split
    · obtain ⟨hon, hfirm, hset⟩ := hmeasured (some (columns / ruler.width))
      exact Ends.pure ⟨hon, hfirm.toSteady, hset, .found (.line rfl hcontent
        (hkt.onCursor.mono (by split <;> decide)) fun _ => hset)⟩
    · refine Ends.bind (Ends.setLineIndent (Ends.seq (ends_columnSpaces hr) ?_))
      rintro spaces _ rfl
      obtain ⟨hon, hfirm, -⟩ := hmeasured none
      refine Ends.bind (Ends.peek (.refl hfirm.sound) (by decide) (hkt.onCursor (f := .onLine none))
        (by decide) fun u hu hku _ => Ends.pure ⟨hon.trans hu.onward,
          ⟨hfirm.looks hu, hku.mono (by decide)⟩, ?_⟩)
      rw [hu.pending]
      exact hon.suffix.length_le

theorem TookFirst.of_eaten (hs : s.Firm)
    (ht : s.Took (s.pending.takeWhile fun v => !(v.tag == .newline)) t) : TookFirst s t := by
  intro tok rest hp htag
  have ht : s.Took (tok :: rest.takeWhile fun v => !(v.tag == .newline)) t := by
    simpa [hp, htag] using ht
  rw [ht.lastEnd_eq hs.sound hs.unpaused (by simp)]
  exact ht.stop_le_nextOffset hs.sound

theorem ends_rawTurn {base : Nat} (lines : List Char × Nat) (hr : ruler.Excused F 0 t)
    (hst : s.Onward t) (ht : t.Firm) (hkt : t.Spare F 6) (hft : s = t ∨ TookFirst s t) :
    Ends F (rawTurn ruler base i lines) t (fun turn u => (s.Onward u ∧ TookFirst s u) ∧ turn.Gives
      (fun _ => u.Steady ∧ u.Settled ∧ Rests F i u)
      fun _ => (u.Firm ∧ u.Spare F 6) ∧ u.pending.length < t.pending.length) E := by
  obtain ⟨text, start⟩ := lines
  refine Ends.seq (Ends.eatUntil ht.sound hkt (by decide)) ?_
  rintro - u ⟨hu, hku, -⟩
  have hku : u.Spare F 7 := hku.mono (by split <;> decide)
  have htu : t.Scans u := .of_takeWhile hu fun v hv => by simpa using hv
  have hfu := htu.firm ht
  have hsu := hst.trans (htu.onward ht.toSteady)
  have hfirst : TookFirst s u := by
    rcases hft with rfl | hft
    · exact .of_eaten ht hu
    · exact hft.onward (htu.onward ht.toSteady)
  refine Ends.bind (Ends.endFrom (Ends.bind (Ends.bind (Ends.get (Ends.pure ?_)))))
  dsimp only
  refine Ends.seq (Ends.eatIf hfu.sound (by decide) hku (by decide)) ?_
  rintro r v (⟨rfl, htag, hv, hkv, hz⟩ | ⟨nl, rfl, hnl, hv, hkv⟩)
  · have hp : v.pending = [] := by
      by_contra hne
      rw [hv.pending] at hne
      have := hu.ahead_of_takeWhile hne
      simp [htag] at this
    have hsteady := hfu.toSteady.looks hv
    exact Ends.pure ⟨⟨hsu.trans hv.onward, hfirst.onward hv.onward⟩, hsteady, hsteady.settled hp,
      rests_eof hp ((hv.sound.atEof_iff hz).2 hp) (hkv.mono (by decide)) i⟩
  · obtain ⟨hsteady, hline⟩ := hfu.toSteady.eats_newline hv hnl
    have hset := hfu.toSteady.settled_of_newline hv hnl
    have huv := hfu.toSteady.onward hv.took
    have hlen : v.pending.length < t.pending.length := by
      have h1 := congrArg List.length hu.pending
      have h2 := congrArg List.length hv.pending
      simp only [List.length_append, List.length_cons] at h1 h2
      omega
    have hsrc := hv.source.trans hu.source
    refine Ends.seq (ends_skipBlankLines (hr.line hsrc) hsteady (.inl hline) hkv) ?_
    rintro ⟨columns, blank⟩ w ⟨hvw, hw, hspace, hne, hkw, hcolumns⟩
    have hspaces : columns - base ≤ ruler.widest * t.source.size :=
      Nat.le_trans (Nat.sub_le ..) (hsrc ▸ hcolumns)
    refine (ends_rawNext hw (hset.skips hvw) hspace hne (hr.spaces hspaces) hkw).imp ?_
    rintro turn x ⟨hwx, hturn⟩
    have hux := huv.trans (hvw.toOnward.trans hwx)
    refine ⟨⟨hsu.trans hux, hfirst.onward hux⟩, ?_⟩
    cases turn with
    | done text => exact hturn
    | again lines =>
      have hlen' := hvw.suffix.length_le
      have hlen'' := hturn.2
      exact ⟨hturn.1, by omega⟩

theorem ends_rawLines {base start : Nat} (hr : ruler.Excused F 0 s) (hs : s.Firm)
    (hk : s.Spare F 0) :
    Ends F (rawLines ruler base i start) s (fun _ t => s.Onward t ∧ t.Steady ∧ t.Settled ∧
      Rests F i t ∧ TookFirst s t) E := by
  refine Ends.loop (fun _ t => s.Onward t ∧ t.Firm ∧ t.Spare F 6 ∧ (s = t ∨ TookFirst s t))
    hs.sound ⟨.refl s, hs, hk.mono (by decide), .inl rfl⟩ ?_
  rintro lines t ⟨hst, ht, hkt, hft⟩
  refine (ends_rawTurn lines (hr.line hst.source) hst ht hkt hft).imp ?_
  rintro turn u ⟨⟨hsu, hfu⟩, hturn⟩
  cases turn with
  | done text =>
    obtain ⟨hu, hset, hrests⟩ := hturn
    exact ⟨hsu, hu, hset, hrests, hfu⟩
  | again lines =>
    obtain ⟨⟨hu, hku⟩, hlt⟩ := hturn
    exact ⟨⟨hsu, hu, hku, .inr hfu⟩, hlt⟩

theorem text_start {marker : Token} (hs : s.Sound) (hstop : marker.stop = s.nextOffset) :
    let start := if (s.source.fromOffset marker.stop).head? = some ' ' then marker.stop + 1
      else marker.stop
    s.source.IsBoundary start ∧ marker.stop ≤ start ∧ (start = marker.stop ∨
      ∃ tok rest, s.pending = tok :: rest ∧ tok.tag ≠ .newline ∧ start ≤ tok.stop) := by
  obtain ⟨hchars, hsize, -⟩ := hs.position
  have hbehind : s.source.fromOffset marker.stop = Token.texts s.pending := by
    rw [hstop, ← hsize, Source.fromOffset_of_append hchars]
  rw [hbehind]
  dsimp only
  split
  · next hhead =>
    cases hp : s.pending with
    | nil => simp [hp] at hhead
    | cons tok rest =>
      have hspell := hs.spelled (t := tok) (by simp [hp])
      cases htext : tok.text with
      | nil => exact absurd htext hspell.text_ne_nil
      | cons c cs =>
        have hc : c = ' ' := by simpa [hp, htext] using hhead
        subst hc
        refine ⟨⟨s.consumed ++ [' '], cs ++ Token.texts rest, ?_, ?_⟩, by omega, .inr
          ⟨tok, rest, rfl, fun hn => ?_, ?_⟩⟩
        · rw [hchars, hp, Token.texts_cons, htext]
          simp
        · rw [Text.byteSize_append, hsize, hstop]
          rfl
        · have := hspell.newline hn
          simp [htext] at this
        · have hstart := hs.start_of_cons hp
          have hsize : tok.size = 1 + Text.byteSize cs := by
            rw [Token.size, htext, Text.byteSize_cons]
            rfl
          show marker.stop + 1 ≤ tok.start + tok.size
          omega
  · exact ⟨hstop ▸ hs.isBoundary_nextOffset, Nat.le_refl _, .inl rfl⟩

theorem ends_rawBlock (hr : ruler.Excused F i s) (hs : s.Firm) (ha : Announces s .raw)
    (hk : s.Spare F 24) :
    Ends F (rawBlock ruler i) s (fun b t => Spans F i s b t) E := by
  obtain ⟨hp, htag⟩ := ha.cons rfl
  refine Ends.bind (Ends.eat (.refl hs.sound) hk (by decide) hp fun t ht _ hkt => ?_)
  generalize s.ahead 0 = marker at hp htag ht ⊢
  have hst := ht.reads (by simp [htag])
  have hft := hst.firm hs
  have hstop := ht.stop_eq hs.sound
  have hstart := hs.sound.start_of_cons hp
  have hlt := hst.nextOffset_lt hs.toSteady
  have hlast := hst.lastEnd_eq hs.toSteady
  obtain ⟨hb, hle, hspace⟩ := text_start ht.sound hstop
  refine Ends.bind (Ends.get ?_)
  dsimp only
  generalize (if (t.source.fromOffset marker.stop).head? = some ' ' then marker.stop + 1
    else marker.stop) = start at hb hle hspace ⊢
  have hr := hr.deeper hst.source (Nat.lt_of_lt_of_le hlt hft.lastEnd_le)
  refine Ends.seq (ends_counted (hr.levels ht.sound .multiply)) ?_
  rintro base _ ⟨-, rfl⟩
  refine Ends.seq (ends_rawLines (hr.line rfl) hft hkt) ?_
  rintro text u ⟨hu, hsteady, hset, hrests, hfirst⟩
  have hsu := (hst.onward hs.toSteady).trans hu
  have hlu := hu.lastEnd_le
  have hend : start ≤ u.observer.lastEnd := by
    rcases hspace with rfl | ⟨tok, rest, hpt, hnl, hle⟩
    · omega
    · exact Nat.le_trans hle (hfirst tok rest hpt hnl)
  refine Ends.bind (Ends.endFrom (Ends.bind (Ends.endFrom (Ends.pure ?_))))
  rw [hst.source] at hb
  have hbu : s.source.IsBoundary u.observer.lastEnd := hsu.source ▸ hsteady.boundary
  rw [hstart, Nat.max_eq_left hend]
  have hmax : max u.observer.lastEnd s.nextOffset = u.observer.lastEnd := by omega
  refine ⟨hsu, hsteady, hrests, hset, ⟨⟨tidy_endFrom hsteady hsu.source
    hs.sound.isBoundary_nextOffset, ⟨?_, hend, ?_⟩, ?_⟩, trivial⟩, rfl, Nat.le_of_eq hmax,
    fun _ => hmax, by omega⟩
  · show _ ≤ start
    simp only
    omega
  · exact Nat.le_max_left ..
  · simpa using ⟨hend, hb, hbu⟩

theorem ends_bodied {kind : Container} (hr : ruler.Excused F i s) (hbody : Bodied F ruler body)
    (hs : s.Steady)
    (hst : s.Reads t) (ht : t.Firm) (hk : t.Spare F 12) :
    Ends F (bodied body i s.nextOffset kind) t (fun b u => s.Onward u ∧ u.Steady ∧ Closed F (i + 1) u ∧ b.Faithful s.source ∧
        b.start = s.nextOffset ∧ b.stop = u.observer.lastEnd ∧
          s.nextOffset < u.observer.lastEnd) E := by
  have hlast := hst.lastEnd_eq hs
  have hlt := hst.nextOffset_lt hs
  refine Ends.seq (ends_enterBody ht hlast (hk.mono (by decide))) ?_
  rintro - u ⟨htu, hu, hhere, hrests⟩
  have hnext := htu.nextOffset_le ht.sound hu.sound
  have hsu := (hst.onward hs).trans htu
  have hlu := htu.lastEnd_le
  have hr := hr.deeper hsu.source (by omega)
  refine Ends.seq (hbody E (i + 1) u hr hu hrests) ?_
  intro children v hv
  have hsv := hsu.trans hv.toOnward
  have hlv := hv.lastEnd_le
  have hrow : Siblings s.source s.nextOffset (max v.observer.lastEnd s.nextOffset) children := by
    have hrow := hv.row
    rw [hsu.source] at hrow
    have hempty : Siblings s.source s.nextOffset u.nextOffset [] := .nil (by omega)
    simpa using (hempty.append hrow).mono (by omega)
  refine Ends.bind (ends_endCovering hrow (Ends.pure ⟨hsv, hv.steady, hv.closed,
    container_faithful hv.steady hsv.source hs.sound.isBoundary_nextOffset hrow, rfl, ?_, by omega⟩))
  simp only [Block.stop, Block.span]
  omega

theorem ends_listItem {marker : Marker} (hr : ruler.Excused F i s) (hbody : Bodied F ruler body)
    (hs : s.Firm)
    (ha : Announces s marker) (hn : marker.heads.length = n) (hpos : 0 < n) (hk : s.Spare F 25) :
    Ends F (listItem body n i) s (fun b u => s.Onward u ∧ u.Steady ∧ Closed F (i + 1) u ∧
      b.Faithful s.source ∧ b.start = s.nextOffset ∧ b.stop = u.observer.lastEnd ∧
        s.nextOffset < u.observer.lastEnd) E := by
  refine Ends.bind (Ends.peek (.refl hs.sound) (by decide) hk (by decide) fun t ht hkt _ => ?_)
  rw [hs.sound.start_ahead]
  refine Ends.seq (ends_marker ha ht hkt (by decide) hn hpos) ?_
  rintro - u ⟨hu, hku⟩
  exact ends_bodied hr hbody hs.toSteady hu (hu.firm hs) (hku.mono (by decide))

structure Listed (s : Lexer Cursor) (items : List Block) (t : Lexer Cursor) : Prop
    extends s.Onward t where
  steady : t.Steady
  row : Siblings s.source s.nextOffset (max s.nextOffset t.observer.lastEnd) items

structure ListDone (F : Fault → Prop) (i : Nat) (s : Lexer Cursor) (items : List Block)
    (t : Lexer Cursor) : Prop extends Listed s items t where
  rests : Rests F i t
  settled : t.Settled
  lt : s.nextOffset < t.observer.lastEnd

structure Marked (F : Fault → Prop) (n : Nat) (t : Lexer Cursor) : Prop where
  content : (t.ahead 0).tag.isContent = true
  announces : ∃ marker, Announces t marker ∧ marker.heads.length = n
  spare : t.Spare F 25

theorem ends_itemTurn {continues : Nat → Marker → Bool} {items : List Block}
    (hr : level.ruler.Excused F i t) (hbody : Bodied F level.ruler body) (hs : s.Sound)
    (hcont : ∀ count m, continues count m = true → m.heads.length = n) (hpos : 0 < n)
    (h : Listed s items t) (hm : Marked F n t) :
    Ends F (itemTurn level body n i continues items) t (fun turn u => turn.Gives
      (fun items => ListDone F i s items u)
      fun items => (Listed s items u ∧ Marked F n u) ∧ u.pending.length < t.pending.length) E := by
  obtain ⟨hst, ht, hrow⟩ := h
  obtain ⟨hcontent, ⟨marker, ha, hn⟩, hkt⟩ := hm
  have hle := hst.nextOffset_le hs ht.sound
  have hlast := ht.lastEnd_le
  have hfirm := ht.firm (Tag.isContent_iff.1 hcontent).1
  refine Ends.seq (ends_listItem hr hbody hfirm ha hn hpos hkt) ?_
  rintro item u ⟨htu, hu, hclosed, hfit, hstart, hstop, hlt⟩
  have hset := hclosed.settled hu
  obtain ⟨r, hfound, -⟩ := hclosed
  have hsu := hst.trans htu
  rw [hst.source] at hfit
  have hrowu : Siblings s.source s.nextOffset (max s.nextOffset u.observer.lastEnd)
      (items ++ [item]) := by
    refine hrow.concat hfit ?_ hfit.tidy.le (Nat.le_trans (Nat.le_of_eq hstop) (by omega))
    show _ ≤ item.start
    omega
  refine (ends_nextTurn (hr.line htu.source) hu (.found hfound)).imp ?_
  rintro turn v ⟨⟨huv, hv⟩, hturn⟩
  have hlisted : Listed s (items ++ [item]) v :=
    ⟨hsu.trans huv.toOnward, hv, by rwa [huv.lastEnd]⟩
  have hltv : t.nextOffset < v.observer.lastEnd := by rwa [huv.lastEnd]
  cases turn with
  | done items' =>
    obtain ⟨rfl, hrests⟩ := hturn
    exact ⟨hlisted, hrests, hset.skips huv, by omega⟩
  | again items' =>
    obtain ⟨rfl, hcontent, ⟨marker, ha, hc⟩, hkv⟩ := hturn
    refine ⟨⟨hlisted, hcontent, ⟨marker, ha, hcont _ _ hc⟩, hkv⟩, ?_⟩
    have hlast := hv.lastEnd_le
    exact (htu.trans huv.toOnward).length_pending_lt ht.sound hv.sound (by omega)

theorem ends_listItems {marker : Marker} {continues : Nat → Marker → Bool} {kind : Container}
    (hr : level.ruler.Excused F i s) (hbody : Bodied F level.ruler body) (hs : s.Firm) (ha : Announces s marker)
    (hn : marker.heads.length = n) (hpos : 0 < n)
    (hcont : ∀ count m, continues count m = true → m.heads.length = n) (hk : s.Spare F 24)
    (hcontent : (s.ahead 0).tag.isContent = true) :
    Ends F (listItems level body n i continues kind) s (fun b t => Spans F i s b t) E := by
  refine Ends.bind (Ends.peek (.refl hs.sound) (by decide) hk (by decide) fun t ht hkt _ => ?_)
  rw [hs.sound.start_ahead]
  have hlisted : Listed s [] t := ⟨ht.onward, hs.toSteady.looks ht, .nil (Nat.le_max_left ..)⟩
  have hmarked : Marked F n t :=
    ⟨by rw [ht.ahead, hcontent], ⟨marker, ha.looks ht, hn⟩, hkt⟩
  refine Ends.seq (Q := fun items u => ListDone F i s items u) (Ends.loop
    (fun items u => Listed s items u ∧ Marked F n u) ht.sound ⟨hlisted, hmarked⟩ fun items u h =>
      ends_itemTurn (hr.onward h.1.toOnward hs.sound h.1.steady.sound) hbody hs.sound hcont hpos
        h.1 h.2) ?_
  intro items u hu
  have hlt := hu.lt
  have hrow := hu.row
  rw [Nat.max_comm] at hrow
  have hmax : max u.observer.lastEnd s.nextOffset = u.observer.lastEnd := by omega
  exact Ends.bind (ends_endCovering hrow (Ends.pure ⟨hu.toOnward, hu.steady, hu.rests, hu.settled,
    container_faithful hu.steady hu.source hs.sound.isBoundary_nextOffset hrow, rfl,
    Nat.le_of_eq hmax, fun _ => hmax, hlt⟩))

theorem ends_list (hr : level.ruler.Excused F i s) (hbody : Bodied F level.ruler body)
    (hs : s.Firm) (hcontent : (s.ahead 0).tag.isContent = true) (ha : Announces s .list) (hk : s.Spare F 24) :
    Ends F (list level body i) s (fun b t => Spans F i s b t) E := by
  refine ends_listItems hr hbody hs ha (n := 1) rfl (by decide) ?_ hk hcontent
  intro count m hm
  simp only [decide_eq_true_eq] at hm
  rw [hm]
  rfl

theorem ends_orderedList {first : Nat} (hr : level.ruler.Excused F i s)
    (hbody : Bodied F level.ruler body)
    (hs : s.Firm) (hcontent : (s.ahead 0).tag.isContent = true)
    (ha : Announces s (.ordered first)) (hk : s.Spare F 24) :
    Ends F (orderedList level body first i) s (fun b t => Spans F i s b t) E := by
  refine ends_listItems hr hbody hs ha (n := 2) rfl (by decide) ?_ hk hcontent
  intro count m hm
  simp only [decide_eq_true_eq] at hm
  rw [hm]
  rfl

theorem ends_task (hr : ruler.Excused F i s) (hbody : Bodied F ruler body) (hs : s.Firm) (ha : Announces s .task)
    (hk : s.Spare F 24) :
    Ends F (task body i) s (fun b t => Spans F i s b t) E := by
  obtain ⟨hp, htag⟩ := ha.cons rfl
  refine Ends.bind (Ends.eat (.refl hs.sound) hk (by decide) hp fun t ht _ hkt => ?_)
  have hst := ht.reads (by simp [htag])
  refine Ends.seq (ends_directives hst.sound (hkt.mono (by decide))) ?_
  rintro task u ⟨-, hu, hku⟩
  have hsu := hst.scan hu
  rw [hs.sound.start_ahead]
  refine (ends_bodied hr hbody hs.toSteady hsu (hsu.firm hs) (hku.mono (by decide))).imp ?_
  rintro b v ⟨hsv, hv, hclosed, hfit, hstart, hstop, hlt⟩
  have hset := hclosed.settled hv
  obtain ⟨r, hfound, -⟩ := hclosed
  exact ⟨hsv, hv, .found hfound.lower, hset, hfit, hstart, Nat.le_of_eq hstop, fun _ => hstop, hlt⟩

theorem ends_block {marker : Marker} (hr : level.ruler.Excused F i s)
    (hbody : marker.opensBody = true → Bodied F level.ruler body) (hs : s.Steady)
    (hcontent : (s.ahead 0).tag.isContent = true) (ha : Announces s marker) (hk : s.Spare F 24) :
    Ends F (block level body i marker) s (fun b t => Spans F i s b t) E := by
  have hfirm := hs.firm (Tag.isContent_iff.1 hcontent).1
  cases marker with
  | header size => exact ends_header (hr.line rfl) hfirm ha hk
  | task => exact ends_task hr (hbody rfl) hfirm ha hk
  | list => exact ends_list hr (hbody rfl) hfirm hcontent ha hk
  | ordered first => exact ends_orderedList hr (hbody rfl) hfirm hcontent ha hk
  | table => exact ends_table hr (hbody rfl) hs (ha.cons rfl).2 hk
  | separator => exact (ends_separator hfirm ha hk).imp fun _ _ h => h.1
  | raw => exact ends_rawBlock hr hfirm ha hk
  | paragraph =>
    refine (ends_paragraph (p := ⟨level, i, .block⟩) (hr.line rfl) hfirm (hk.mono (by decide))).imp ?_
    intro b t hb
    have hlt := hb.busy rfl hcontent
    have hstop := hb.stop
    have hend : Rests F i t ∧ t.Settled := by
      cases hb.ended with
      | eof hp he =>
        exact ⟨rests_eof hp he (hb.spare.mono (by decide)) i, hb.firm.toSteady.settled hp⟩
      | line hmode _ => exact absurd rfl hmode
      | bar hmode _ => simp at hmode
      | rests _ hset hrests => exact ⟨hrests i, hset⟩
    exact ⟨hb.toOnward, hb.firm.toSteady, hend.1, hend.2, hb.faithful, hb.start, by omega,
      fun _ => by omega, hlt⟩

def opened (level : Level) (body : Nat → Parse (List Block)) (i : Nat) : Parse Block := do
  let marker ← dispatch level.room
  record (.block marker i)
  block level body i marker

theorem nextBlock_eq (level : Level) (body : Nat → Parse (List Block)) (i : Nat) :
    nextBlock level body i = lineStart level.ruler >>= fun
      | none => pure none
      | some measured =>
        if measured < i then pure none else opened level body i >>= fun b => pure (some b) := by
  unfold nextBlock opened
  congr 1
  funext r
  cases r with
  | none => rfl
  | some measured =>
    dsimp only
    split
    · rfl
    · simp only [bind_assoc]

theorem ends_opened_announced (level : Level) (body : Nat → Parse (List Block)) (i : Nat)
    {marker : Marker} {Q : Block → Lexer Cursor → Prop} (hs : s.Sound)
    (hm : announced level.room s = marker) (hk : s.Spare F k) (hk' : k < 95)
    (h : ∀ t, s.Took [] t → t.Spare F (k + 3) → Ends F (block level body i marker) t Q E) :
    Ends F (opened level body i) s Q E := by
  refine Ends.seq (ends_announced hs hk hk') ?_
  rintro _ t ⟨ht, hkt, rfl⟩
  rw [hm]
  exact Ends.bind (Ends.record (h _ (ht.took.trans (ht.sound.noting _)) hkt.onCursor))

theorem ends_opened (hr : level.ruler.Excused F i s)
    (hbody : level.room ≠ 0 → Bodied F level.ruler body)
    (hs : s.Steady) (hcontent : (s.ahead 0).tag.isContent = true) (hk : s.Spare F 21) :
    Ends F (opened level body i) s (fun b t => Spans F i s b t) E := by
  refine Ends.seq (ends_dispatch hs.sound hk (by decide)) ?_
  rintro marker u ⟨hu, hku, ha, hroom⟩
  have ha := ha.looks hu
  have hrecorded := hu.sound.noting (.block marker i)
  have hsteady := (hs.looks hu).took_nil hrecorded
  have honward := hu.onward.trans ((hs.looks hu).onward hrecorded)
  have hcontent : (u.ahead 0).tag.isContent = true := by rw [hu.ahead, hcontent]
  have hr := hr.onward honward hs.sound hsteady.sound
  refine Ends.bind (Ends.record ((ends_block hr (fun ho => hbody (hroom ho)) hsteady hcontent
    ⟨ha.heads, ha.pos⟩ hku).imp ?_))
  intro b t hb
  have hnext : (u.onCursor (.noting (.block marker i))).nextOffset = s.nextOffset := by
    rw [Lexer.nextOffset_onCursor, hu.nextOffset_eq hs.sound]
  exact ⟨honward.trans hb.toOnward, hb.steady, hb.rests, hb.settled, honward.source ▸ hb.faithful,
    hb.start.trans hnext, hb.stop, hb.covers, hnext ▸ hb.lt⟩

structure Opens (F : Fault → Prop) (level : Level) (body : Nat → Parse (List Block)) (i : Nat)
    (s u : Lexer Cursor) (b : Block) (t : Lexer Cursor) : Prop where
  line : ∃ measured, lineStart level.ruler s = .ok (some measured) u ∧ i ≤ measured
  skips : s.Skips u
  steady : u.Steady
  content : (u.ahead 0).tag.isContent = true
  opened : opened level body i u = .ok b t
  spans : Spans F i u b t

theorem ends_opened_separator (body : Nat → Parse (List Block)) (hs : s.Steady)
    (hm : announced level.room s = .separator) (hcontent : (s.ahead 0).tag.isContent = true)
    (hk : s.Spare F 21) :
    Ends F (opened level body i) s (fun b t => Spans F i s b t ∧ Drops i s b t) E := by
  have hfirm := hs.firm (Tag.isContent_iff.1 hcontent).1
  have ha := (announces_announced hs.sound level.room).1
  refine Ends.seq (ends_announced hs.sound hk (by decide)) ?_
  rintro _ u ⟨hu, hku, rfl⟩
  rw [hm] at ha ⊢
  have hrecorded := hu.took.trans (hu.sound.noting (.block .separator i))
  have hf := hfirm.took hrecorded (by simp)
  have honward := hs.onward hrecorded
  refine Ends.bind (Ends.record ((ends_separator hf ⟨(ha.looks hu).heads, by simp⟩ hku).imp ?_))
  rintro b t ⟨hb, hequals, hthree, hblock, v, hv, hline⟩
  have hnext : (u.onCursor (.noting (.block .separator i))).nextOffset = s.nextOffset := by
    rw [Lexer.nextOffset_onCursor, hu.nextOffset_eq hs.sound]
  rw [Lexer.ahead_onCursor, hu.ahead] at hequals hthree hblock hv
  rw [Lexer.pending_onCursor, hu.pending] at hthree hblock hv
  refine ⟨⟨honward.trans hb.toOnward, hb.steady, hb.rests, hb.settled, honward.source ▸ hb.faithful,
    hb.start.trans hnext, hb.stop, hb.covers, hnext ▸ hb.lt⟩, hequals, hthree, hnext ▸ hblock, v,
    hrecorded.trans hv, hline⟩

theorem Opens.drops_of_announced (h : Opens F level body i s u b t)
    (hm : announced level.room u = .separator) : Drops i u b t :=
  ((ends_opened_separator (F := fun _ => True) (E := fun _ _ => True) body h.steady hm h.content
    (u.spare_true _)).of_ok h.opened).2

theorem ends_nextBlock (hr : level.ruler.Excused F i s)
    (hbody : level.room ≠ 0 → Bodied F level.ruler body)
    (hs : s.Steady) (hi : Rests F i s) :
    Ends F (nextBlock level body i) s (fun r t => match r with
      | none => s.Skips t ∧ t.Steady ∧ Closed F i t
      | some b => ∃ u, Opens F level body i s u b t) E := by
  rw [nextBlock_eq]
  refine Ends.seq (ends_lineStart (hr.line rfl) hs hi).self ?_
  rintro r t ⟨⟨hst, ht, hfound⟩, hline⟩
  split
  · exact Ends.pure ⟨hst, ht, _, hfound, by simp⟩
  · next measured =>
    split
    · next hlt => exact Ends.pure ⟨hst, ht, _, hfound, by simpa using hlt⟩
    · next hge =>
      cases hfound with
      | line hm hcontent hkt =>
      have hr := hr.onward hst.toOnward hs.sound ht.sound
      refine Ends.seq (ends_opened hr hbody ht hcontent (hkt.mono (by split <;> decide))).self ?_
      rintro b v ⟨hb, hopened⟩
      exact Ends.pure ⟨t, ⟨measured, hline, by omega⟩, hst, ht, hcontent, hopened, hb⟩

structure Sequenced (F : Fault → Prop) (i : Nat) (s : Lexer Cursor) (bs : List Block)
    (t : Lexer Cursor) : Prop extends s.Onward t where
  steady : t.Steady
  rests : Rests F i t
  row : Siblings s.source s.nextOffset (max s.nextOffset t.observer.lastEnd) bs

theorem ends_blockTurn (hr : level.ruler.Excused F i t)
    (hbody : level.room ≠ 0 → Bodied F level.ruler body)
    (hs : s.Sound) (h : Sequenced F i s bs t) :
    Ends F (blockTurn level body i bs) t (fun turn u => turn.Gives (fun bs => Sequence F i s bs u)
      fun bs => Sequenced F i s bs u ∧ u.pending.length < t.pending.length) E := by
  obtain ⟨hst, ht, hit, hrow⟩ := h
  have hle := hst.nextOffset_le hs ht.sound
  have hlast := ht.lastEnd_le
  refine Ends.seq (ends_nextBlock hr hbody ht hit) ?_
  intro r u hu
  split
  · obtain ⟨hskip, hsteady, hclosed⟩ := hu
    exact Ends.pure ⟨hst.trans hskip.toOnward, hsteady, hclosed, by rwa [hskip.lastEnd]⟩
  · next b =>
    obtain ⟨v, hv⟩ : ∃ v, Opens F level body i t v b u := hu
    have htv := hv.skips.toOnward
    have hb := hv.spans
    have hle' := htv.nextOffset_le ht.sound hv.steady.sound
    have hfit := hb.faithful
    have hstart := hb.start
    have hlt := hb.lt
    have hend := hb.steady.lastEnd_le
    have htu := htv.trans hb.toOnward
    rw [htv.source, hst.source] at hfit
    refine Ends.pure ⟨⟨hst.trans htu, hb.steady, hb.rests, ?_⟩,
      htu.length_pending_lt ht.sound hb.steady.sound (by omega)⟩
    refine hrow.concat hfit ?_ hfit.tidy.le (Nat.le_trans hb.stop (Nat.le_max_right ..))
    show _ ≤ b.start
    omega

theorem ends_blocks (hr : level.ruler.Excused F i s)
    (hbody : level.room ≠ 0 → Bodied F level.ruler body)
    (hs : s.Steady) (hi : Rests F i s) :
    Ends F (blocks level body i) s (fun bs t => Sequence F i s bs t) E :=
  Ends.loop (fun bs t => Sequenced F i s bs t) hs.sound
    ⟨.refl s, hs, hi, .nil (Nat.le_max_left ..)⟩ fun _ _ h =>
      ends_blockTurn (hr.onward h.toOnward hs.sound h.steady.sound) hbody hs.sound h

theorem bodied_body {room : Nat} (hroom : room ≠ 0) :
    Bodied F ruler (Parse.body ruler room) := by
  -- By induction on the number of bodies that may be opened.
  induction room with
  | zero => exact absurd rfl hroom
  | succ room ih =>
    intro E i s hr hs hi
    show Ends F (blocks ⟨ruler, room⟩ (Parse.body ruler room) i) s _ E
    exact ends_blocks hr ih hs hi

end TaskMarkup.Parse
