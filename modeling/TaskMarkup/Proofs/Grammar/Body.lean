import TaskMarkup.Grammar.Block
import TaskMarkup.Proofs.Grammar.Paragraph

namespace TaskMarkup

abbrev Blocks (src : Source) (lo hi : Nat) (bs : List Block) : Prop :=
  Row Block.span (Block.Fits src) lo hi bs

abbrev Siblings (src : Source) (lo hi : Nat) (bs : List Block) : Prop :=
  Row Block.span (Block.Faithful src) lo hi bs

namespace Lexer

variable {s t : Lexer Cursor} {ts : List Token} {n : Nat}

theorem Sound.endsLine (hs : s.Sound) (h : (s.ahead 0).tag.endsLine = true) :
    s.source.EndsLine s.nextOffset := by
  obtain ⟨hchars, hsize, -⟩ := hs.position
  refine ⟨_, _, hchars, hsize, .inr ?_⟩
  rcases hs.tag_ahead_zero with ⟨-, hp⟩ | ⟨hne, hp⟩
  · exact .inl (by rw [hp, Token.texts_nil])
  · refine .inr ?_
    have hnl : (s.ahead 0).tag = .newline := by simpa [Tag.endsLine, hne] using h
    have hspell := hs.spelled (t := s.ahead 0) (by rw [hp]; simp)
    rw [hp, Token.texts_cons, hspell.newline hnl]
    rfl

theorem take_of_ahead (h : ∀ i < n, (s.ahead i).tag.endsLine = false) :
    n ≤ s.pending.length ∧ ∀ u ∈ s.pending.take n, u.tag ≠ .newline := by
  have hlen : n ≤ s.pending.length := by
    by_contra hlt
    have := h s.pending.length (by omega)
    simp [ahead, Token.eof, Tag.endsLine] at this
  refine ⟨hlen, fun u hu hn => ?_⟩
  obtain ⟨i, hi, rfl⟩ := List.getElem_of_mem hu
  simp only [List.length_take] at hi
  have := h i (by omega)
  rw [ahead, List.getD_eq_getElem?_getD, List.getElem?_eq_getElem (by omega),
    Option.getD_some] at this
  rw [List.getElem_take] at hn
  simp [hn, Tag.endsLine] at this

end Lexer

namespace Parse

open Rule

variable {F : Fault → Prop} {E : Empty → Lexer Cursor → Prop} {s t u : Lexer Cursor} {i k n : Nat}
  {level : Level} {bs : List Block}

theorem Announces.map_tag_take {marker : Marker} (h : Announces s marker) :
    (s.pending.take marker.heads.length).map Token.tag = marker.heads := by
  obtain ⟨rest, hrest⟩ := h.heads
  rw [List.map_take, ← hrest, List.take_left]

theorem Announces.scans {marker : Marker} (h : Announces s marker) :
    marker.heads.length ≤ s.pending.length ∧
      ∀ u ∈ s.pending.take marker.heads.length, u.tag ≠ .newline := by
  obtain ⟨rest, hrest⟩ := h.heads
  have hlen : marker.heads.length ≤ s.pending.length := by
    have := congrArg List.length hrest
    simp only [List.length_append, List.length_map] at this
    omega
  refine ⟨hlen, fun u hu hn => ?_⟩
  have hmem : u.tag ∈ marker.heads := by
    rw [← h.map_tag_take]
    exact List.mem_map_of_mem hu
  rw [hn] at hmem
  cases marker <;> simp [Marker.heads] at hmem

theorem Announces.cons {marker : Marker} {tag : Tag} {tags : List Tag} (h : Announces s marker)
    (htags : marker.heads = tag :: tags) :
    s.pending = s.ahead 0 :: s.pending.tail ∧ (s.ahead 0).tag = tag := by
  obtain ⟨rest, hrest⟩ := h.heads
  rw [htags] at hrest
  cases hp : s.pending with
  | nil => simp [hp] at hrest
  | cons tok rest =>
    simp only [hp, List.map_cons, List.cons_append, List.cons.injEq] at hrest
    rw [Lexer.ahead_zero_of_cons hp]
    exact ⟨rfl, hrest.1.symm⟩

theorem Found.lower {r : Option Nat} (h : Found F (i + 1) r t) : Found F i r t := by
  cases h with
  | ended hp he hk => exact .ended hp he hk
  | line hm hc hk hd =>
    exact .line hm hc (hk.mono (by split <;> split <;> omega)) fun h => hd (by omega)

def Closed (F : Fault → Prop) (i : Nat) (t : Lexer Cursor) : Prop :=
  ∃ r, Found F i r t ∧ ∀ m, r = some m → m < i

theorem Closed.settled {i : Nat} (h : Closed F i t) (ht : t.Steady) : t.Settled := by
  obtain ⟨r, hfound, hr⟩ := h
  cases hfound with
  | ended hp _ _ => exact ht.settled hp
  | line _ _ _ hd => exact hd (hr _ rfl)

theorem Closed.pending_nil (h : Closed F 0 t) : t.pending = [] := by
  obtain ⟨r, hfound, hr⟩ := h
  cases hfound with
  | ended hp _ _ => exact hp
  | line _ _ _ _ => exact absurd (hr _ rfl) (Nat.not_lt_zero _)

/-- What a block of indentation `i` leaves. Only of a separator is something eaten behind it that
does not belong to it. -/
structure Spans (F : Fault → Prop) (i : Nat) (s : Lexer Cursor) (b : Block) (t : Lexer Cursor) :
    Prop extends s.Onward t where
  steady : t.Steady
  rests : Rests F i t
  settled : t.Settled
  faithful : b.Faithful s.source
  start : b.start = s.nextOffset
  stop : b.stop ≤ t.observer.lastEnd
  covers : (∀ span, b ≠ .separator span) → b.stop = t.observer.lastEnd
  lt : s.nextOffset < t.observer.lastEnd

structure Sequence (F : Fault → Prop) (i : Nat) (s : Lexer Cursor) (bs : List Block)
    (t : Lexer Cursor) : Prop extends s.Onward t where
  steady : t.Steady
  closed : Closed F i t
  row : Siblings s.source s.nextOffset (max s.nextOffset t.observer.lastEnd) bs

/-- Bodies of any indentation are read in order where their columns can be counted. -/
def Bodied (F : Fault → Prop) (ruler : Ruler) (body : Nat → Parse (List Block)) : Prop :=
  ∀ (E : Empty → Lexer Cursor → Prop) i s, ruler.Excused F i s → s.Steady → Rests F i s →
    Ends F (body i) s (fun bs t => Sequence F i s bs t) E

theorem Spans.fits {b : Block} (h : Spans F i s b t) : b.Fits s.source := h.faithful.fits

theorem container_faithful {src : Source} {start : Nat} {kind : Container} (ht : t.Steady)
    (hsrc : t.source = src) (hb : src.IsBoundary start)
    (hrow : Siblings src start (max t.observer.lastEnd start) bs) :
    (Block.container ⟨start, max t.observer.lastEnd start, i⟩ kind bs).Faithful src where
  fits := ⟨tidy_endFrom ht hsrc hb, hrow.ordered,
    Block.allFit_iff.2 fun b hmem => (hrow.fits b hmem).fits⟩
  renders := Block.allParagraphs_iff.2 fun b hmem => (hrow.fits b hmem).renders

theorem ends_endCovering {start lo : Nat} {src : Source} {Q : Nat → Lexer Cursor → Prop}
    (hrow : Siblings src lo (max s.observer.lastEnd start) bs)
    (h : Q (max s.observer.lastEnd start) s) :
    Ends F (endCovering start bs) s Q E := by
  refine Ends.bind (Ends.endFrom (Ends.pure ?_))
  rwa [foldl_max_eq Block.stop fun b hb => hrow.stop_le b hb]

theorem ends_endCovering_le {start : Nat} : Ends F (endCovering start bs) s
    (fun stop t => t = s ∧ s.observer.lastEnd ≤ stop) E :=
  Ends.bind (Ends.endFrom (Ends.pure ⟨rfl, Nat.le_trans (Nat.le_max_left ..) (le_foldl_max ..)⟩))

theorem ends_enterBody (hs : s.Firm) (hlast : s.observer.lastEnd = s.nextOffset)
    (hk : s.Spare F 14) :
    Ends F (enterBody i) s (fun _ t => s.Onward t ∧ t.Steady ∧
      t.observer.lastEnd = t.nextOffset ∧ Rests F i t) E := by
  refine Ends.seq (Ends.eatInlineSpace hs.sound hk (by decide)) ?_
  rintro - t ⟨ht, hkt, -⟩
  have hscan : s.Scans t := .of_takeWhile ht fun _ => Tag.ne_newline_of_isInlineSpace
  have hft := hscan.firm hs
  have hlt : t.observer.lastEnd = t.nextOffset := by
    cases hts : s.pending.takeWhile fun u => u.tag.isInlineSpace with
    | nil =>
      rw [hts] at ht
      rw [ht.lastEnd hs.sound hs.unpaused,
        Lexer.nextOffset_of_pending hs.sound ht.sound ht.source ht.pending]
      simpa using hlast
    | cons tok rest => exact ht.lastEnd_eq hs.sound hs.unpaused (by simp [hts])
  refine Ends.bind (Ends.peekTag (.refl ht.sound) (by decide) hkt (by decide)
    fun u hu hku _ => ?_)
  have hfu := hft.looks hu
  have hsu := (hscan.onward hs.toSteady).trans hu.onward
  have hnext := hu.nextOffset_eq ht.sound
  have hlu : u.observer.lastEnd = u.nextOffset := by rw [hu.observer, hlt, hnext]
  refine Ends.setLineIndent ⟨⟨hsu.source, hsu.suffix, hsu.lastEnd_le⟩, hfu.toSteady.onLine _,
    hlu, ?_⟩
  split
  · next hblank =>
    refine .fresh rfl ⟨.inl ?_, fun hc => ?_⟩ (hku.onCursor.mono (by decide))
    · have := ht.sound.endsLine hblank
      rwa [Lexer.source_onCursor, Lexer.observer_onCursor, Cursor.lastEnd_onLine, hu.source,
        hu.observer, hlt]
    · rw [Lexer.ahead_onCursor, hu.ahead, Tag.isContent_iff, hblank] at hc
      simp at hc
  · next hblank =>
    refine .found (.line (m := i) rfl ?_ (hku.onCursor.mono (by split <;> decide))
      fun h => absurd h (Nat.lt_irrefl i))
    rw [Lexer.ahead_onCursor, hu.ahead, Tag.isContent_iff]
    refine ⟨?_, by simpa using hblank⟩
    by_contra hspace
    have := ht.ahead_of_takeWhile fun hnil => by
      simp [Lexer.ahead, hnil, Token.eof, Tag.isInlineSpace] at hspace
    simp [this] at hspace

theorem rests_newline {tok : Token} (hs : s.Firm) (ht : s.Eats tok t) (htok : tok.tag = .newline)
    (hk : t.Spare F 0) : s.Onward t ∧ t.Steady ∧ t.Settled ∧ ∀ w, Rests F w t := by
  have hsettled := hs.toSteady.settled_of_newline ht htok
  refine ⟨hs.toSteady.onward ht.took, (hs.toSteady.eats_newline ht htok).1, hsettled, fun w =>
    .fresh ?_ hsettled (hk.mono (by decide))⟩
  simp [ht.observer, Observer.onEat, Cursor.onEat, Cursor.note, htok]

theorem rests_eof (hp : t.pending = []) (he : t.atEof = true) (hk : t.Spare F 40) (w : Nat) :
    Rests F w t :=
  .found (.ended hp he hk)

def TookLine (s t : Lexer Cursor) : Prop :=
  ∃ line nl, s.Took (line ++ nl) t ∧ (∀ u ∈ line, u.tag ≠ .newline) ∧ ∀ u ∈ nl, u.tag = .newline

theorem ends_eatLine (hs : s.Firm) (hk : s.Spare F 14) :
    Ends F eatLine s (fun _ t => (s.Onward t ∧ t.Steady ∧ t.Settled ∧ ∀ w, Rests F w t) ∧
      TookLine s t) E := by
  refine (Ends.eatLine hs.sound hk (by decide)).imp ?_
  rintro - t ⟨u, hu, hkt, ht⟩
  have hline : ∀ v ∈ s.pending.takeWhile fun v => !(v.tag == .newline), v.tag ≠ .newline := by
    intro v hv
    simpa using List.mem_takeWhile_imp hv
  have hsu : s.Scans u := .of_takeWhile hu fun v hv => by simpa using hv
  have hfu := hsu.firm hs
  have hou := hsu.onward hs.toSteady
  rcases ht with ⟨ht, hp, he⟩ | ⟨nl, hnl, ht⟩
  · have hsteady := hfu.toSteady.looks ht
    refine ⟨⟨hou.trans ht.onward, hsteady, hsteady.settled hp,
      rests_eof hp he (hkt.mono (by decide))⟩, _, [], ?_, hline, by simp⟩
    rw [List.append_nil]
    exact hu.looks ht
  · have hsettled := hfu.toSteady.settled_of_newline ht hnl
    refine ⟨⟨hou.trans (hfu.toSteady.onward ht.took), (hfu.toSteady.eats_newline ht hnl).1,
      hsettled, fun w => .fresh ?_ hsettled hkt⟩, _, [nl], hu.eats ht, hline, by simpa using hnl⟩
    simp [ht.observer, Observer.onEat, Cursor.onEat, Cursor.note, hnl]

theorem Announces.looks {marker : Marker} (h : Announces s marker) (ht : s.Looks t) :
    Announces t marker :=
  ⟨by rw [ht.pending]; exact h.heads, h.pos⟩

structure Announced (F : Fault → Prop) (continues : Marker → Bool) (t : Lexer Cursor) : Prop where
  content : (t.ahead 0).tag.isContent = true
  announces : ∃ marker, Announces t marker ∧ continues marker = true
  spare : t.Spare F 25

theorem ends_nextTurn {α : Type} {continues : Marker → Bool} {a : α}
    (hr : level.ruler.Excused F 0 s) (hs : s.Steady) (hi : Rests F (i + 1) s) :
    Ends F (nextTurn level i continues a) s (fun turn t => (s.Skips t ∧ t.Steady) ∧ turn.Gives
      (fun b => b = a ∧ Rests F i t) fun b => b = a ∧ Announced F continues t) E := by
  refine Ends.seq (ends_lineStart hr hs hi) ?_
  rintro r t ⟨hst, ht, hfound⟩
  split
  · exact Ends.pure ⟨⟨hst, ht⟩, rfl, .found hfound.lower⟩
  · next measured =>
    split
    · exact Ends.pure ⟨⟨hst, ht⟩, rfl, .found hfound.lower⟩
    · next hm =>
      obtain rfl : measured = i := by simpa using hm
      cases hfound with
      | line hline hcontent hk _ =>
      rw [if_pos (by omega)] at hk
      refine Ends.seq (ends_dispatch ht.sound hk (by decide)) ?_
      rintro marker u ⟨hu, hku, ha, -⟩
      have hcu : (u.ahead 0).tag.isContent = true := by rw [hu.ahead, hcontent]
      refine Ends.pure ?_
      split
      · next hc =>
        exact ⟨⟨hst.looks hu, ht.looks hu⟩, rfl, hcu, ⟨marker, ha.looks hu, hc⟩,
          hku.mono (by decide)⟩
      · refine ⟨⟨hst.looks hu, ht.looks hu⟩, rfl, .found (.line (m := measured) ?_ hcu
          (hku.mono (by rw [if_neg (Nat.lt_irrefl _)])) fun h => absurd h (Nat.lt_irrefl _))⟩
        rw [hu.observer, hline]

end Parse

end TaskMarkup
