import TaskMarkup.Grammar.Line
import TaskMarkup.Proofs.Lexer.Repeats
import TaskMarkup.Proofs.Lexer.Watched

namespace TaskMarkup

namespace Ruler

def columns (ruler : Ruler) : List Token → Nat
  | [] => 0
  | t :: ts => (if t.tag = .tab then 2 * ruler.width else t.size) + ruler.columns ts

theorem columns_append (ruler : Ruler) (ts us : List Token) :
    ruler.columns (ts ++ us) = ruler.columns ts + ruler.columns us := by
  induction ts with
  | nil => simp [columns]
  | cons t ts ih => simp [columns, ih, Nat.add_assoc]

def widest (ruler : Ruler) : Nat := 2 * ruler.width + 1

theorem columns_le (ruler : Ruler) {ts : List Token} (h : ∀ t ∈ ts, 0 < t.size) :
    ruler.columns ts ≤ ruler.widest * Text.byteSize (Token.texts ts) := by
  induction ts with
  | nil => exact Nat.zero_le _
  | cons t ts ih =>
    have hrest := ih fun u hu => h u (List.mem_cons_of_mem _ hu)
    have hpos : 1 ≤ t.size := h t (by simp)
    have hwidth : (if t.tag = .tab then 2 * ruler.width else t.size) ≤ ruler.widest * t.size := by
      have hwide := Nat.mul_le_mul_left ruler.widest hpos
      have hone := Nat.mul_le_mul_right t.size (show 1 ≤ ruler.widest by simp [widest])
      rw [widest] at *
      split <;> omega
    rw [columns, Token.texts_cons, Text.byteSize_append, Nat.mul_add]
    exact Nat.add_le_add hwidth hrest

/-- All the columns of a source can be counted, and half as many can be written as spaces. -/
def Counts (ruler : Ruler) (src : Source) : Prop :=
  ∀ n ∈ ruler.maxColumns, 2 * (ruler.widest * src.size) ≤ n

/-- Faults of counting columns are excused, or from `s` on there are none in a sequence of
indentation `i`: no more than the source is long. -/
def Excused (F : Fault → Prop) (ruler : Ruler) (i : Nat) (s : Lexer Cursor) : Prop :=
  ((∀ operation, F (.overflow operation)) ∧ F .capacity) ∨ ruler.Counts s.source ∧ i ≤ s.nextOffset

end Ruler

namespace Marker

def heads : Marker → List Tag
  | .header size => List.replicate size .hash
  | .task => [.leftBracket]
  | .list => [.dash]
  | .ordered _ => [.number, .dot]
  | .table => [.pipe]
  | .separator => List.replicate 3 .equals
  | .raw => [.rightAngle]
  | .paragraph => []

end Marker

variable {F : Fault → Prop} {E : Empty → Lexer Cursor → Prop} {ruler : Ruler} {s t : Lexer Cursor}
  {k : Nat}

theorem Lexer.Sound.byteSize_texts_le {ts rest : List Token} (hs : s.Sound)
    (hp : s.pending = ts ++ rest) : Text.byteSize (Token.texts ts) ≤ s.source.size := by
  have hsize := congrArg Text.byteSize hs.position.1
  rw [hp, Token.texts_append, Text.byteSize_append, Text.byteSize_append] at hsize
  rw [s.source.size_eq]
  omega

namespace Ruler

theorem columns_le_size (ruler : Ruler) {ts rest : List Token} (hs : s.Sound)
    (hp : s.pending = ts ++ rest) : ruler.columns ts ≤ ruler.widest * s.source.size := by
  refine Nat.le_trans (ruler.columns_le fun u hu => (hs.spelled ?_).size_pos)
    (Nat.mul_le_mul_left _ (hs.byteSize_texts_le hp))
  rw [hp]
  exact List.mem_append_left _ hu

namespace Excused

variable {i : Nat}

theorem counted (h : ruler.Excused F i s) (operation : Arithmetic) {columns : Nat}
    (hle : columns ≤ ruler.widest * s.source.size) :
    F (.overflow operation) ∨ ∀ n ∈ ruler.maxColumns, columns ≤ n :=
  h.imp (fun h => h.1 operation) fun h n hn => by
    have := h.1 n hn
    omega

theorem spaces (h : ruler.Excused F i s) {columns : Nat}
    (hle : columns ≤ ruler.widest * s.source.size) :
    F .capacity ∨ ∀ n ∈ ruler.maxColumns, 2 * columns ≤ n :=
  h.imp (fun h => h.2) fun h n hn => by
    have := h.1 n hn
    omega

theorem levels (h : ruler.Excused F i s) (hs : s.Sound) (operation : Arithmetic) :
    F (.overflow operation) ∨ ∀ n ∈ ruler.maxColumns, i * ruler.width ≤ n := by
  rcases h with h | h
  · exact .inl (h.1 operation)
  · refine (Excused.counted (.inr h) operation ?_)
    have hi : i ≤ s.source.size := Nat.le_trans h.2 hs.isBoundary_nextOffset.le_size
    have hwidth : ruler.width ≤ ruler.widest := by
      rw [widest]
      omega
    exact Nat.mul_comm i _ ▸ Nat.mul_le_mul hwidth hi

theorem line (h : ruler.Excused F i s) (hst : t.source = s.source) : ruler.Excused F 0 t :=
  h.imp id fun h => ⟨hst ▸ h.1, Nat.zero_le _⟩

theorem onward (h : ruler.Excused F i s) (hst : s.Onward t) (hs : s.Sound) (ht : t.Sound) :
    ruler.Excused F i t :=
  h.imp id fun h => ⟨hst.source ▸ h.1, Nat.le_trans h.2 (hst.nextOffset_le hs ht)⟩

theorem deeper (h : ruler.Excused F i s) (hst : t.source = s.source)
    (hlt : s.nextOffset < t.nextOffset) : ruler.Excused F (i + 1) t :=
  h.imp id fun h => ⟨hst ▸ h.1, Nat.lt_of_le_of_lt h.2 hlt⟩

end Excused

end Ruler

namespace Parse

open Rule

theorem excused_true (ruler : Ruler) {i : Nat} : ruler.Excused (fun _ => True) i s :=
  .inl ⟨fun _ => trivial, trivial⟩

theorem excused_arithmetic (ruler : Ruler) {i : Nat} : ruler.Excused Fault.IsArithmetic i s :=
  .inl ⟨fun _ => trivial, trivial⟩

theorem ends_counted {operation : Arithmetic} {columns : Nat}
    (hr : F (.overflow operation) ∨ ∀ n ∈ ruler.maxColumns, columns ≤ n) :
    Ends F (counted ruler operation columns) s (fun n t => n = columns ∧ t = s) E := by
  unfold counted
  split
  · next h =>
    refine hr.elim Ends.throw fun hr => ?_
    cases hmax : ruler.maxColumns with
    | none => simp [hmax] at h
    | some n =>
      have hle := hr n hmax
      simp only [hmax, Option.any_some, decide_eq_true_eq] at h
      omega
  · exact Ends.pure ⟨rfl, rfl⟩

structure Measured (F : Fault → Prop) (ruler : Ruler) (k : Nat) (s : Lexer Cursor) (columns : Nat)
    (t : Lexer Cursor) : Prop extends s.Skips t where
  lineIndent : t.observer.lineIndent = s.observer.lineIndent
  blank : ∃ ts, s.pending = ts ++ t.pending ∧ (∀ u ∈ ts, u.tag.isInlineSpace = true) ∧
    columns = ruler.columns ts
  next : (t.ahead 0).tag.isInlineSpace = false
  spare : t.Spare F (k + 1)
  ready : 0 < t.ready.size

theorem Measured.columns_le {columns : Nat} (h : Measured F ruler k s columns t) (hs : s.Sound) :
    columns ≤ ruler.widest * s.source.size := by
  obtain ⟨ts, hts, -, rfl⟩ := h.blank
  exact ruler.columns_le_size hs hts

theorem ends_indentColumns (hr : ruler.Excused F 0 s) (hs : s.Sound) (hk : s.Spare F k)
    (hk' : k < 97) : Ends F (indentColumns ruler) s (fun n t => Measured F ruler k s n t) E := by
  refine Ends.paused ?_
  have hline : (s.onCursor (.pause true)).observer.lineIndent = s.observer.lineIndent := rfl
  have hs' := hs.onCursor (f := .pause true)
  have hk := hk.onCursor (f := .pause true)
  have hpending : (s.onCursor (.pause true)).pending = s.pending := Lexer.pending_onCursor ..
  generalize s.onCursor (.pause true) = s' at hline hs' hk hpending ⊢
  refine Ends.loop (fun n t => ∃ ts, s'.Took ts t ∧ (∀ u ∈ ts, u.tag.isInlineSpace = true) ∧
    n = ruler.columns ts ∧ t.Spare F k) hs' ⟨[], .refl hs', by simp, rfl, hk⟩ ?_
  rintro _ t ⟨ts, ht, hts, rfl, hkt⟩
  refine Ends.bind (Ends.peek (.refl ht.sound) (by decide) hkt (by omega) fun u hu hku hz => ?_)
  have hblank {n : Nat} (hspace : (t.ahead 0).tag.isInlineSpace = true)
      (hn : n = ruler.columns (ts ++ [t.ahead 0])) (v : Lexer Cursor)
      (hv : t.Eats (t.ahead 0) v) (hkv : v.Spare F 0) : (∃ ts, s'.Took ts v ∧
        (∀ u ∈ ts, u.tag.isInlineSpace = true) ∧ n = ruler.columns ts ∧ v.Spare F k) ∧
          v.pending.length < t.pending.length := by
    refine ⟨⟨_, ht.eats hv, fun w hw => ?_, hn, hkv.mono (by omega)⟩, by simp [hv.pending]⟩
    rcases List.mem_append.1 hw with hw | hw
    · exact hts w hw
    · rwa [List.mem_singleton.1 hw]
  have hcons (hspace : (t.ahead 0).tag.isInlineSpace = true) :
      t.pending = t.ahead 0 :: t.pending.tail := by
    refine (ht.sound.tag_ahead_zero.resolve_left fun h => ?_).2
    simp [h.1, Tag.isInlineSpace] at hspace
  -- What is counted belongs to the source, with the token that is still to be eaten.
  have hcolumns (hspace : (t.ahead 0).tag.isInlineSpace = true) :
      ruler.columns (ts ++ [t.ahead 0]) ≤ ruler.widest * s.source.size := by
    have hp : s.pending = (ts ++ [t.ahead 0]) ++ t.pending.tail := by
      rw [← hpending, ht.pending, hcons hspace]
      simp
    exact ruler.columns_le_size hs hp
  split
  · next htok =>
    have hspace : (t.ahead 0).tag.isInlineSpace = true := by simp [htok, Tag.isInlineSpace]
    have hn : ruler.columns ts + (t.ahead 0).size = ruler.columns (ts ++ [t.ahead 0]) := by
      simp [Ruler.columns_append, Ruler.columns, htok]
    refine Ends.seq (ends_counted (hr.counted .add (hn ▸ hcolumns hspace))) ?_
    rintro n _ ⟨rfl, rfl⟩
    exact Ends.bind (Ends.eat hu hku (by omega) (hcons hspace) fun v hv _ hkv =>
      Ends.pure (hblank hspace hn v hv hkv))
  · next htok =>
    have hspace : (t.ahead 0).tag.isInlineSpace = true := by simp [htok, Tag.isInlineSpace]
    have hn : ruler.columns ts + 2 * ruler.width = ruler.columns (ts ++ [t.ahead 0]) := by
      simp [Ruler.columns_append, Ruler.columns, htok]
    have hle := hcolumns hspace
    refine Ends.seq (ends_counted (hr.counted .multiply (by omega))) ?_
    rintro tab _ ⟨rfl, rfl⟩
    refine Ends.seq (ends_counted (hr.counted .add (by omega))) ?_
    rintro n _ ⟨rfl, rfl⟩
    exact Ends.bind (Ends.eat hu hku (by omega) (hcons hspace) fun v hv _ hkv =>
      Ends.pure (hblank hspace hn v hv hkv))
  · next hsp htab =>
    refine Ends.pure ⟨ts, ht.looks hu, fun u hu => by simp [hts u hu], fun hskip =>
      ⟨hskip, ?_, ⟨ts, ?_, hts, rfl⟩, ?_, hku, hz⟩⟩
    · exact ((ht.looks hu).lineIndent fun w hw =>
        Tag.ne_newline_of_isInlineSpace (hts w hw)).trans hline
    · rw [← hpending, Lexer.pending_onCursor]
      exact (ht.looks hu).pending
    · rw [Lexer.ahead_onCursor, hu.ahead]
      simpa [Tag.isInlineSpace] using ⟨hsp, htab⟩

theorem ends_measureIndent (hr : ruler.Excused F 0 s) (hs : s.Sound) (hk : s.Spare F k)
    (hk' : k < 97) : Ends F (measureIndent ruler) s (fun m t => ∃ n, m = n / ruler.width ∧
      Measured F ruler k s n t) E :=
  Ends.seq (ends_indentColumns hr hs hk hk') fun n _ h => Ends.pure ⟨n, rfl, h⟩

inductive Found (F : Fault → Prop) (i : Nat) : Option Nat → Lexer Cursor → Prop
  | ended {t : Lexer Cursor} : t.pending = [] → t.atEof = true → t.Spare F 40 → Found F i none t
  | line {m : Nat} {t : Lexer Cursor} : t.observer.lineIndent = some m →
      (t.ahead 0).tag.isContent = true → t.Spare F (if m < i then 18 else 21) →
      (m < i → t.Settled) → Found F i (some m) t

/-- A place between two blocks of a sequence of indentation `i`: the next line is known, or it is
still to be measured. A line below `i` has been looked at less often, and is the one after a line
that is done. -/
inductive Rests (F : Fault → Prop) (i : Nat) (t : Lexer Cursor) : Prop
  | found {r : Option Nat} : Found F i r t → Rests F i t
  | fresh : t.observer.lineIndent = none → t.Settled → t.Spare F 16 → Rests F i t

theorem Found.spare {i : Nat} {r : Option Nat} (h : Found F i r t) : t.Spare F 40 := by
  cases h with
  | ended _ _ hk => exact hk
  | line _ _ hk _ => exact hk.mono (by split <;> decide)

theorem Rests.spare {i : Nat} (h : Rests F i t) : t.Spare F 40 := by
  cases h with
  | found h => exact h.spare
  | fresh _ _ hk => exact hk.mono (by decide)

theorem ends_lineTurn {i : Nat} (hr : ruler.Excused F 0 s) (hs : s.Steady) (hi : Rests F i s) :
    Ends F (lineTurn ruler) s (fun turn t => (s.Skips t ∧ t.Steady) ∧ turn.Gives
      (fun r => Found F i r t)
      fun _ => Rests F i t ∧ t.pending.length < s.pending.length) E := by
  have hrefl : s.Skips s := .refl hs.sound hs.unpaused
  refine Ends.bind (Ends.get ?_)
  split
  · next he =>
    exact Ends.pure ⟨⟨hrefl, hs⟩, .ended (hs.sound.pending_of_atEof he) he hi.spare⟩
  · next he =>
    refine Ends.bind (Ends.cursor ?_)
    cases hi with
    | found h =>
      cases h with
      | ended _ he' _ => exact absurd he' he
      | line hm hc hk hd =>
        simp only [hm]
        exact Ends.pure ⟨⟨hrefl, hs⟩, .line hm hc hk hd⟩
    | fresh hm hd hk =>
      simp only [hm]
      refine Ends.seq (ends_measureIndent hr hs.sound hk (by decide)) ?_
      rintro m u ⟨n, -, hu⟩
      have hsteady := hs.skips hd.done hu.toSkips
      refine Ends.bind (Ends.peekTag (.refl hu.sound) (by decide) hu.spare (by decide)
        fun v hv hkv hz => ?_)
      have hsv := hu.toSkips.looks hv
      split
      · next heof =>
        have hp : v.pending = [] := by
          rcases hu.sound.tag_ahead_zero with ⟨-, hp⟩ | ⟨hne, -⟩
          · exact hv.pending.trans hp
          · exact absurd heof hne
        exact Ends.pure ⟨⟨hsv, hsteady.looks hv⟩, .ended hp ((hv.sound.atEof_iff hz).2 hp)
          (hkv.mono (by decide))⟩
      · next hnl =>
        obtain ⟨-, hp⟩ := hu.sound.tag_ahead_zero.resolve_left fun h => by simp [h.1] at hnl
        refine Ends.bind (Ends.paused ?_)
        refine Ends.eat (.refl hv.sound.onCursor) hkv.onCursor (by decide)
          (hv.pending.trans hp) fun w hw hrest hkw => ⟨_, hw.took, by simp [hnl], fun hskip => ?_⟩
        have hdv := hd.skips hsv
        refine Ends.pure ⟨⟨hsv.trans hskip, (hsteady.looks hv).skips hdv.done hskip⟩,
          .fresh ?_ (hdv.skips hskip) (hkw.mono (by decide)), ?_⟩
        · simp [hw.observer, Observer.onEat, Cursor.onEat, Cursor.note, hnl]
        · have hlen := hu.suffix.length_le
          rw [hp] at hlen
          simp only [List.length_cons] at hlen
          simp only [Lexer.pending_onCursor, hrest]
          omega
      · next heof hnl =>
        refine Ends.bind (Ends.setLineIndent (Ends.pure ⟨⟨hsv.onLine _, ?_⟩, .line rfl ?_ ?_ ?_⟩))
        · exact (hsteady.looks hv).onLine _
        · rw [Lexer.ahead_onCursor, hv.ahead, Tag.isContent_iff]
          exact ⟨hu.next, by simpa [Tag.endsLine] using ⟨hnl, heof⟩⟩
        · exact hkv.mono (by split <;> decide)
        · exact fun _ => hd.skips (hsv.onLine _)

theorem ends_lineStart {i : Nat} (hr : ruler.Excused F 0 s) (hs : s.Steady) (hi : Rests F i s) :
    Ends F (lineStart ruler) s (fun r t => s.Skips t ∧ t.Steady ∧ Found F i r t) E := by
  refine Ends.loop (fun _ t => s.Skips t ∧ t.Steady ∧ Rests F i t) hs.sound
    ⟨.refl hs.sound hs.unpaused, hs, hi⟩ ?_
  rintro - t ⟨hst, ht, hit⟩
  apply (ends_lineTurn (hr.line hst.source) ht hit).imp
  rintro turn u ⟨⟨htu, hu⟩, h⟩
  cases turn with
  | done r => exact ⟨hst.trans htu, hu, h⟩
  | again => exact ⟨⟨hst.trans htu, hu, h.1⟩, h.2⟩

theorem ends_lineStart_of_atEof (hs : s.Sound) (he : s.atEof = true) :
    Ends F (lineStart ruler) s (fun r t => r = none ∧ t = s) E := by
  refine Ends.loop (fun _ t => t = s) hs rfl ?_
  rintro - _ rfl
  refine Ends.bind (Ends.get ?_)
  rw [if_pos he]
  exact Ends.pure ⟨rfl, rfl⟩

theorem ends_lineStart_of_measured {m : Nat} (hs : s.Sound) (he : s.atEof = false)
    (hm : s.observer.lineIndent = some m) :
    Ends F (lineStart ruler) s (fun r t => r = some m ∧ t = s) E := by
  refine Ends.loop (fun _ t => t = s) hs rfl ?_
  rintro - _ rfl
  refine Ends.bind (Ends.get ?_)
  rw [if_neg (Bool.eq_false_iff.1 he)]
  refine Ends.bind (Ends.cursor ?_)
  simp only [hm]
  exact Ends.pure ⟨rfl, rfl⟩

theorem ends_indentColumns_zero (hs : s.Sound) (hspace : (s.ahead 0).tag.isInlineSpace = false)
    (hk : s.Spare F k) (hk' : k < 97) :
    Ends F (indentColumns ruler) s (fun n t => n = 0 ∧ s.Skips t ∧ t.pending = s.pending ∧
      t.observer.lineIndent = s.observer.lineIndent ∧ t.Spare F (k + 1)) E := by
  refine Ends.paused ?_
  refine Ends.loop (fun n t => n = 0 ∧ t = s.onCursor (.pause true)) hs.onCursor ⟨rfl, rfl⟩ ?_
  rintro _ _ ⟨rfl, rfl⟩
  refine Ends.bind (Ends.peek (.refl hs.onCursor) (by decide) hk.onCursor (by omega)
    fun u hu hku _ => ?_)
  rw [Lexer.ahead_onCursor]
  split
  · next htag => simp [htag, Tag.isInlineSpace] at hspace
  · next htag => simp [htag, Tag.isInlineSpace] at hspace
  · refine Ends.pure ⟨[], hu.took, by simp, fun hskip => ⟨rfl, hskip, hu.pending, ?_, hku⟩⟩
    simp [hu.observer]

theorem ends_indentColumns_spaces {gap rest : List Token} (hs : s.Sound)
    (hp : s.pending = gap ++ rest) (hgap : ∀ t ∈ gap, t.tag = .spaces)
    (hrest : ∀ t ∈ rest.head?, t.tag.isInlineSpace = false)
    (hmax : ∀ n ∈ ruler.maxColumns, Text.byteSize (Token.texts gap) ≤ n) (hk : s.Spare F k)
    (hk' : k < 97) :
    Ends F (indentColumns ruler) s (fun n t => n = Text.byteSize (Token.texts gap) ∧ s.Skips t ∧
      t.pending = rest) E := by
  have hs' := hs.onCursor (f := .pause true)
  refine Ends.paused ?_
  refine Ends.loop (fun n t => ∃ done todo, gap = done ++ todo ∧
    (s.onCursor (.pause true)).Took done t ∧ n = Text.byteSize (Token.texts done) ∧ t.Spare F k) hs'
    ⟨[], gap, rfl, .refl hs', rfl, hk.onCursor⟩ ?_
  rintro _ t ⟨done, todo, rfl, ht, rfl, hkt⟩
  have hpt : t.pending = todo ++ rest := by
    have := ht.pending
    rw [Lexer.pending_onCursor, hp, List.append_assoc] at this
    exact (List.append_cancel_left this).symm
  refine Ends.bind (Ends.peek (.refl ht.sound) (by decide) hkt (by omega) fun u hu hku _ => ?_)
  cases todo with
  | nil =>
    have hspace : (t.ahead 0).tag.isInlineSpace = false := by
      cases rest with
      | nil =>
        rw [Lexer.ahead_zero_of_nil hpt]
        rfl
      | cons tok rest =>
        rw [Lexer.ahead_zero_of_cons hpt]
        exact hrest tok rfl
    split
    · next htag => simp [htag, Tag.isInlineSpace] at hspace
    · next htag => simp [htag, Tag.isInlineSpace] at hspace
    · rw [List.append_nil] at hgap ⊢
      exact Ends.pure ⟨done, ht.looks hu, fun v hv => by simp [hgap v hv, Tag.isInlineSpace],
        fun hskip => ⟨rfl, hskip, hu.pending.trans hpt⟩⟩
  | cons tok todo =>
    have htok : tok.tag = .spaces := hgap tok (by simp)
    have hsum : Text.byteSize (Token.texts done) + tok.size =
        Text.byteSize (Token.texts (done ++ [tok])) := by simp [Token.size]
    rw [Lexer.ahead_zero_of_cons hpt, htok]
    refine Ends.seq (ends_counted (.inr fun n hn => ?_)) ?_
    · have hle := hmax n hn
      simp only [Token.texts_append, Token.texts_cons, Text.byteSize_append] at hle
      rw [Token.size]
      omega
    · rintro n _ ⟨rfl, rfl⟩
      refine Ends.bind (Ends.eat hu hku (by omega) hpt fun v hv hpv hkv => Ends.pure
        ⟨⟨done ++ [tok], todo, by simp, ht.eats hv, hsum, hkv.mono (Nat.zero_le _)⟩, ?_⟩)
      rw [hpv, hpt]
      exact Nat.lt_succ_self _

theorem ends_measureIndent_zero (hs : s.Sound) (hspace : (s.ahead 0).tag.isInlineSpace = false)
    (hk : s.Spare F k) (hk' : k < 97) :
    Ends F (measureIndent ruler) s (fun n t => n = 0 ∧ s.Skips t ∧ t.pending = s.pending ∧
      t.observer.lineIndent = s.observer.lineIndent ∧ t.Spare F (k + 1)) E :=
  Ends.seq (ends_indentColumns_zero hs hspace hk hk') fun _ _ h =>
    Ends.pure ⟨by rw [h.1, Nat.zero_div], h.2⟩

theorem ends_lineStart_content (hs : s.Sound) (hc : (s.ahead 0).tag.isContent = true)
    (hline : s.observer.lineIndent = none) (hk : s.Spare F k) (hk' : k < 97) (ruler : Ruler) :
    Ends F (lineStart ruler) s (fun r t => r = some 0 ∧ s.Skips t ∧ t.pending = s.pending ∧
      t.observer.lineIndent = some 0 ∧ t.Spare F (k + 2)) E := by
  refine Ends.loop (fun _ t => s = t) hs rfl ?_
  rintro - _ rfl
  have hne : s.pending ≠ [] := by
    intro hp
    rw [Tag.isContent_iff, Lexer.ahead_zero_of_nil hp] at hc
    simp [Tag.endsLine] at hc
  refine Ends.bind (Ends.get ?_)
  rw [if_neg fun he => hne (hs.pending_of_atEof he)]
  refine Ends.bind (Ends.cursor ?_)
  rw [hline]
  refine Ends.seq (ends_measureIndent_zero hs (Tag.isContent_iff.1 hc).1 hk hk') ?_
  rintro _ t ⟨rfl, ht, hp, -, hkt⟩
  refine Ends.bind (Ends.peekTag (.refl ht.sound) (by decide) hkt (by omega) fun u hu hku _ => ?_)
  have hahead : (t.ahead 0).tag.isContent = true := by
    rw [Lexer.ahead, hp, ht.source]
    exact hc
  split
  · next htag => simp [htag, Tag.isContent, Tag.endsLine] at hahead
  · next htag => simp [htag, Tag.isContent, Tag.endsLine] at hahead
  · exact Ends.bind (Ends.setLineIndent (Ends.pure ⟨rfl, (ht.looks hu).onLine _,
      hu.pending.trans hp, rfl, hku.onCursor⟩))

theorem ends_lineStart_ended (hs : s.Sound) (hp : s.pending = [])
    (hend : s.atEof = true ∨ s.observer.lineIndent = none) (hk : s.Spare F k) (hk' : k < 97)
    (ruler : Ruler) :
    Ends F (lineStart ruler) s (fun r t => r = none ∧ t.Sound ∧ t.pending = [] ∧ t.atEof = true)
      E := by
  have hahead : (s.ahead 0).tag = .eof := by rw [Lexer.ahead_zero_of_nil hp]
  refine Ends.loop (fun _ t => s = t) hs rfl ?_
  rintro - _ rfl
  refine Ends.bind (Ends.get ?_)
  split
  · next he => exact Ends.pure ⟨rfl, hs, hp, he⟩
  · next he =>
    refine Ends.bind (Ends.cursor ?_)
    rw [hend.resolve_left he]
    refine Ends.seq (ends_measureIndent_zero hs (by rw [hahead]; rfl) hk hk') ?_
    rintro - t ⟨-, ht, hpt, -, hkt⟩
    have htag : (t.ahead 0).tag = .eof := by rw [Lexer.ahead, hpt, ht.source]; exact hahead
    refine Ends.bind (Ends.peekTag (.refl ht.sound) (by decide) hkt (by omega)
      fun u hu _ hz => ?_)
    rw [htag]
    have hpu := hu.pending.trans (hpt.trans hp)
    exact Ends.pure ⟨rfl, hu.sound, hpu, (hu.sound.atEof_iff hz).2 hpu⟩

theorem ends_lineStart_nil {i : Nat} (hs : s.Sound) (hp : s.pending = []) (hi : Rests F i s)
    (ruler : Ruler) :
    Ends F (lineStart ruler) s (fun r t => r = none ∧ t.pending = []) E := by
  have hend : s.atEof = true ∨ s.observer.lineIndent = none := by
    cases hi with
    | found h =>
      cases h with
      | ended _ he _ => exact .inl he
      | line _ hc _ _ => simp [Lexer.ahead_zero_of_nil hp, Tag.isContent, Tag.endsLine] at hc
    | fresh hline _ _ => exact .inr hline
  refine (ends_lineStart_ended hs hp hend hi.spare (by decide) ruler).imp ?_
  rintro _ t ⟨rfl, -, hpt, -⟩
  exact ⟨rfl, hpt⟩

structure Announces (s : Lexer Cursor) (marker : Marker) : Prop where
  heads : marker.heads <+: s.pending.map Token.tag
  pos : ∀ size, marker = .header size → 0 < size

theorem announces_paragraph (s : Lexer Cursor) : Announces s .paragraph :=
  ⟨List.nil_prefix, by simp⟩

theorem heads_run {tok : Token} {n : Nat} (hn : n ≤ (tok.run s.pending).length) :
    List.replicate n tok.tag <+: s.pending.map Token.tag := by
  refine List.IsPrefix.trans ?_ ((List.takeWhile_prefix fun u => u.tag == tok.tag).map Token.tag)
  refine List.prefix_iff_eq_take.2 (List.ext_getElem ?_ fun i h _ => ?_)
  · simpa [Token.run] using (Nat.min_eq_left hn).symm
  · have hi : i < (tok.run s.pending).length := by
      simp only [List.length_replicate] at h
      omega
    have := List.mem_takeWhile_imp (List.getElem_mem hi)
    simp only [Token.run, beq_iff_eq] at this
    simp [this]

def classified (s : Lexer Cursor) : Marker :=
  let t := s.ahead 0
  let size := (t.run s.pending).length
  match t.tag with
  | .hash =>
    if 1 ≤ size && size ≤ 5 && (s.ahead size).tag.isInlineSpace then .header size else .paragraph
  | .leftBracket => if size = 1 then .task else .paragraph
  | .dash => if size = 1 ∧ (s.ahead 1).tag.endsMarker = true then .list else .paragraph
  | .pipe => .table
  | .equals => if 3 ≤ size then .separator else .paragraph
  | .rightAngle => .raw
  | .number =>
    if (s.ahead 1).tag = .dot ∧ (s.ahead 2).tag.endsMarker = true then .ordered (t.value?.getD 0)
    else .paragraph
  | _ => .paragraph

def announced (room : Nat) (s : Lexer Cursor) : Marker :=
  if room = 0 && (classified s).opensBody then .paragraph else classified s

theorem announces_classified (hs : s.Sound) : Announces s (classified s) := by
  have hone {tag : Tag} (htag : (s.ahead 0).tag = tag) (hne : tag ≠ .eof) :
      [tag] <+: s.pending.map Token.tag := by
    obtain ⟨-, hp⟩ := hs.tag_ahead_zero.resolve_left fun h => hne (htag.symm.trans h.1)
    rw [hp, List.map_cons, htag]
    simp
  have hpara := announces_paragraph s
  unfold classified
  dsimp only
  split
  · next htag =>
    split
    · next hc =>
      simp only [Bool.and_eq_true, decide_eq_true_eq] at hc
      refine ⟨?_, ?_⟩
      · simpa [Marker.heads, htag] using heads_run (Nat.le_refl ((s.ahead 0).run s.pending).length)
      · rintro _ ⟨⟩
        exact hc.1.1
    · exact hpara
  · next htag =>
    split
    · exact ⟨hone htag (by decide), by simp⟩
    · exact hpara
  · next htag =>
    split
    · exact ⟨hone htag (by decide), by simp⟩
    · exact hpara
  · next htag => exact ⟨hone htag (by decide), by simp⟩
  · next htag =>
    split
    · next hc => exact ⟨by simpa [Marker.heads, htag] using heads_run hc, by simp⟩
    · exact hpara
  · next htag => exact ⟨hone htag (by decide), by simp⟩
  · next htag =>
    split
    · next hc =>
      refine ⟨?_, by simp⟩
      obtain ⟨-, hp⟩ := hs.tag_ahead_zero.resolve_left fun h => by simp [h.1] at htag
      generalize s.ahead 0 = tok, s.pending.tail = rest at hp htag
      cases rest with
      | nil => simp [Lexer.ahead, hp, Token.eof] at hc
      | cons dot rest =>
        have hd : dot.tag = .dot := by simpa [Lexer.ahead, hp] using hc.1
        simp [Marker.heads, hp, htag, hd]
    · exact hpara
  · exact hpara

theorem ends_classify (hs : s.Sound) (hk : s.Spare F k) (hk' : k < 95) :
    Ends F classify s (fun marker t => s.Looks t ∧ t.Spare F (k + 3) ∧ marker = classified s) E := by
  refine Ends.bind (Ends.peek (.refl hs) (by decide) hk (by omega) fun t ht hkt _ => ?_)
  have hgives {u : Lexer Cursor} {n : Nat} (marker : Marker) (hu : s.Looks u) (hku : u.Spare F n)
      (hn : n ≤ k + 3) (hm : classified s = marker) : Ends F (Pure.pure marker : Parse Marker) u
      (fun marker t => s.Looks t ∧ t.Spare F (k + 3) ∧ marker = classified s) E :=
    Ends.pure ⟨hu, hku.mono hn, hm.symm⟩
  have hrep {tag : Tag} {c : Char} (htag : (s.ahead 0).tag = tag) (hc : tag.char? = some c) :
      Ends F (Rule.repeats (s.ahead 0)) t (fun n u => u = t ∧
        n = ((s.ahead 0).run s.pending).length) E := by
    obtain ⟨-, hp⟩ := hs.tag_ahead_zero.resolve_left fun h => by
      rw [htag.symm.trans h.1] at hc
      simp [Tag.char?] at hc
    have := Ends.repeats (F := F) (E := E) ht.sound (ht.pending.trans hp) (htag ▸ hc)
    rwa [ht.pending] at this
  split
  · next htag =>
    refine Ends.seq (hrep htag rfl) ?_
    rintro size _ ⟨rfl, hsize⟩
    subst hsize
    split
    · next hc =>
      have hle : ((s.ahead 0).run s.pending).length ≤ 5 := by
        simp only [Bool.and_eq_true, decide_eq_true_eq] at hc
        exact hc.2
      refine Ends.bind (Ends.peekTag ht (by simp [lookaheadSize]; omega) hkt (by omega)
        fun u hu hku _ => ?_)
      split
      · next hspace => exact hgives (.header _) hu hku (by omega) (by simp [classified, htag, hc, hspace])
      · next hspace => exact hgives .paragraph hu hku (by omega) (by simp [classified, htag, hspace])
    · next hc => exact hgives .paragraph ht hkt (by omega) (by simp [classified, htag, hc])
  · next htag =>
    refine Ends.seq (hrep htag rfl) ?_
    rintro n _ ⟨rfl, rfl⟩
    exact hgives _ ht hkt (by omega) (by simp [classified, htag])
  · next htag =>
    refine Ends.seq (hrep htag rfl) ?_
    rintro n _ ⟨rfl, rfl⟩
    split
    · next hc =>
      refine Ends.bind (Ends.peekTag ht (by decide) hkt (by omega) fun u hu hku _ => ?_)
      split
      · next hend => exact hgives .list hu hku (by omega) (by simp [classified, htag, hc, hend])
      · next hend => exact hgives .paragraph hu hku (by omega) (by simp [classified, htag, hend])
    · next hc => exact hgives .paragraph ht hkt (by omega) (by simp [classified, htag, hc])
  · next htag => exact hgives _ ht hkt (by omega) (by simp [classified, htag])
  · next htag =>
    refine Ends.seq (hrep htag rfl) ?_
    rintro n _ ⟨rfl, rfl⟩
    exact hgives _ ht hkt (by omega) (by simp [classified, htag])
  · next htag => exact hgives _ ht hkt (by omega) (by simp [classified, htag])
  · next htag =>
    refine Ends.bind (Ends.peekTag ht (by decide) hkt (by omega) fun u hu hku _ => ?_)
    split
    · next hdot =>
      refine Ends.bind (Ends.peekTag hu (by decide) hku (by omega) fun v hv hkv _ => ?_)
      split
      · next hend => exact hgives (.ordered _) hv hkv (by omega) (by simp [classified, htag, hdot, hend])
      · next hend => exact hgives .paragraph hv hkv (by omega) (by simp [classified, htag, hend])
    · next hdot => exact hgives .paragraph hu hku (by omega) (by simp [classified, htag, hdot])
  · exact hgives .paragraph ht hkt (by omega) (by simp only [classified])

theorem ends_announced {room : Nat} (hs : s.Sound) (hk : s.Spare F k) (hk' : k < 95) :
    Ends F (dispatch room) s (fun marker t => s.Looks t ∧ t.Spare F (k + 3) ∧
      marker = announced room s) E := by
  refine Ends.seq (ends_classify hs hk hk') ?_
  rintro _ t ⟨ht, hkt, rfl⟩
  exact Ends.pure ⟨ht, hkt, rfl⟩

theorem announced_of_dispatch {room : Nat} {marker : Marker} (hs : s.Sound)
    (h : dispatch room s = .ok marker t) : marker = announced room s :=
  ((ends_announced (F := fun _ => True) (E := fun _ _ => True) hs (s.spare_true 0)
    (by decide)).of_ok h).2.2

theorem classified_congr (hp : t.pending = s.pending) (hsrc : t.source = s.source) :
    classified t = classified s := by
  have hahead (n : Nat) : t.ahead n = s.ahead n := by rw [Lexer.ahead, Lexer.ahead, hp, hsrc]
  simp only [classified, hahead, hp]

theorem announced_congr (hp : t.pending = s.pending) (hsrc : t.source = s.source) (room : Nat) :
    announced room t = announced room s := by
  rw [announced, announced, classified_congr hp hsrc]

theorem classified_of_announced {room : Nat} {marker : Marker} (h : announced room s = marker)
    (hne : marker ≠ .paragraph) : classified s = marker := by
  unfold announced at h
  split at h
  · exact absurd h.symm hne
  · exact h

theorem announced_looks (h : s.Looks t) (room : Nat) : announced room t = announced room s :=
  announced_congr h.pending h.source room

theorem announces_announced (hs : s.Sound) (room : Nat) :
    Announces s (announced room s) ∧ ((announced room s).opensBody = true → room ≠ 0) := by
  unfold announced
  split
  · exact ⟨announces_paragraph s, by simp [Marker.opensBody]⟩
  · next hc => exact ⟨announces_classified hs, fun ho hr => hc (by simp [ho, hr])⟩

theorem ends_dispatch {room : Nat} (hs : s.Sound) (hk : s.Spare F k) (hk' : k < 95) :
    Ends F (dispatch room) s (fun marker t => s.Looks t ∧ t.Spare F (k + 3) ∧
      Announces s marker ∧ (marker.opensBody = true → room ≠ 0)) E := by
  refine (ends_announced hs hk hk').imp ?_
  rintro _ t ⟨ht, hkt, rfl⟩
  exact ⟨ht, hkt, announces_announced hs room⟩

end Parse

end TaskMarkup
