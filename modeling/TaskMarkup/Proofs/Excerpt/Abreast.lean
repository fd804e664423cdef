import TaskMarkup.Proofs.Grammar.Body
import TaskMarkup.Proofs.Rule.Follows

/-!
A lexer that reads a stretch of a text, and one that reads the stretch alone. They are abreast as
long as the same tokens of the stretch are pending, and there may be more behind it for the first
only. A stretch ends where a line ends, so what is looked at within a line is the same for both, but
for a newline in the place of the end of the text.

What follows a stretch may go on with what it holds, and then the text has more of that than the
stretch. Where a line follows that is not indented, there are few ways to go on: a paragraph that
the stretch ends in, or a list or a table of which the line is another item or row.
-/

namespace TaskMarkup

def Token.Plain (ts : List Token) : Prop :=
  ∃ nls tok toks, ts = nls ++ tok :: toks ∧ (∀ u ∈ nls, u.tag = .newline) ∧
    tok.tag.isContent = true

namespace Token.Plain

variable {tok : Token} {ts : List Token}

theorem isInlineSpace_eq_false (h : Plain (tok :: ts)) : tok.tag.isInlineSpace = false := by
  obtain ⟨nls, u, us, hts, hnls, hu⟩ := h
  cases nls with
  | nil =>
    obtain ⟨rfl, -⟩ := List.cons.inj hts
    exact (Tag.isContent_iff.1 hu).1
  | cons nl nls =>
    obtain ⟨rfl, -⟩ := List.cons.inj hts
    rw [hnls tok (by simp)]
    rfl

theorem tail (h : Plain (tok :: ts)) (htok : tok.tag = .newline) : Plain ts := by
  obtain ⟨nls, u, us, hts, hnls, hu⟩ := h
  cases nls with
  | nil =>
    obtain ⟨rfl, -⟩ := List.cons.inj hts
    simp [htok, Tag.isContent, Tag.endsLine] at hu
  | cons nl nls =>
    obtain ⟨rfl, rfl⟩ := List.cons.inj hts
    exact ⟨nls, u, us, rfl, fun v hv => hnls v (by simp [hv]), hu⟩

end Token.Plain

/-- A stretch of a text, and the tokens behind it. Unless anything may follow, the stretch ends with
a newline and the next line is not indented. -/
structure Stretch where
  before : List Char
  text : List Char
  rest : List Token
  free : Prop
  plain : free ∨ Token.Plain rest

namespace Stretch

def origin (x : Stretch) : Nat := Text.byteSize x.before

def cut (x : Stretch) : Nat := x.origin + Text.byteSize x.text

def Bounds (x : Stretch) (ts : List Token) : Prop :=
  x.free ∧ (x.rest = [] ∨ x.rest.head?.map Token.tag = some .newline) ∨
    ts.getLast?.map Token.tag = some .newline

theorem Bounds.nil {x : Stretch} (h : x.Bounds []) :
    x.free ∧ (x.rest = [] ∨ x.rest.head?.map Token.tag = some .newline) := by
  simpa [Bounds] using h

theorem Bounds.of_append {x : Stretch} {ts us : List Token} (h : x.Bounds (ts ++ us))
    (hts : ∀ t ∈ ts, t.tag ≠ .newline) : x.Bounds us := by
  rcases h with h | h
  · exact .inl h
  · refine .inr ?_
    cases hu : us.getLast? with
    | some u => simpa [List.getLast?_append, hu] using h
    | none =>
      simp only [List.getLast?_append, hu, Option.none_or, Option.map_eq_some_iff] at h
      obtain ⟨t, ht, htag⟩ := h
      exact absurd htag (hts t (List.mem_of_getLast? ht))

end Stretch

structure Cursor.Beside (origin : Nat) (loose : Prop) (c d : Cursor) : Prop where
  lastEnd : max c.lastEnd origin = d.lastEnd + origin
  paused : c.paused = d.paused
  wordStart : c.wordStart = d.wordStart
  lineIndent : loose ∨ c.lineIndent = d.lineIndent

namespace Cursor.Beside

variable {origin : Nat} {loose loose' : Prop} {c d : Cursor} {t : Token}

theorem mono (h : Beside origin loose c d) (hl : loose → loose') : Beside origin loose' c d :=
  ⟨h.lastEnd, h.paused, h.wordStart, h.lineIndent.imp hl id⟩

theorem onEat (h : Beside origin loose c d) :
    Beside origin loose (Cursor.onEat (t.moved origin) c) (Cursor.onEat t d) := by
  unfold Cursor.onEat note
  rw [Token.moved_tag]
  split
  · exact h
  · refine ⟨?_, h.paused, rfl, ?_⟩
    · simp only [h.paused, Token.moved_stop]
      split
      · exact h.lastEnd
      · omega
    · apply h.lineIndent.imp id
      intro hl
      simp only [hl]

theorem onNewline (h : Beside origin loose c d) (ht : t.tag = .newline) :
    Beside origin False (Cursor.onEat (t.moved origin) c) (Cursor.onEat t d) := by
  have h := h.onEat (t := t)
  refine ⟨h.lastEnd, h.paused, h.wordStart, .inr ?_⟩
  simp [Cursor.onEat, note, ht]

theorem after {ts : List Token} (h : Beside origin loose c d) :
    Beside origin loose (c.after (ts.map (Token.moved origin))) (d.after ts) := by
  induction ts generalizing c d with
  | nil => exact h
  | cons t ts ih => exact ih h.onEat

theorem of_quiet {c' d' : Cursor} (h : Beside origin loose c d) (hc : c'.quiet = c.quiet)
    (hd : d'.quiet = d.quiet) : Beside origin loose c' d' := by
  have h : Beside origin loose c.quiet d.quiet :=
    ⟨h.lastEnd, h.paused, h.wordStart, h.lineIndent⟩
  rw [← hc, ← hd] at h
  exact ⟨h.lastEnd, h.paused, h.wordStart, h.lineIndent⟩

theorem onLine (h : Beside origin loose c d) (m : Option Nat) :
    Beside origin False (c.onLine m) (d.onLine m) :=
  ⟨h.lastEnd, h.paused, h.wordStart, .inr rfl⟩

theorem pause (h : Beside origin loose c d) (p : Bool) :
    Beside origin loose (c.pause p) (d.pause p) :=
  ⟨h.lastEnd, rfl, h.wordStart, h.lineIndent⟩

theorem noting (h : Beside origin loose c d) (e e' : Event) :
    Beside origin loose (c.noting e) (d.noting e') :=
  ⟨h.lastEnd, h.paused, h.wordStart, h.lineIndent⟩

end Cursor.Beside

inductive Token.Sees (origin : Nat) : Token → Token → Prop
  | same (t : Token) : Sees origin (t.moved origin) t
  | ended {t t' : Token} : t.tag = .newline → t'.tag = .eof → Sees origin t t'

namespace Token.Sees

variable {origin : Nat} {t t' : Token}

theorem elim (h : Sees origin t t') : t = t'.moved origin ∨ t.tag = .newline ∧ t'.tag = .eof := by
  cases h with
  | same => exact .inl rfl
  | ended ht ht' => exact .inr ⟨ht, ht'⟩

theorem congr {α : Type} (h : Sees origin t t') (f : Tag → α) (hf : f .newline = f .eof) :
    f t.tag = f t'.tag := by
  cases h with
  | same => rfl
  | ended ht ht' => rw [ht, ht', hf]

theorem endsLine (h : Sees origin t t') : t.tag.endsLine = t'.tag.endsLine :=
  h.congr Tag.endsLine rfl

theorem isInlineSpace (h : Sees origin t t') : t.tag.isInlineSpace = t'.tag.isInlineSpace :=
  h.congr Tag.isInlineSpace rfl

theorem tag_iff (h : Sees origin t t') {tag : Tag} (htag : tag.endsLine = false) :
    t.tag = tag ↔ t'.tag = tag := by
  cases h with
  | same => rfl
  | ended ht ht' =>
    rw [ht, ht']
    constructor
    · rintro rfl
      simp [Tag.endsLine] at htag
    · rintro rfl
      simp [Tag.endsLine] at htag

theorem eq_moved (h : Sees origin t t') (ht : t'.tag.endsLine = false) : t = t'.moved origin := by
  cases h with
  | same => rfl
  | ended _ ht' => simp [ht', Tag.endsLine] at ht

end Token.Sees

namespace Stretch

variable {x : Stretch} {loose loose' : Prop} {s t u e f g : Lexer Cursor} {ts : List Token}
  {tok : Token}

/-- The lexer `e` reads the stretch as `s` reads the text around it. -/
structure Abreast (x : Stretch) (loose : Prop) (s e : Lexer Cursor) : Prop where
  sound : s.Sound
  sound' : e.Sound
  source : s.source.chars = x.before ++ (x.text ++ Token.texts x.rest)
  source' : e.source.chars = x.text
  cursor : Cursor.Beside x.origin loose s.observer e.observer
  pending : s.pending = e.pending.map (Token.moved x.origin) ++ x.rest
  bounds : x.Bounds e.pending

theorem cut_eq (he : e.Sound) (hsrc : e.source.chars = x.text) (hp : e.pending = []) :
    e.nextOffset + x.origin = x.cut := by
  have hpos := he.position.1
  rw [hp, Token.texts_nil, List.append_nil, hsrc] at hpos
  rw [← he.position.2.1, ← hpos, cut, Nat.add_comm]

namespace Abreast

theorem mono (h : x.Abreast loose s e) (hl : loose → loose') : x.Abreast loose' s e :=
  { h with cursor := h.cursor.mono hl }

theorem consumed (h : x.Abreast loose s e) : s.consumed = x.before ++ e.consumed := by
  have hs := h.sound.position.1
  have he := h.sound'.position.1
  rw [h.source, h.pending, Token.texts_append, Token.texts_map_moved, ← h.source', he] at hs
  rw [← List.append_assoc, ← List.append_assoc, ← List.append_assoc] at hs
  exact (List.append_cancel_right (List.append_cancel_right hs)).symm

theorem nextOffset (h : x.Abreast loose s e) : s.nextOffset = e.nextOffset + x.origin := by
  rw [← h.sound.position.2.1, h.consumed, Text.byteSize_append, h.sound'.position.2.1,
    Nat.add_comm]
  rfl

theorem nextOffset_took (h : x.Abreast loose s e)
    (hs : s.Took (ts.map (Token.moved x.origin)) t) (he : e.Took ts f) :
    t.nextOffset = f.nextOffset + x.origin := by
  have ht := Lexer.nextOffset_of_pending h.sound hs.sound hs.source hs.pending
  have hf := Lexer.nextOffset_of_pending h.sound' he.sound he.source he.pending
  rw [ht, hf, h.nextOffset, Token.texts_map_moved]
  omega

theorem cut_le (h : x.Abreast loose s e) (hp : e.pending = []) : x.cut ≤ s.nextOffset := by
  rw [h.nextOffset, cut_eq h.sound' h.source' hp]

theorem onCursor {c c' : Cursor → Cursor} (h : x.Abreast loose s e)
    (hc : Cursor.Beside x.origin loose' (c s.observer) (c' e.observer)) :
    x.Abreast loose' (s.onCursor c) (e.onCursor c') :=
  ⟨h.sound.onCursor, h.sound'.onCursor, h.source, h.source', hc, h.pending, h.bounds⟩

theorem looks (h : x.Abreast loose s e) (hs : s.Looks t) (he : e.Looks f) :
    x.Abreast loose t f where
  sound := hs.sound
  sound' := he.sound
  source := by rw [hs.source, h.source]
  source' := by rw [he.source, h.source']
  cursor := by
    rw [hs.observer, he.observer]
    exact h.cursor
  pending := by rw [hs.pending, he.pending, h.pending]
  bounds := by
    rw [he.pending]
    exact h.bounds

theorem sees {n : Nat} (h : x.Abreast loose s e)
    (hn : ∀ i < n, (e.ahead i).tag.endsLine = false) :
    Token.Sees x.origin (s.ahead n) (e.ahead n) := by
  obtain ⟨hle, hnl⟩ := Lexer.take_of_ahead hn
  simp only [Lexer.ahead, h.pending, List.getD_eq_getElem?_getD]
  rcases Nat.lt_or_ge n e.pending.length with hlt | hge
  · rw [List.getElem?_append_left (by simpa using hlt)]
    simpa [hlt] using Token.Sees.same e.pending[n]
  · obtain rfl : n = e.pending.length := Nat.le_antisymm hle hge
    rw [List.take_length] at hnl
    have happ : x.Bounds (e.pending ++ []) := by simpa using h.bounds
    have hrest := (Bounds.of_append happ hnl).nil.2
    rw [List.getElem?_append_right (by simp)]
    simp only [List.length_map, Nat.sub_self, List.getElem?_length, Option.getD_none]
    cases hr : x.rest with
    | nil =>
      have hsize : s.source.size = e.source.size + x.origin := by
        rw [s.source.size_eq, e.source.size_eq, h.source, h.source', hr]
        simp [origin, Nat.add_comm]
      simpa [hsize, Token.moved, Token.eof] using Token.Sees.same (Token.eof e.source.size)
    | cons nl rest =>
      refine .ended ?_ rfl
      simpa [hr] using hrest

theorem sees_zero (h : x.Abreast loose s e) : Token.Sees x.origin (s.ahead 0) (e.ahead 0) :=
  h.sees fun _ hi => absurd hi (Nat.not_lt_zero _)

theorem sees_one (h : x.Abreast loose s e) (h0 : (e.ahead 0).tag.endsLine = false) :
    Token.Sees x.origin (s.ahead 1) (e.ahead 1) := by
  apply h.sees
  intro i hi
  obtain rfl : i = 0 := by omega
  exact h0

theorem cons (h : x.Abreast loose s e) (hline : (e.ahead 0).tag.endsLine = false) :
    e.pending = e.ahead 0 :: e.pending.tail := by
  refine (h.sound'.tag_ahead_zero.resolve_left ?_).2
  intro heof
  simp [heof.1, Tag.endsLine] at hline

theorem start (h : x.Abreast loose s e) : (s.ahead 0).start = (e.ahead 0).start + x.origin := by
  rw [h.sound.start_ahead, h.sound'.start_ahead, h.nextOffset]

theorem takeWhile {p : Token → Bool} (h : x.Abreast loose s e) (hp : ∀ t u : Token, t.tag = u.tag → p t = p u)
    (hnl : ∀ t : Token, t.tag = .newline → p t = false) :
    s.pending.takeWhile p = (e.pending.takeWhile p).map (Token.moved x.origin) := by
  have hmoved : p ∘ Token.moved x.origin = p := funext fun t => hp _ _ rfl
  rw [h.pending, List.takeWhile_append, List.takeWhile_map, hmoved, List.length_map,
    List.length_map]
  split
  · next hlen =>
    have hall : e.pending.takeWhile p = e.pending :=
      (List.takeWhile_prefix p).eq_of_length hlen
    have hrest : x.rest.takeWhile p = [] := by
      have happ : x.Bounds (e.pending ++ []) := by simpa using h.bounds
      have hb := (Bounds.of_append happ fun t ht hn => by
        rw [← hall] at ht
        simpa [hnl t hn] using List.mem_takeWhile_imp ht).nil.2
      cases hr : x.rest with
      | nil => rfl
      | cons nl rest =>
        rw [List.takeWhile_cons_of_neg]
        simp [hnl nl (by simpa [hr] using hb)]
    rw [hrest, List.append_nil, hall]
  · rfl

theorem run (h : x.Abreast loose s e) (htok : tok.tag ≠ .newline) :
    ((tok.moved x.origin).run s.pending).length = (tok.run e.pending).length := by
  unfold Token.run
  rw [h.takeWhile (fun t u ht => by simp [ht]) fun t ht => by simpa [ht] using htok.symm]
  simp

theorem took (h : x.Abreast loose s e) (hs : s.Took (ts.map (Token.moved x.origin)) t)
    (he : e.Took ts f) (hb : x.Bounds f.pending) : x.Abreast loose t f where
  sound := hs.sound
  sound' := he.sound
  source := by rw [hs.source, h.source]
  source' := by rw [he.source, h.source']
  cursor := h.cursor.after.of_quiet hs.cursor he.cursor
  pending := by
    have hp := h.pending
    rw [hs.pending, he.pending, List.map_append, List.append_assoc] at hp
    exact List.append_cancel_left hp
  bounds := hb

theorem took_line (h : x.Abreast loose s e) (hs : s.Took (ts.map (Token.moved x.origin)) t)
    (he : e.Took ts f) (hts : ∀ u ∈ ts, u.tag ≠ .newline) : x.Abreast loose t f := by
  refine h.took hs he (Bounds.of_append ?_ hts)
  rw [← he.pending]
  exact h.bounds

theorem eats (h : x.Abreast loose s e) (hs : s.Eats (tok.moved x.origin) t) (he : e.Eats tok f)
    (htok : tok.tag ≠ .newline) : x.Abreast loose t f := by
  have hline : ∀ u ∈ [tok], u.tag ≠ .newline := by simpa using htok
  have hst : s.Took ([tok].map (Token.moved x.origin)) t := hs.took
  exact h.took_line hst he.took hline

end Abreast

structure InLine (x : Stretch) (loose : Prop) (s e : Lexer Cursor) : Prop
    extends x.Abreast loose s e where
  firm : s.Firm
  firm' : e.Firm

structure Behind (x : Stretch) (s : Lexer Cursor) : Prop where
  skipped : ∃ nls, (∀ u ∈ nls, u.tag = .newline) ∧ x.rest = nls ++ s.pending
  plain : Token.Plain s.pending
  line : ∀ m, s.observer.lineIndent = some m → m = 0

structure Meets (x : Stretch) (s : Lexer Cursor) : Prop where
  skipped : ∃ nls, (∀ u ∈ nls, u.tag = .newline) ∧ x.rest = nls ++ s.pending
  content : (s.ahead 0).tag.isContent = true

abbrev Rear (x : Stretch) (s : Lexer Cursor) : Prop := x.free ∨ x.Behind s

/-- The stretch is over, and nothing beyond it counts towards the span of a node so far. -/
structure Past (x : Stretch) (s e : Lexer Cursor) : Prop where
  cut_le : x.cut ≤ s.nextOffset
  ended : e.pending = []
  lastEnd : max s.observer.lastEnd x.origin = e.observer.lastEnd + x.origin
  rear : x.Rear s

/-- The stretch is over, while the text goes on with what the stretch ends in. That is a paragraph
then, and its last newline was eaten. -/
structure Over (x : Stretch) (s : Lexer Cursor) : Prop extends s.Placed where
  ended : s.pending = []
  full : x.free ∨ x.rest.head?.map Token.tag ≠ some .newline ∧ s.observer.lastEnd = s.nextOffset

@[reducible] def loss (x : Stretch) : Rule.Loss := ⟨Lexer.Lost x.cut, x.Over⟩

structure Beyond (x : Stretch) (s : Lexer Cursor) : Prop where
  steady : s.Steady
  cut_le : x.cut ≤ s.nextOffset
  content : (s.ahead 0).tag.isContent = true

/-- Both stand between two lines, or the stretch is over. -/
inductive Near (x : Stretch) (s e : Lexer Cursor) : Prop
  | within : x.Abreast False s e → e.pending ≠ [] → Near x s e
  | past : x.Past s e → Near x s e

namespace InLine

theorem mono (h : x.InLine loose s e) (hl : loose → loose') : x.InLine loose' s e :=
  { h with toAbreast := h.toAbreast.mono hl }

theorem looks (h : x.InLine loose s e) (hs : s.Looks t) (he : e.Looks f) : x.InLine loose t f :=
  ⟨h.toAbreast.looks hs he, h.firm.looks hs, h.firm'.looks he⟩

theorem took (h : x.InLine loose s e) (hs : s.Took (ts.map (Token.moved x.origin)) t)
    (he : e.Took ts f) (hts : ∀ u ∈ ts, u.tag ≠ .newline) : x.InLine loose t f :=
  ⟨h.took_line hs he hts, h.firm.took hs (by simpa using hts), h.firm'.took he hts⟩

theorem eats (h : x.InLine loose s e) (hs : s.Eats (tok.moved x.origin) t) (he : e.Eats tok f)
    (htok : tok.tag ≠ .newline) : x.InLine loose t f := by
  have hline : ∀ u ∈ [tok], u.tag ≠ .newline := by simpa using htok
  have hst : s.Took ([tok].map (Token.moved x.origin)) t := hs.took
  exact h.took hst he.took hline

theorem noting (h : x.InLine loose s e) (ev ev' : Event) :
    x.InLine loose (s.onCursor (.noting ev)) (e.onCursor (.noting ev')) where
  toAbreast := h.toAbreast.onCursor (h.cursor.noting ev ev')
  firm := h.firm.took (h.sound.noting ev) (by simp)
  firm' := h.firm'.took (h.sound'.noting ev') (by simp)

end InLine

namespace Behind

theorem of_looks (h : x.Behind s) (ht : s.Looks t) : x.Behind t where
  skipped := by
    rw [ht.pending]
    exact h.skipped
  plain := by
    rw [ht.pending]
    exact h.plain
  line := by
    rw [ht.observer]
    exact h.line

theorem onCursor {c : Cursor → Cursor} (h : x.Behind s)
    (hc : ∀ m, (c s.observer).lineIndent = some m → m = 0) : x.Behind (s.onCursor c) :=
  ⟨h.skipped, h.plain, hc⟩

theorem of_rest (hplain : Token.Plain x.rest) (ht : s.Took [tok] t) (htok : tok.tag = .newline)
    (hp : t.pending = x.rest) : x.Behind t where
  skipped := ⟨[], by simp, by rw [hp]; rfl⟩
  plain := hp ▸ hplain
  line := by simp [ht.lineIndent_of_newline htok]

theorem took (h : x.Behind s) (ht : s.Took [tok] t) (htok : tok.tag = .newline) :
    x.Behind t where
  skipped := by
    obtain ⟨nls, hnls, hrest⟩ := h.skipped
    refine ⟨nls ++ [tok], fun u hu => ?_, by rw [hrest, ht.pending]; simp⟩
    rcases List.mem_append.1 hu with hu | hu
    · exact hnls u hu
    · rwa [List.mem_singleton.1 hu]
  plain := by
    have hplain := h.plain
    rw [ht.pending] at hplain
    exact hplain.tail htok
  line := by simp [ht.lineIndent_of_newline htok]

end Behind

namespace Over

theorem moves (h : x.Over s) (ht : s.Moves t) : x.Over t where
  toPlaced := ht.placed
  ended := ht.toOnward.pending_nil h.ended
  full := by
    refine h.full.imp id fun h' => ⟨h'.1, ?_⟩
    have hle := ht.lastEnd_le
    have hlast := ht.placed.lastEnd_le
    have hnext : t.nextOffset = s.nextOffset := by
      rw [ht.placed.sound.nextOffset_eq, h.sound.nextOffset_eq, h.ended,
        ht.toOnward.pending_nil h.ended, ht.source]
    omega

theorem looks (h : x.Over s) (ht : s.Looks t) : x.Over t := h.moves (h.toPlaced.looks ht)

theorem of_free (hx : x.free) (hs : s.Steady) (hp : s.pending = []) : x.Over s :=
  ⟨hs.placed, hp, .inl hx⟩

end Over

namespace Past

theorem skips (h : x.Past s e) (hs : s.Sound) (ht : s.Skips t) (hr : x.Rear t) : x.Past t e where
  cut_le := Nat.le_trans h.cut_le (ht.toOnward.nextOffset_le hs ht.sound)
  ended := h.ended
  lastEnd := by
    rw [ht.lastEnd]
    exact h.lastEnd
  rear := hr

theorem looks (h : x.Past s e) (hs : s.Sound) (ht : s.Looks t) : x.Past t e where
  cut_le := by
    rw [ht.nextOffset_eq hs]
    exact h.cut_le
  ended := h.ended
  lastEnd := by
    rw [ht.observer]
    exact h.lastEnd
  rear := h.rear.imp id (·.of_looks ht)

theorem skips_right (h : x.Past s e) (hf : e.Skips f) : x.Past s f where
  cut_le := h.cut_le
  ended := hf.pending_nil h.ended
  lastEnd := by
    rw [hf.lastEnd]
    exact h.lastEnd
  rear := h.rear

end Past

namespace Beyond

theorem looks (h : x.Beyond s) (ht : s.Looks t) : x.Beyond t where
  steady := h.steady.looks ht
  cut_le := by
    rw [ht.nextOffset_eq h.steady.sound]
    exact h.cut_le
  content := by
    rw [ht.ahead]
    exact h.content

theorem firm (h : x.Beyond s) : s.Firm := h.steady.firm (Tag.isContent_iff.1 h.content).1

theorem ne_nil (h : x.Beyond s) : s.pending ≠ [] := by
  intro hp
  have hcontent := h.content
  rw [Tag.isContent_iff, Lexer.ahead_zero_of_nil hp] at hcontent
  simp [Tag.endsLine] at hcontent

end Beyond

theorem Near.lastEnd (h : x.Near s e) :
    max s.observer.lastEnd x.origin = e.observer.lastEnd + x.origin := by
  cases h with
  | within h _ => exact h.cursor.lastEnd
  | past h => exact h.lastEnd

theorem Near.unpause (h : x.Near s e) :
    x.Near (s.onCursor (.pause false)) (e.onCursor (.pause false)) := by
  cases h with
  | within h hp => exact .within (h.onCursor (h.cursor.pause false)) hp
  | past h =>
    exact .past ⟨h.cut_le, h.ended, h.lastEnd, h.rear.imp id fun hb => hb.onCursor hb.line⟩

namespace Abreast

theorem free (h : x.Abreast loose s e) (hp : e.pending = []) : x.free :=
  (hp ▸ h.bounds : x.Bounds []).nil.1

theorem past (h : x.Abreast loose s e) (hp : e.pending = []) : x.Past s e :=
  ⟨h.cut_le hp, hp, h.cursor.lastEnd, .inl (h.free hp)⟩

theorem near (h : x.Abreast loose s e) (hl : e.pending ≠ [] → loose → False) : x.Near s e := by
  by_cases hp : e.pending = []
  · exact .past (h.past hp)
  · exact .within (h.mono (hl hp)) hp

theorem newline (h : x.Abreast loose s e) (hs : s.Took [tok.moved x.origin] t)
    (he : e.Took [tok] f) (htok : tok.tag = .newline) : x.Near t f := by
  have hc : Cursor.Beside x.origin False t.observer f.observer :=
    (h.cursor.onNewline htok).of_quiet hs.cursor he.cursor
  by_cases hp : f.pending = []
  · refine .past ⟨?_, hp, hc.lastEnd, x.plain.imp id fun hplain => ?_⟩
    · have hsrc : f.source.chars = x.text := by rw [he.source, h.source']
      have hs : s.Took ([tok].map (Token.moved x.origin)) t := hs
      rw [h.nextOffset_took hs he, cut_eq he.sound hsrc hp]
    · refine .of_rest hplain hs htok ?_
      have hps := h.pending
      rw [hs.pending, he.pending, hp] at hps
      exact List.append_cancel_left hps
  · have hs : s.Took ([tok].map (Token.moved x.origin)) t := hs
    refine .within { h.took hs he ?_ with cursor := hc } hp
    have hb := h.bounds
    rw [he.pending] at hb
    apply hb.imp id
    intro hlast
    rwa [List.singleton_append, List.getLast?_cons_of_ne_nil hp] at hlast

end Abreast

end Stretch

end TaskMarkup
