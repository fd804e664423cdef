import TaskMarkup.Proofs.Grammar.Block
import TaskMarkup.Proofs.Node.Formed

/-!
Where blocks come from. Each part of a block was given by a rule somewhere in the source: its
paragraphs, and the bodies of items, cells and tasks. Behind the items of a list stands a line that
is none of them. What is known of these rules is thereby known of all blocks that are read.
-/

namespace TaskMarkup

theorem Row.le_start {α : Type} {span : α → Span} {Fits : α → Prop} {lo hi : Nat} {cs : List α}
    (h : Row span Fits lo hi cs) {c : α} (hc : c ∈ cs) : lo ≤ (span c).start := by
  obtain ⟨before, after, rfl⟩ := List.append_of_mem hc
  obtain ⟨mid, hbefore, hafter⟩ := h.of_append
  exact Nat.le_trans hbefore.le hafter.ordered.1

namespace Lexer

variable {s t : Lexer Cursor}

theorem Took.slice {ts : List Token} (h : s.Took ts t) (hs : s.Sound) :
    s.source.slice s.nextOffset t.nextOffset = Token.texts ts := by
  have hb : s.source.IsBoundary t.nextOffset := h.source ▸ h.sound.isBoundary_nextOffset
  have hbefore := Source.before_eq_append_slice hs.isBoundary_nextOffset hb (h.nextOffset_le hs)
  have hconsumed := h.consumed hs
  rw [Lexer.consumed, Lexer.consumed, h.source, hbefore] at hconsumed
  exact List.append_cancel_left hconsumed

theorem Scans.newline_not_mem_slice (h : s.Scans t) (hs : s.Sound) :
    '\n' ∉ s.source.slice s.nextOffset t.nextOffset := by
  obtain ⟨ts, hts, ht⟩ := h
  rw [ht.slice hs]
  intro hmem
  obtain ⟨text, htext, hnl⟩ := List.mem_flatten.1 hmem
  obtain ⟨u, hu, rfl⟩ := List.mem_map.1 htext
  have hspell := hs.spelled (ht.pending ▸ List.mem_append_left _ hu)
  exact hspell.newline_not_mem (hts u hu) hnl

theorem Eats.newline_mem_slice {nl : Token} {lo hi : Nat} (h : s.Eats nl t) (hs : s.Sound)
    (hnl : nl.tag = .newline) (hlo : s.source.IsBoundary lo) (hlo' : lo ≤ s.nextOffset)
    (hhi : s.source.IsBoundary hi) (hhi' : t.nextOffset ≤ hi) : '\n' ∈ s.source.slice lo hi := by
  have hle := h.took.nextOffset_le hs
  have hb : s.source.IsBoundary t.nextOffset := h.source ▸ h.sound.isBoundary_nextOffset
  have hspell := hs.spelled (t := nl) (by simp [h.pending])
  have hline := h.took.slice hs
  rw [Token.texts_cons, Token.texts_nil, hspell.newline hnl] at hline
  have hbefore := Source.before_eq_append_slice hlo hhi (by omega)
  rw [Source.before_eq_append_slice hb hhi hhi',
    Source.before_eq_append_slice hs.isBoundary_nextOffset hb hle,
    Source.before_eq_append_slice hlo hs.isBoundary_nextOffset hlo', hline, List.append_assoc,
    List.append_assoc] at hbefore
  rw [← List.append_cancel_left hbefore]
  simp

theorem Eats.slice_dash {bar : Token} {u : Lexer Cursor} (h : s.Eats bar t) (hs : s.Sound)
    (hbar : bar.tag = .pipe) (hu : t.Looks u) (hdash : (u.ahead 0).tag = .dash) :
    u.nextOffset = s.nextOffset + 1 ∧
      s.source.slice s.nextOffset (s.nextOffset + 2) = ['|', '-'] := by
  obtain ⟨-, hp⟩ := hu.sound.tag_ahead_zero.resolve_left fun h => by simp [h.1] at hdash
  have hps : s.pending = bar :: u.ahead 0 :: u.pending.tail := by rw [h.pending, ← hu.pending, ← hp]
  have hbart := (hs.spelled (t := bar) (by simp [hps])).text_of_char? (c := '|') (by rw [hbar]; rfl)
  have hdasht := (hs.spelled (t := u.ahead 0) (by simp [hps])).text_of_char? (c := '-')
    (by rw [hdash]; rfl)
  obtain ⟨hchars, hsize, -⟩ := hs.position
  refine ⟨?_, ?_⟩
  · rw [hu.nextOffset_eq h.sound, nextOffset_of_pending hs h.sound h.source h.took.pending,
      Token.texts_cons, Token.texts_nil, hbart]
    rfl
  · rw [hps, Token.texts_cons, Token.texts_cons, hbart, hdasht] at hchars
    have hslice := Text.slice_append_append s.consumed ['|', '-'] (Token.texts u.pending.tail)
    rw [Text.byteSize_append, hsize] at hslice
    rw [Source.slice, hchars, ← List.append_assoc ['|'], ← List.append_assoc]
    exact hslice

end Lexer

open Parse Rule

structure Origin.Supplied (p : ParagraphContext) (s : Lexer Cursor) : Prop extends s.Firm where
  full : p.mode ≠ .singleLine → (s.ahead 0).tag.endsLine = false
  bar : p.mode = .cellLine → (s.ahead 0).tag ≠ .pipe

def Origin.Paragraph (src : Source) (p : ParagraphContext) (b : Block) : Prop :=
  ∃ s t : Lexer Cursor, s.source = src ∧ Supplied p s ∧ paragraph p s = .ok b t

def Origin.Body (src : Source) (body : Nat → Parse (List Block)) (i : Nat) (bs : List Block) :
    Prop :=
  ∃ s t : Lexer Cursor, s.source = src ∧ s.Steady ∧ Rests (fun _ => True) i s ∧ body i s = .ok bs t

/-- No line that goes on with a sequence of indentation `i` announces what `takes` allows. -/
def Origin.Declines (level : Level) (i : Nat) (takes : Marker → Bool) (t : Lexer Cursor) : Prop :=
  ∀ measured u, lineStart level.ruler t = .ok (some measured) u → i ≤ measured →
    takes (announced level.room u) = false

namespace Origin

structure Follows (src : Source) (c : Block) (p : Nat) : Prop where
  behind : c.stop ≤ p
  beside : Text.OpensLine (src.before p) ∨ '\n' ∉ src.slice c.start p

def RuledOff (src : Source) (cells : List Block) (stop : Nat) : Prop :=
  ∃ c ∈ cells.getLast?, ∃ p, Follows src c p ∧ p + 2 ≤ stop ∧
    src.slice p (p + 2) = ['|', '-']

section

variable (src : Source) (level : Level) (body : Nat → Parse (List Block)) (i : Nat)

def Item (takes : Marker → Bool) (b : Block) : Prop :=
  ∃ (s : Lexer Cursor) (stop : Nat) (bs : List Block), s.source = src ∧ s.Sound ∧
    takes (announced level.room s) = true ∧
    b = .container ⟨s.nextOffset, stop, i⟩ .listItem bs ∧ Body src body (i + 1) bs

structure Items (takes : Nat → Marker → Bool) (items : List Block) (t : Lexer Cursor) : Prop where
  ne_nil : items ≠ []
  item : ∀ k b, items[k]? = some b → Item src level body i (takes k) b
  last : Declines level i (takes items.length) t

def Cell (b : Block) : Prop :=
  ∃ (start stop : Nat) (config : CellConfig) (line : Option Block) (bs : List Block),
    b = .container ⟨start, stop, i⟩ (.tableCell config) (line.toList ++ bs) ∧
    (∀ c ∈ line, Paragraph src ⟨level, i + 1, .cellLine⟩ c ∧ '\n' ∉ src.slice start c.start) ∧
    (∀ c ∈ bs, '\n' ∈ src.slice start c.start) ∧ (bs = [] ∨ Body src body (i + 1) bs)

def Row (b : Block) : Prop :=
  ∃ (start stop : Nat) (divider : Bool) (cells : List Block),
    b = .container ⟨start, stop, i⟩ (.tableRow divider) cells ∧ cells ≠ [] ∧
      (∀ c ∈ cells, Cell src level body i c) ∧ (divider = true → RuledOff src cells stop)

structure Rows (header : Bool) (rows : List Block) : Prop where
  row : ∀ b ∈ rows, Row src level body i b
  divided : ∀ b ∈ rows.dropLast, b.divided = true
  header : header = true → ∃ b ∈ rows.head?, b.divided = true

end

theorem Paragraph.exists_eq {src : Source} {p : ParagraphContext} {b : Block}
    (h : Paragraph src p b) : ∃ span cs, b = .paragraph span cs := by
  obtain ⟨s, t, -, -, hb⟩ := h
  have hends : Ends (fun _ => True) (paragraph p) s (fun b _ => ∃ span cs, b = .paragraph span cs)
      fun _ _ => True := by
    iterate 3 refine Ends.last fun _ _ => ?_
    exact Ends.pure ⟨_, _, rfl⟩
  exact hends.of_ok hb

/-- How a block came about that a line announced at `s`. -/
inductive Made (level : Level) (body : Nat → Parse (List Block)) (i : Nat) (s : Lexer Cursor) :
    Marker → Block → Lexer Cursor → Prop
  | header {size stop : Nat} {child : Block} {t : Lexer Cursor} :
      Paragraph s.source ⟨level, i, .singleLine⟩ child →
      Made level body i s (.header size) (.header ⟨s.nextOffset, stop, i⟩ size child) t
  | task {start stop : Nat} {task : Task} {bs : List Block} {t : Lexer Cursor} :
      Body s.source body (i + 1) bs →
      Made level body i s .task (.container ⟨start, stop, i⟩ (.task task) bs) t
  | list {start stop : Nat} {items : List Block} {t : Lexer Cursor} :
      Items s.source level body i (fun _ m => m = .list) items t →
      Made level body i s .list (.container ⟨start, stop, i⟩ .list items) t
  | ordered {first start stop : Nat} {items : List Block} {t : Lexer Cursor} :
      Items s.source level body i (fun count m => m = .ordered (first + count)) items t →
      Made level body i s (.ordered first) (.container ⟨start, stop, i⟩ (.orderedList first) items) t
  | table {start stop : Nat} {header : Bool} {rows : List Block} {t : Lexer Cursor} :
      Rows s.source level body i header rows →
      Made level body i s .table (.container ⟨start, stop, i⟩ (.table header) rows) t
  | separator {stop : Nat} {t : Lexer Cursor} :
      Made level body i s .separator (.separator ⟨s.nextOffset, stop, i⟩) t
  | raw {stop textStart textStop : Nat} {text : String} {t : Lexer Cursor} :
      Made level body i s .raw
        (.raw ⟨s.nextOffset, stop, i⟩ [.text ⟨textStart, textStop, i⟩ text]) t
  | paragraph {span : Span} {cs : List Inline} {t : Lexer Cursor} :
      Supplied ⟨level, i, .block⟩ s →
      Parse.paragraph ⟨level, i, .block⟩ s = .ok (.paragraph span cs) t →
      Made level body i s .paragraph (.paragraph span cs) t

end Origin

namespace Parse

open Origin

variable {src : Source} {s t u : Lexer Cursor} {level : Level} {ruler : Ruler} {i n size : Nat}
  {body : Nat → Parse (List Block)} {bs items cells : List Block} {b : Block} {marker : Marker}

theorem declines_of_measured {takes : Marker → Bool} {m : Nat} (hs : t.Sound)
    (hm : t.observer.lineIndent = some m) (hc : (t.ahead 0).tag.isContent = true)
    (h : i ≤ m → takes (announced level.room t) = false) : Declines level i takes t := by
  have he : t.atEof = false := Bool.eq_false_iff.2 fun he => by
    simp [Lexer.ahead_zero_of_nil (hs.pending_of_atEof he), Tag.isContent, Tag.endsLine] at hc
  have hline : Ends (fun _ => True) (lineStart level.ruler) t (fun r u => r = some m ∧ u = t)
      fun _ _ => True := ends_lineStart_of_measured hs he hm
  intro measured u hu hle
  obtain ⟨⟨⟩, rfl⟩ := hline.of_ok hu
  exact h hle

theorem ends_nextTurn_declines {α : Type} {F : Fault → Prop} {takes : Marker → Bool} {a : α}
    (hs : s.Steady) (h : Closed F (i + 1) s) :
    Ends (fun _ => True) (nextTurn level i takes a) s (fun turn t => turn.Gives
      (fun b => b = a ∧ Declines level i takes t)
      fun b => b = a ∧ takes (announced level.room t) = true) fun _ _ => True := by
  obtain ⟨r, hfound, hr⟩ := h
  cases hfound with
  | ended hp he _ =>
    have hnone : Ends (fun _ => True) (lineStart level.ruler) s (fun r t => r = none ∧ t = s)
        fun _ _ => True := ends_lineStart_of_atEof hs.sound he
    refine Ends.seq hnone ?_
    rintro _ t ⟨rfl, rfl⟩
    refine Ends.pure ⟨rfl, fun measured u hu => ?_⟩
    simpa using (hnone.of_ok hu).1
  | @line m _ hm hc _ _ =>
    have hlt := hr m rfl
    have he : s.atEof = false := Bool.eq_false_iff.2 fun he => by
      simp [Lexer.ahead_zero_of_nil (hs.sound.pending_of_atEof he), Tag.isContent, Tag.endsLine]
        at hc
    refine Ends.seq (ends_lineStart_of_measured hs.sound he hm) ?_
    rintro _ t ⟨rfl, rfl⟩
    dsimp only
    split
    · next hne =>
      exact Ends.pure ⟨rfl, declines_of_measured hs.sound hm hc fun hle => by omega⟩
    · refine Ends.seq (ends_announced hs.sound (t.spare_true 0) (by decide)) ?_
      rintro _ u ⟨hu, -, rfl⟩
      refine Ends.pure ?_
      split
      · next htakes => exact ⟨rfl, by rwa [announced_looks hu]⟩
      · next htakes =>
        refine ⟨rfl, declines_of_measured hu.sound (by rw [hu.observer, hm])
          (by rw [hu.ahead, hc]) fun _ => ?_⟩
        rw [announced_looks hu]
        simpa using htakes

theorem ends_bodied_origin {kind : Container} {start : Nat} (hs : s.Firm) (hsrc : s.source = src)
    (hlast : s.observer.lastEnd = s.nextOffset) :
    Ends (fun _ => True) (bodied body i start kind) s (fun b _ => ∃ stop bs,
      b = .container ⟨start, stop, i⟩ kind bs ∧ Body src body (i + 1) bs) fun _ _ => True := by
  refine Ends.seq (ends_enterBody hs hlast (s.spare_true _)) ?_
  rintro - t ⟨hst, ht, -, hrests⟩
  refine Ends.seq Ends.any.self ?_
  rintro children u ⟨-, hchildren⟩
  exact Ends.last fun stop v => Ends.pure
    ⟨stop, children, rfl, t, u, hst.source.trans hsrc, ht, hrests, hchildren⟩

theorem ends_listItem_origin {takes : Marker → Bool} (hs : s.Firm) (hsrc : s.source = src)
    (htakes : takes (announced level.room s) = true)
    (hn : (announced level.room s).heads.length = n) (hpos : 0 < n) :
    Ends (fun _ => True) (listItem body n i) s (fun b _ => Item src level body i takes b)
      fun _ _ => True := by
  refine Ends.bind (Ends.peek (.refl hs.sound) (by decide) (s.spare_true 0) (by decide)
    fun t ht _ _ => ?_)
  rw [hs.sound.start_ahead]
  have ha := (announces_announced hs.sound level.room).1
  refine Ends.seq (ends_marker ha ht (t.spare_true 0) (by decide) hn hpos) ?_
  rintro - u ⟨hu, -⟩
  refine (ends_bodied_origin (hu.firm hs) (hu.source.trans hsrc)
    (hu.lastEnd_eq hs.toSteady)).imp ?_
  rintro b v ⟨stop, bs, rfl, hbs⟩
  exact ⟨s, stop, bs, hsrc, hs.sound, htakes, rfl, hbs⟩

theorem ends_eatLine_lt (hs : s.Firm) (hends : (s.ahead 0).tag.endsLine = false) :
    Ends (fun _ => True) (eatLine : Parse Unit) s (fun _ t => s.nextOffset < t.observer.lastEnd)
      fun _ _ => True := by
  obtain ⟨-, hp⟩ := hs.sound.tag_ahead_zero.resolve_left fun h => by simp [h.1, Tag.endsLine] at hends
  refine (Ends.eatLine hs.sound (s.spare_true 0) (by decide)).imp ?_
  rintro - t ⟨u, hu, -, ht⟩
  have hne : s.pending.takeWhile (fun v => !(v.tag == .newline)) ≠ [] := by
    rw [hp, List.takeWhile_cons_of_pos]
    · exact List.cons_ne_nil _ _
    · simpa using fun hnl : (s.ahead 0).tag = .newline => by simp [hnl, Tag.endsLine] at hends
  have hlt := hs.toSteady.nextOffset_lt hu hne
  have hsu : s.Scans u := .of_takeWhile hu fun v hv => by simpa using hv
  have hfu := hsu.firm hs
  rcases ht with ⟨ht, -⟩ | ⟨nl, -, ht⟩
  · exact Nat.lt_of_lt_of_le hlt ht.onward.lastEnd_le
  · exact Nat.lt_of_lt_of_le hlt (hfu.toSteady.onward ht.took).lastEnd_le

structure Held (src : Source) (level : Level) (body : Nat → Parse (List Block)) (i : Nat)
    (st : TableState) : Prop where
  rows : ∀ b ∈ st.rows, Origin.Row src level body i b ∧ b.divided = true
  cells : ∀ c ∈ st.cells, Cell src level body i c
  header : st.header = true → st.rows ≠ []

theorem ends_tableRow_origin {st : TableState} {divider : Bool} (hst : Held src level body i st)
    (hne : st.cells ≠ [])
    (hruled : divider = true → RuledOff src st.cells s.observer.lastEnd) :
    Ends (fun _ => True) (tableRow i st divider) s
      (fun b _ => Origin.Row src level body i b ∧ b.divided = divider) fun _ _ => True := by
  refine Ends.seq ends_endCovering_le ?_
  rintro stop t ⟨-, hle⟩
  refine Ends.pure ⟨⟨_, stop, divider, st.cells, rfl, hne, hst.cells, fun hdivider => ?_⟩, rfl⟩
  obtain ⟨c, hc, p, hp, hstop, hdash⟩ := hruled hdivider
  exact ⟨c, hc, p, hp, Nat.le_trans hstop hle, hdash⟩

theorem ends_tableLineEnd_origin (st : TableState) (hst : Held src level body i st)
    (line : TableLine)
    (hruled : line = .divider → st.cells ≠ [] → RuledOff src st.cells s.observer.lastEnd) :
    Ends (fun _ => True) (tableLineEnd i st line) s (fun st _ => Held src level body i st)
      fun _ _ => True := by
  cases line with
  | cells nested => exact Ends.pure ⟨hst.rows, hst.cells, hst.header⟩
  | divider =>
    dsimp only [tableLineEnd]
    split
    · exact Ends.pure ⟨hst.rows, hst.cells, hst.header⟩
    · next hne =>
      have hne : st.cells ≠ [] := by simpa using hne
      refine Ends.seq (ends_tableRow_origin hst hne fun _ => hruled rfl hne) fun row t hrow =>
        Ends.pure ⟨fun b hb => ?_, by simp, by simp⟩
      rcases List.mem_append.1 hb with hb | hb
      · exact hst.rows b hb
      · rwa [List.mem_singleton.1 hb]

theorem ends_tableRows_origin {st : TableState} (hst : Held src level body i st) :
    Ends (fun _ => True) (tableRows i st) s (fun rows _ => Rows src level body i st.header rows)
      fun _ _ => True := by
  have hhead (rest : List Block) (h : st.header = true) :
      ∃ b ∈ (st.rows ++ rest).head?, b.divided = true := by
    obtain ⟨row, rows, hrows⟩ := List.exists_cons_of_ne_nil (hst.header h)
    exact ⟨row, by simp [hrows], (hst.rows row (by simp [hrows])).2⟩
  unfold tableRows
  split
  · exact Ends.pure ⟨fun b hb => (hst.rows b hb).1,
      fun b hb => (hst.rows b (List.dropLast_subset _ hb)).2, fun h => by simpa using hhead [] h⟩
  · next hne =>
    refine Ends.seq (ends_tableRow_origin hst (by simpa using hne) (by simp)) fun row t hrow =>
      Ends.pure ⟨fun b hb => ?_, fun b hb => ?_, hhead _⟩
    · rcases List.mem_append.1 hb with hb | hb
      · exact (hst.rows b hb).1
      · rw [List.mem_singleton.1 hb]
        exact hrow.1
    · rw [List.dropLast_concat] at hb
      exact (hst.rows b hb).2

section

variable (hbody : Bodied (fun _ => True) level.ruler body)

include hbody

theorem ends_itemTurn_origin {takes : Nat → Marker → Bool} (hs : s.Steady) (hsrc : s.source = src)
    (hcontent : (s.ahead 0).tag.isContent = true)
    (htakes : takes items.length (announced level.room s) = true)
    (hn : (announced level.room s).heads.length = n) (hpos : 0 < n)
    (hitems : ∀ k b, items[k]? = some b → Item src level body i (takes k) b) :
    Ends (fun _ => True) (itemTurn level body n i takes items) s (fun turn t => turn.Gives
      (fun items => Items src level body i takes items t)
      fun items => (∀ k b, items[k]? = some b → Item src level body i (takes k) b) ∧
        takes items.length (announced level.room t) = true) fun _ _ => True := by
  have hfirm := hs.firm (Tag.isContent_iff.1 hcontent).1
  have ha := (announces_announced hs.sound level.room).1
  refine Ends.seq ((ends_listItem_origin hfirm hsrc htakes hn hpos).also
    (ends_listItem (E := fun _ _ => True) (excused_true _) hbody hfirm ha hn hpos
      (s.spare_true _))) ?_
  rintro item t ⟨hitem, -, ht, hclosed, -⟩
  have hall : ∀ k b, (items ++ [item])[k]? = some b → Item src level body i (takes k) b := by
    intro k b hk
    rcases Nat.lt_trichotomy k items.length with hlt | rfl | hgt
    · exact hitems k b (by rwa [List.getElem?_append_left hlt] at hk)
    · obtain rfl : item = b := by simpa using hk
      exact hitem
    · rw [List.getElem?_eq_none (by simp; omega)] at hk
      simp at hk
  refine (ends_nextTurn_declines ht hclosed).imp fun turn u hturn => ?_
  cases turn with
  | done items =>
    obtain ⟨rfl, hdeclines⟩ := hturn
    exact ⟨by simp, hall, hdeclines⟩
  | again items =>
    obtain ⟨rfl, htakes⟩ := hturn
    exact ⟨hall, htakes⟩

theorem ends_listItems_origin {takes : Nat → Marker → Bool} {kind : Container} (hs : s.Steady)
    (hsrc : s.source = src) (hcontent : (s.ahead 0).tag.isContent = true)
    (htakes : takes 0 (announced level.room s) = true)
    (hheads : ∀ count m, takes count m = true → m.heads.length = n) (hpos : 0 < n) :
    Ends (fun _ => True) (listItems level body n i takes kind) s (fun b t => ∃ start stop items,
      b = .container ⟨start, stop, i⟩ kind items ∧ Items src level body i takes items t)
      fun _ _ => True := by
  refine Ends.bind (Ends.peek (.refl hs.sound) (by decide) (s.spare_true 0) (by decide)
    fun t ht _ _ => ?_)
  have hlisted : Listed s [] t := ⟨ht.onward, hs.looks ht, .nil (Nat.le_max_left ..)⟩
  have hmarked : Marked (fun _ => True) n t :=
    ⟨by rw [ht.ahead, hcontent], ⟨_, (announces_announced hs.sound level.room).1.looks ht,
      hheads _ _ htakes⟩, t.spare_true _⟩
  refine Ends.seq (Q := fun items u => Items src level body i takes items u)
    (Ends.loop_true (fun items u => (Listed s items u ∧ Marked (fun _ => True) n u) ∧
      (∀ k b, items[k]? = some b → Item src level body i (takes k) b) ∧
      takes items.length (announced level.room u) = true)
      ⟨⟨hlisted, hmarked⟩, by simp, by rwa [announced_looks ht]⟩ ?_) ?_
  · rintro items u ⟨⟨hlisted, hmarked⟩, hitems, htakes⟩
    refine ((ends_itemTurn_origin hbody hlisted.steady (hlisted.source.trans hsrc) hmarked.content
      htakes (hheads _ _ htakes) hpos hitems).also (ends_itemTurn (E := fun _ _ => True)
        (excused_true _) hbody hs.sound hheads hpos hlisted hmarked)).imp ?_
    rintro turn v ⟨hturn, hstate⟩
    cases turn with
    | done items => exact hturn
    | again items => exact ⟨hstate.1, hturn⟩
  · intro items u hitems
    -- The end of the last item is read off without a step.
    refine Ends.bind (Ends.bind (Ends.endFrom (Ends.pure (Ends.pure ⟨_, _, items, rfl, hitems⟩))))

def CellsKnown (src : Source) (level : Level) (body : Nat → Parse (List Block)) (i : Nat)
    (turn : Turn (List Block × TableLine) (List Block)) (t : Lexer Cursor) : Prop :=
  turn.Gives (fun r => (∀ b ∈ r.1, Cell src level body i b) ∧
      (r.2 = .divider → r.1 ≠ [] → RuledOff src r.1 t.observer.lastEnd))
    fun cells => (∀ b ∈ cells, Cell src level body i b) ∧
      ∀ c ∈ cells.getLast?, '\n' ∉ src.slice c.start t.nextOffset

theorem ends_cellEnd_origin {bar : Token} {config : CellConfig} (line : Option Block)
    (hs : s.Firm) (hsrc : s.source = src) (hb : src.IsBoundary bar.start)
    (hle : bar.start ≤ s.nextOffset) (hscans : '\n' ∉ src.slice bar.start s.nextOffset)
    (hcells : ∀ b ∈ cells, Cell src level body i b)
    (hline : ∀ b ∈ line, Origin.Paragraph src ⟨level, i + 1, .cellLine⟩ b ∧
      '\n' ∉ src.slice bar.start b.start) :
    Ends (fun _ => True) (cellEnd body i cells bar config line.toList) s
      (CellsKnown src level body i) fun _ _ => True := by
  have hcell (bs : List Block) (t : Lexer Cursor) (hbs : bs = [] ∨ Body src body (i + 1) bs)
      (hbreak : ∀ c ∈ bs, '\n' ∈ src.slice bar.start c.start) :
      Ends (fun _ => True) (cell bar i config (line.toList ++ bs)) t
        (fun b u => (∀ c ∈ cells ++ [b], Cell src level body i c) ∧ b.start = bar.start ∧ u = t)
        fun _ _ => True := by
    refine Ends.seq ends_endCovering_le ?_
    rintro stop u ⟨rfl, -⟩
    refine Ends.pure ⟨fun c hc => ?_, rfl, rfl⟩
    rcases List.mem_append.1 hc with hc | hc
    · exact hcells c hc
    · obtain rfl := List.mem_singleton.1 hc
      exact ⟨_, _, config, line, bs, rfl, hline, hbreak, hbs⟩
  have hplain (t : Lexer Cursor) := hcell [] t (.inl rfl) (by simp)
  rw [List.append_nil] at hplain
  refine Ends.bind (Ends.peekTag (.refl hs.sound) (by decide) (s.spare_true 0) (by decide)
    fun t ht _ _ => ?_)
  split
  · refine Ends.seq (hplain t) ?_
    rintro b _ ⟨hall, hstart, rfl⟩
    refine Ends.pure ⟨hall, fun c hc => ?_⟩
    obtain rfl : b = c := by simpa using hc
    rwa [hstart, ht.nextOffset_eq hs.sound]
  · next hnl =>
    obtain ⟨-, hp⟩ := hs.sound.tag_ahead_zero.resolve_left fun h => by simp [h.1] at hnl
    refine Ends.bind (Ends.eat ht (t.spare_true 0) (by decide) hp fun u hu _ hku => ?_)
    obtain ⟨-, hsteady, -, hrests⟩ := rests_newline hs hu hnl hku
    have hsrcu := hu.source.trans hsrc
    refine Ends.seq (hbody (fun _ _ => True) (i + 1) u (excused_true _) hsteady (hrests _)).self ?_
    rintro blocks v ⟨hv, hblocks⟩
    refine Ends.seq (hcell blocks v (.inr ⟨u, v, hsrcu, hsteady, hrests _, hblocks⟩) fun c hc => ?_)
      fun b _ h => Ends.pure ⟨h.1, by simp⟩
    have hfit := (hv.row.fits c hc).tidy.start
    rw [hsrcu] at hfit
    rw [← hsrc] at hb hfit ⊢
    exact hu.newline_mem_slice hs.sound hnl hb hle hfit (hv.row.le_start hc)
  · exact Ends.seq (hplain t) fun b _ h => Ends.pure ⟨h.1, by simp⟩

theorem cases_cellsKnown {bar : Token} {rest : List Token} (hs : s.Firm) (hsrc : s.source = src)
    (hp : s.pending = bar :: rest) (hbar : bar.tag = .pipe)
    (hcells : ∀ b ∈ cells, Cell src level body i b)
    (hlast : ∀ c ∈ cells.getLast?, Follows src c s.nextOffset) :
    CellCases (fun _ => True) (fun _ _ => True) level body i cells bar s
      (CellsKnown src level body i) := by
  have hstart := hs.sound.start_of_cons hp
  have hb : src.IsBoundary bar.start := by
    rw [hstart, ← hsrc]
    exact hs.sound.isBoundary_nextOffset
  -- Since the bar no line has ended.
  have hslice {t : Lexer Cursor} (ht : s.Scans t) : '\n' ∉ src.slice bar.start t.nextOffset := by
    rw [hstart, ← hsrc]
    exact ht.newline_not_mem_slice hs.sound
  constructor
  case divider =>
    intro t u ht hu _ hdash
    have hsu := (ht.reads (by simp [hbar])).looks hu
    refine (ends_eatLine_lt (hsu.firm hs) (by simp [hdash, Tag.endsLine])).imp ?_
    rintro - v hlt
    refine ⟨hcells, fun _ hne => ?_⟩
    have hmem := List.getLast?_eq_some_getLast hne
    obtain ⟨hnext, hruled⟩ := ht.slice_dash hs.sound hbar hu hdash
    rw [hsrc] at hruled
    exact ⟨_, hmem, _, hlast _ hmem, by omega, hruled⟩
  case filled =>
    intro config t hst hkt hline hpipe
    have hft := hst.firm hs
    have hsrct := hst.source.trans hsrc
    have hle := (hst.onward hs.toSteady).nextOffset_le hs.sound hst.sound
    have hsupplied : Supplied ⟨level, i + 1, .cellLine⟩ t := ⟨hft, fun _ => hline, fun _ => hpipe⟩
    refine (ends_paragraph (p := ⟨level, i + 1, .cellLine⟩) (E := fun _ _ => True)
      (excused_true _) hft hkt).self.imp ?_
    rintro child u ⟨hu, hchild⟩
    have hle' := hu.toOnward.nextOffset_le hst.sound hu.firm.sound
    refine ends_cellEnd_origin hbody (some child) hu.firm (hu.source.trans hsrct) hb (by omega)
      (hslice (hst.scans.trans (hu.scans (by simp)))) hcells ?_
    rintro _ ⟨⟩
    refine ⟨⟨t, u, hsrct, hsupplied, hchild⟩, ?_⟩
    rw [hu.start]
    exact hslice hst.scans
  case empty =>
    intro config t hst _ _
    have hle := (hst.onward hs.toSteady).nextOffset_le hs.sound hst.sound
    exact ends_cellEnd_origin hbody none (hst.firm hs) (hst.source.trans hsrc) hb (by omega)
      (hslice hst.scans) hcells (by simp)

theorem ends_cellTurn_origin (hs : s.Firm) (hsrc : s.source = src)
    (hbar : (s.ahead 0).tag = .pipe) (hcells : ∀ b ∈ cells, Cell src level body i b)
    (hlast : ∀ c ∈ cells.getLast?, Follows src c s.nextOffset) :
    Ends (fun _ => True) (cellTurn level body i cells) s (CellsKnown src level body i)
      fun _ _ => True := by
  obtain ⟨-, hp⟩ := hs.sound.tag_ahead_zero.resolve_left fun h => by simp [h.1] at hbar
  exact ends_cellTurn_of_cases hs.sound hp hbar (s.spare_true 0) (by decide)
    (cases_cellsKnown hbody hs hsrc hp hbar hcells hlast)

theorem ends_tableLine_origin (lo : Nat) (hs : s.Firm) (hsrc : s.source = src)
    (hbar : (s.ahead 0).tag = .pipe) (hlo : lo ≤ s.nextOffset)
    (hrow : Siblings s.source lo (max lo s.observer.lastEnd) cells)
    (hcells : ∀ b ∈ cells, Cell src level body i b)
    (hopen : cells ≠ [] → Text.OpensLine (src.before s.nextOffset)) :
    Ends (fun _ => True) (tableLine level body i cells) s
      (fun r t => (∀ b ∈ r.1, Cell src level body i b) ∧
        (r.2 = .divider → r.1 ≠ [] → RuledOff src r.1 t.observer.lastEnd)) fun _ _ => True := by
  refine Ends.loop_true (fun cells t => Barred (fun _ => True) lo s cells t ∧
    (∀ b ∈ cells, Cell src level body i b) ∧ ∀ c ∈ cells.getLast?,
      Text.OpensLine (src.before t.nextOffset) ∨ '\n' ∉ src.slice c.start t.nextOffset)
    ⟨⟨.refl s, hs, hbar, hrow, s.spare_true _⟩, hcells, fun c hc =>
      .inl (hopen (List.ne_nil_of_mem (List.mem_of_mem_getLast? hc)))⟩ ?_
  rintro cells t ⟨ht, hcells, hbeside⟩
  have hlast : ∀ c ∈ cells.getLast?, Follows src c t.nextOffset := by
    intro c hc
    have hstop := ht.row.stop_le c (List.mem_of_mem_getLast? hc)
    have hle := ht.firm.lastEnd_le
    have hle' := ht.toOnward.nextOffset_le hs.sound ht.firm.sound
    refine ⟨?_, hbeside c hc⟩
    show c.span.stop ≤ _
    omega
  refine ((ends_cellTurn_origin hbody ht.firm (ht.source.trans hsrc) ht.bar hcells hlast).also
    (ends_cellTurn (F := fun _ => True) (E := fun _ _ => True) (excused_true _) hbody hs.sound hlo
      ht)).imp ?_
  rintro turn u ⟨hturn, hstate⟩
  cases turn with
  | done r => exact hturn
  | again cells => exact ⟨hstate.1, hturn.1, fun c hc => .inr (hturn.2 c hc)⟩

theorem ends_tableStep_origin {st : TableState} {lo : Nat} (hs : s.Firm) (hsrc : s.source = src)
    (hbar : (s.ahead 0).tag = .pipe) (hstacked : Stacked s.source lo s.observer.lastEnd st)
    (hst : Held src level body i st)
    (hopen : st.cells ≠ [] → Text.OpensLine (src.before s.nextOffset)) :
    Ends (fun _ => True) (tableStep level body i st) s (fun st _ => Held src level body i st)
      fun _ _ => True := by
  have hfrom (rowStart : Nat) {t : Lexer Cursor} (ht : t.Firm) (hsrc : t.source = src)
      (hbar : (t.ahead 0).tag = .pipe) (hle : rowStart ≤ t.nextOffset)
      (hrow : Siblings t.source rowStart (max rowStart t.observer.lastEnd) st.cells)
      (hopen : st.cells ≠ [] → Text.OpensLine (src.before t.nextOffset)) :
      Ends (fun _ => True) (tableStepFrom level body i st rowStart) t
        (fun st _ => Held src level body i st) fun _ _ => True := by
    refine Ends.seq (ends_tableLine_origin hbody rowStart ht hsrc hbar hle hrow hst.cells hopen) ?_
    rintro ⟨cells, line⟩ u ⟨hcells, hruled⟩
    exact ends_tableLineEnd_origin { st with cells, rowStart } ⟨hst.rows, hcells, hst.header⟩ line
      hruled
  obtain ⟨mid, -, -, hcells⟩ := hstacked
  have hlast := hs.lastEnd_le
  unfold tableStep
  split
  · next hnil =>
    refine Ends.bind (Ends.peek (.refl hs.sound) (by decide) (s.spare_true 0) (by decide)
      fun t ht _ _ => ?_)
    rw [hs.sound.start_ahead]
    refine hfrom _ (hs.looks ht) (ht.source.trans hsrc) (by rw [ht.ahead, hbar])
      (Nat.le_of_eq (ht.nextOffset_eq hs.sound).symm) ?_ ?_
    · rw [show st.cells = [] by simpa using hnil]
      exact .nil (Nat.le_max_left ..)
    · rwa [ht.nextOffset_eq hs.sound]
  · next hne =>
    obtain ⟨-, -, hle, hrow⟩ := hcells (by simpa using hne)
    exact hfrom _ hs hsrc hbar (by omega) (hrow.mono (Nat.le_max_right ..)) hopen

theorem ends_table_origin (hs : s.Steady) (hsrc : s.source = src)
    (hbar : (s.ahead 0).tag = .pipe) :
    Ends (fun _ => True) (table level body i) s (fun b _ => ∃ start stop header rows,
      b = .container ⟨start, stop, i⟩ (.table header) rows ∧ Rows src level body i header rows)
      fun _ _ => True := by
  refine Ends.bind (Ends.peek (.refl hs.sound) (by decide) (s.spare_true 0) (by decide)
    fun t ht _ _ => ?_)
  rw [hs.sound.start_ahead]
  have htabled : Tabled s { rowStart := s.nextOffset } t :=
    ⟨ht.onward, hs.looks ht, s.nextOffset, by omega, .nil (Nat.le_refl _), fun h => absurd rfl h⟩
  refine Ends.seq (Q := fun st _ => Held src level body i st) (Ends.loop_true (fun st u =>
    (Tabled s st u ∧ (u.ahead 0).tag = .pipe ∧ u.Spare (fun _ => True) 25) ∧
      Held src level body i st ∧ (st.cells ≠ [] → Text.OpensLine (src.before u.nextOffset)))
    ⟨⟨htabled, by rw [ht.ahead, hbar], t.spare_true _⟩, ⟨by simp, by simp, by simp⟩, by simp⟩ ?_) ?_
  · rintro st u ⟨⟨hu, hbar, hk⟩, hst, hopen⟩
    have hstacked := hu.stacked
    have hle := hu.toOnward.nextOffset_le hs.sound hu.steady.sound
    have hfirm := hu.steady.firm (by rw [hbar]; rfl)
    have hsrcu := hu.source.trans hsrc
    rw [← hu.source] at hstacked
    have hturn : Ends (fun _ => True) (tableTurn level body i st) u (fun turn v => turn.Gives
        (fun st => Held src level body i st)
        fun st => Held src level body i st ∧ Text.OpensLine (src.before v.nextOffset))
        fun _ _ => True := by
      refine Ends.seq ((ends_tableStep_origin hbody hfirm hsrcu hbar hstacked hst hopen).also
        (ends_tableStep (E := fun _ _ => True) (excused_true _) hbody hfirm hbar (u.spare_true _) hle
          hstacked)) ?_
      rintro st v ⟨hst, hv⟩
      refine (ends_nextTurn (excused_true _) hv.steady hv.rests).imp ?_
      rintro turn w ⟨⟨hvw, hw⟩, hturn⟩
      cases turn with
      | done st' =>
        obtain ⟨rfl, -⟩ := hturn
        exact hst
      | again st' =>
        obtain ⟨rfl, hannounced⟩ := hturn
        have hlt := hv.lt
        have hlast := hvw.lastEnd
        have hopens := (hv.settled.skips hvw).opensLine hw (by omega) hannounced.content
        rw [Lexer.consumed, hvw.source, hv.source, hsrcu] at hopens
        exact ⟨hst, hopens⟩
    refine (hturn.also (ends_tableTurn (F := fun _ => True) (E := fun _ _ => True)
      (excused_true _) hbody hs.sound hu hbar hk)).imp ?_
    rintro turn v ⟨hturn, hstate⟩
    cases turn with
    | done st => exact hturn
    | again st => exact ⟨hstate.1, hturn.1, fun _ => hturn.2⟩
  · intro st u hst
    exact Ends.seq (ends_tableRows_origin hst) fun rows v hrows =>
      Ends.last fun stop w => Ends.pure ⟨_, stop, _, rows, rfl, hrows⟩

end

theorem ends_header_origin (hs : s.Firm) (hsrc : s.source = src)
    (ha : Announces s (.header size)) :
    Ends (fun _ => True) (header level size i) s (fun b _ => ∃ stop child,
      b = .header ⟨s.nextOffset, stop, i⟩ size child ∧
        Origin.Paragraph src ⟨level, i, .singleLine⟩ child) fun _ _ => True := by
  refine Ends.bind (Ends.peek (.refl hs.sound) (by decide) (s.spare_true 0) (by decide)
    fun t ht _ _ => ?_)
  rw [hs.sound.start_ahead]
  refine Ends.seq (ends_marker ha ht (t.spare_true 0) (by decide) (by simp [Marker.heads])
    (ha.pos size rfl)) ?_
  rintro - u ⟨hu, -⟩
  refine Ends.seq (Ends.eatInlineSpace hu.sound (u.spare_true 0) (by decide)) ?_
  rintro - v ⟨hv, -, -⟩
  have hsv : s.Reads v := hu.scan (.of_takeWhile hv fun _ => Tag.ne_newline_of_isInlineSpace)
  refine Ends.seq Ends.any.self ?_
  rintro child w ⟨-, hchild⟩
  have hparagraph : Origin.Paragraph src ⟨level, i, .singleLine⟩ child :=
    ⟨v, w, hsv.source.trans hsrc, ⟨hsv.firm hs, by simp, by simp⟩, hchild⟩
  exact Ends.last fun _ _ => Ends.last fun _ _ => Ends.pure ⟨_, child, rfl, hparagraph⟩

theorem ends_task_origin (hs : s.Firm) (hsrc : s.source = src) (ha : Announces s .task) :
    Ends (fun _ => True) (task body i) s (fun b _ => ∃ start stop task bs,
      b = .container ⟨start, stop, i⟩ (.task task) bs ∧ Body src body (i + 1) bs)
      fun _ _ => True := by
  obtain ⟨hp, htag⟩ := ha.cons rfl
  refine Ends.bind (Ends.eat (.refl hs.sound) (s.spare_true 0) (by decide) hp
    fun t ht _ _ => ?_)
  have hst := ht.reads (by simp [htag])
  refine Ends.seq (ends_directives hst.sound (t.spare_true _)) ?_
  rintro task u ⟨-, hu, -⟩
  have hsu := hst.scan hu
  refine (ends_bodied_origin (hsu.firm hs) (hsu.source.trans hsrc)
    (hsu.lastEnd_eq hs.toSteady)).imp ?_
  rintro b v ⟨stop, bs, rfl, hbs⟩
  exact ⟨_, stop, task, bs, rfl, hbs⟩

theorem ends_block_made (hbody : level.room ≠ 0 → Bodied (fun _ => True) level.ruler body)
    (hs : s.Steady) (hcontent : (s.ahead 0).tag.isContent = true)
    (hm : announced level.room s = marker) :
    Ends (fun _ => True) (block level body i marker) s
      (fun b t => Made level body i s marker b t) fun _ _ => True := by
  have hfirm := hs.firm (Tag.isContent_iff.1 hcontent).1
  obtain ⟨ha, hopens⟩ := announces_announced hs.sound level.room
  rw [hm] at ha hopens
  cases marker with
  | header size =>
    refine (ends_header_origin hfirm rfl ha).imp ?_
    rintro b t ⟨stop, child, rfl, hchild⟩
    exact .header hchild
  | task =>
    refine (ends_task_origin hfirm rfl ha).imp ?_
    rintro b t ⟨start, stop, task, bs, rfl, hbs⟩
    exact .task hbs
  | list =>
    refine (ends_listItems_origin (hbody (hopens rfl)) hs rfl hcontent (by simp [hm])
      (fun count m hm => ?_) Nat.one_pos).imp ?_
    · rw [of_decide_eq_true hm]
      rfl
    · rintro b t ⟨start, stop, items, rfl, hitems⟩
      exact .list hitems
  | ordered first =>
    refine (ends_listItems_origin (hbody (hopens rfl)) hs rfl hcontent (by simp [hm])
      (fun count m hm => ?_) Nat.two_pos).imp ?_
    · rw [of_decide_eq_true hm]
      rfl
    · rintro b t ⟨start, stop, items, rfl, hitems⟩
      exact .ordered hitems
  | table =>
    refine (ends_table_origin (hbody (hopens rfl)) hs rfl (ha.cons rfl).2).imp ?_
    rintro b t ⟨start, stop, header, rows, rfl, hrows⟩
    exact .table hrows
  | separator =>
    refine Ends.bind (Ends.peek (.refl hs.sound) (by decide) (s.spare_true 0) (by decide)
      fun t _ _ _ => ?_)
    rw [hs.sound.start_ahead]
    iterate 4 refine Ends.last fun _ _ => ?_
    exact Ends.pure .separator
  | raw =>
    refine Ends.bind (Ends.eat (.refl hs.sound) (s.spare_true 0) (by decide) (ha.cons rfl).1
      fun t _ _ _ => ?_)
    rw [hs.sound.start_ahead]
    iterate 5 refine Ends.last fun _ _ => ?_
    exact Ends.pure .raw
  | paragraph =>
    have hsupplied : Supplied ⟨level, i, .block⟩ s :=
      ⟨hfirm, fun _ => (Tag.isContent_iff.1 hcontent).2, by simp⟩
    refine Ends.any.self.imp ?_
    rintro b t ⟨-, hb⟩
    obtain ⟨span, cs, rfl⟩ := Origin.Paragraph.exists_eq ⟨s, t, rfl, hsupplied, hb⟩
    exact .paragraph hsupplied hb

theorem Opens.made {F : Fault → Prop}
    (hbody : level.room ≠ 0 → Bodied (fun _ => True) level.ruler body)
    (h : Opens F level body i s u b t) :
    ∃ v, u.Took [] v ∧ v.Steady ∧ Made level body i v (announced level.room u) b t := by
  have hends : Ends (fun _ => True) (Parse.opened level body i) u (fun b t => ∃ v, u.Took [] v ∧
      v.Steady ∧ Made level body i v (announced level.room u) b t) fun _ _ => True := by
    refine Ends.seq (ends_announced h.steady.sound (u.spare_true 0) (by decide)) ?_
    rintro marker v ⟨hv, -, rfl⟩
    have htook := hv.took.trans (hv.sound.noting (.block (announced level.room u) i))
    have hsteady := h.steady.took_nil htook
    refine Ends.bind (Ends.record ((ends_block_made hbody hsteady ?_ ?_).imp fun b t hb =>
      ⟨_, htook, hsteady, hb⟩))
    · rw [Lexer.ahead_onCursor, hv.ahead, h.content]
    · exact announced_congr hv.pending hv.source level.room
  exact hends.of_ok h.opened

theorem Opens.drops {F : Fault → Prop}
    (hbody : level.room ≠ 0 → Bodied (fun _ => True) level.ruler body)
    (h : Opens F level body i s u b t) :
    (∀ span, b ≠ .separator span) ∨ announced level.room u = .separator ∧ Drops i u b t := by
  by_cases hm : announced level.room u = .separator
  · exact .inr ⟨hm, h.drops_of_announced hm⟩
  · obtain ⟨v, -, -, hmade⟩ := h.made hbody
    refine .inl ?_
    rintro span rfl
    generalize announced level.room u = marker at hm hmade
    cases hmade
    exact hm rfl

end Parse

end TaskMarkup
