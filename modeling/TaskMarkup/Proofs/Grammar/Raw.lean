import TaskMarkup.Proofs.Grammar.Outline
import TaskMarkup.Proofs.Lexer.Facing

namespace TaskMarkup

namespace Text

def indented (width : Nat) : List Char → List Char
  | [] => []
  | c :: cs => List.replicate width ' ' ++ c :: cs

def below (lines : List (List Char)) : List Char := lines.flatMap ('\n' :: ·)

/-- A line that is indented by spaces alone, with something behind them. -/
structure Spaced (line : List Char) : Prop where
  newline : '\n' ∉ line
  content : ∃ c ∈ line, c ≠ ' ' ∧ c ≠ '\t'
  tab : '\t' ∉ line.takeWhile isInlineSpace

structure IsContent (c : Char) : Prop where
  space : isInlineSpace c = false
  newline : c ≠ '\n'

theorem Spaced.exists_lead {line : List Char} (h : Spaced line) : ∃ n c cs,
    line = List.replicate n ' ' ++ c :: cs ∧ IsContent c ∧ '\n' ∉ c :: cs := by
  have hlead : line.takeWhile isInlineSpace =
      List.replicate (line.takeWhile isInlineSpace).length ' ' := by
    refine List.eq_replicate_iff.2 ⟨rfl, fun d hd => ?_⟩
    have hspace := List.mem_takeWhile_imp hd
    have htab : d ≠ '\t' := fun htab => h.tab (htab ▸ hd)
    simpa [isInlineSpace, htab] using hspace
  have hline := List.takeWhile_append_dropWhile (p := isInlineSpace) (l := line)
  cases hrest : line.dropWhile isInlineSpace with
  | nil =>
    obtain ⟨c, hc, hspace, htab⟩ := h.content
    rw [hrest, List.append_nil] at hline
    rw [← hline] at hc
    simpa [isInlineSpace, hspace, htab] using List.mem_takeWhile_imp hc
  | cons c cs =>
    have hmem : ∀ d ∈ c :: cs, d ∈ line := fun d hd => List.dropWhile_subset _ (hrest ▸ hd)
    have hspace := List.head?_dropWhile_not isInlineSpace line
    rw [hrest] at hspace
    refine ⟨_, c, cs, by rw [← hlead, ← hrest, hline], ⟨by simpa using hspace, ?_⟩, ?_⟩
    · rintro rfl
      exact h.newline (hmem _ List.mem_cons_self)
    · exact fun hnl => h.newline (hmem _ hnl)

theorem exists_blanks {lines : List (List Char)} (hne : lines ≠ [])
    (hlast : ∀ line ∈ lines.getLast?, line ≠ []) :
    ∃ k line rest, lines = List.replicate k [] ++ line :: rest ∧ line ≠ [] := by
  induction lines with
  | nil => exact absurd rfl hne
  | cons line lines ih =>
    by_cases hline : line = []
    · have hlines : lines ≠ [] := by
        rintro rfl
        exact hlast line rfl hline
      obtain ⟨k, next, rest, hnext, hne⟩ := ih hlines fun l hl =>
        hlast l (by rwa [List.getLast?_cons_of_ne_nil hlines])
      exact ⟨k + 1, next, rest, by rw [hline, hnext]; rfl, hne⟩
    · exact ⟨0, line, lines, rfl, hline⟩

theorem below_blanks (k : Nat) (line : List Char) (rest : List (List Char)) :
    below (List.replicate k [] ++ line :: rest) =
      '\n' :: (List.replicate k '\n' ++ (line ++ below rest)) := by
  induction k with
  | zero => rfl
  | succ k ih =>
    rw [List.replicate_succ, List.replicate_succ, List.cons_append, below, List.flatMap_cons]
    exact congrArg (['\n'] ++ ·) ih

theorem indented_spaces (width n : Nat) (c : Char) (cs : List Char) :
    indented width (List.replicate n ' ' ++ c :: cs) =
      List.replicate (width + n) ' ' ++ c :: cs := by
  cases n with
  | zero => rfl
  | succ n => simp [indented, List.replicate_succ, List.replicate_add]

end Text

namespace Parse

open Rule Text Lexer

variable {E : Empty → Lexer Cursor → Prop} {src : Source} {ruler : Ruler} {base i k n : Nat}
  {text whole cs : List Char} {c : Char} {r : List Char × Nat} {s t : Lexer Cursor}

theorem ends_indentColumns_faces {cs : List Char} (h : Faces src (List.replicate n ' ' ++ cs) s)
    (hcs : ∀ c ∈ cs.head?, isInlineSpace c = false) (hmax : ∀ m ∈ ruler.maxColumns, n ≤ m) :
    Ends Fault.IsInternal (indentColumns ruler) s (fun m t => m = n ∧ Faces src cs t) E := by
  let gap := s.pending.takeWhile fun t => t.tag.isInlineSpace
  have hp : s.pending = gap ++ s.pending.dropWhile fun t => t.tag.isInlineSpace :=
    List.takeWhile_append_dropWhile.symm
  have hgap : Token.texts gap = List.replicate n ' ' := by
    have hstop : cs.takeWhile isInlineSpace = [] := by
      cases cs with
      | nil => rfl
      | cons c cs => simp [hcs c rfl]
    rw [Token.texts_takeWhile_isInlineSpace h.spelled, h.texts, List.takeWhile_append_of_pos ?_,
      hstop, List.append_nil]
    intro c hc
    rw [List.eq_of_mem_replicate hc]
    rfl
  have hspaces : ∀ t ∈ gap, t.tag = .spaces := by
    intro t ht
    have hspace := List.mem_takeWhile_imp (p := fun t : Token => t.tag.isInlineSpace) ht
    by_contra hne
    have htab : t.tag = .tab := by simpa [Tag.isInlineSpace, hne] using hspace
    have htext := (h.spelled t (List.takeWhile_subset _ ht)).text_of_char? (c := '\t')
      (by rw [htab]; rfl)
    have hmem : '\t' ∈ Token.texts gap := List.mem_flatMap.2 ⟨t, ht, by simp [htext]⟩
    rw [hgap] at hmem
    exact absurd (List.eq_of_mem_replicate hmem) (by decide)
  have hsize : Text.byteSize (Token.texts gap) = n := by
    rw [hgap, byteSize_replicate, show (' ').utf8Size = 1 from rfl, Nat.mul_one]
  have hrest : ∀ t ∈ (s.pending.dropWhile fun t => t.tag.isInlineSpace).head?,
      t.tag.isInlineSpace = false := fun t ht => by
    have hnot := List.head?_dropWhile_not (fun t : Token => t.tag.isInlineSpace) s.pending
    rw [Option.mem_def.1 ht] at hnot
    simpa using hnot
  refine (ends_indentColumns_spaces h.sound hp hspaces hrest (hsize.symm ▸ hmax)
    (s.spare_internal 0) (by decide)).imp ?_
  rintro m t ⟨rfl, hskip, hpt⟩
  exact ⟨hsize, (h.behind hskip.sound hskip.source hskip.unpaused (hpt ▸ hp) hgap).1⟩

theorem ends_skipBlankLines_faces
    (h : Faces src (List.replicate k '\n' ++ (List.replicate n ' ' ++ c :: cs)) s)
    (hc : IsContent c) (hmax : ∀ m ∈ ruler.maxColumns, n ≤ m) :
    Ends Fault.IsInternal (skipBlankLines ruler) s
      (fun r t => r = (n, k) ∧ Faces src (c :: cs) t) E := by
  refine Ends.loop_of_exhausted id (fun count t => ∃ todo, count + todo = k ∧
    Faces src (List.replicate todo '\n' ++ (List.replicate n ' ' ++ c :: cs)) t)
    ⟨k, Nat.zero_add k, h⟩ ?_
  rintro count t ⟨todo, rfl, ht⟩
  cases todo with
  | zero =>
    refine Ends.seq (ends_indentColumns_faces ht (by simpa using hc.space) hmax) ?_
    rintro m u ⟨rfl, hu⟩
    refine Ends.look (.refl hu.sound) (by decide) fun v hv => ?_
    rw [if_pos (hu.ahead_ne (show Tag.newline.char? = some '\n' from rfl) hc.newline)]
    exact Ends.pure ⟨rfl, hu.looks hv⟩
  | succ todo =>
    rw [List.replicate_succ, List.cons_append] at ht
    have hnone : Faces src (List.replicate 0 ' ' ++ '\n' ::
        (List.replicate todo '\n' ++ (List.replicate n ' ' ++ c :: cs))) t := ht
    refine Ends.seq (ends_indentColumns_faces hnone (by simp [isInlineSpace]) (by simp)) ?_
    rintro _ u ⟨-, hu⟩
    obtain ⟨nl, rest, hp, hnl⟩ := hu.pending_cons (show Tag.newline.char? = some '\n' from rfl)
    refine Ends.look (.refl hu.sound) (by decide) fun v hv => ?_
    rw [Lexer.ahead_zero_of_cons hp, if_neg (not_not.2 hnl)]
    have hvf := hu.looks hv
    have hpv := hv.pending.trans hp
    refine Ends.bind (Ends.paused ?_)
    refine Ends.eat (.refl hv.sound.onCursor) (Lexer.spare_internal _ 0) (by decide)
      (Lexer.pending_onCursor.trans hpv) fun w hw hpw _ =>
        ⟨[nl], hw.took, by simp [hnl], fun hskip => ?_⟩
    have htext := (hvf.spelled nl (by simp [hpv])).newline hnl
    have hvf' : Faces src (['\n'] ++
        (List.replicate todo '\n' ++ (List.replicate n ' ' ++ c :: cs))) v := hvf
    have hpw' : v.pending = [nl] ++ (w.onCursor (.pause false)).pending := by
      rw [Lexer.pending_onCursor, hpw, hpv]
      rfl
    exact Ends.pure ⟨todo, by omega, (hvf'.behind hskip.sound hskip.source hskip.unpaused hpw'
      (by simp [htext])).1⟩

theorem ends_rawNext_faces (h : Faces src (c :: cs) s) (columns blank : Nat)
    (hdeep : i < columns / ruler.width) (hmax : ∀ m ∈ ruler.maxColumns, 2 * (columns - base) ≤ m) :
    Ends Fault.IsInternal (rawNext ruler base i text columns blank) s (fun turn t =>
      turn = .again (text ++ List.replicate (1 + blank) '\n' ++
        List.replicate (columns - base) ' ', t.nextOffset) ∧ Faces src (c :: cs) t) E := by
  refine Ends.look (.refl h.sound) (by decide) fun t ht => ?_
  rw [if_neg h.ahead_ne_eof]
  have ht := h.looks ht
  refine Ends.bind (Ends.setLineIndent ?_)
  rw [if_neg (Nat.not_le.2 hdeep)]
  refine Ends.bind (Ends.setLineIndent ?_)
  have hu := (ht.onLine (some (columns / ruler.width))).onLine none
  generalize (t.onCursor (.onLine (some (columns / ruler.width)))).onCursor (.onLine none) = u
    at hu ⊢
  refine Ends.seq (Q := fun text u' => text = List.replicate (columns - base) ' ' ∧ u' = u) ?_ ?_
  · unfold columnSpaces
    rw [if_neg]
    · exact Ends.pure ⟨rfl, rfl⟩
    · simp only [Option.any_eq_true, decide_eq_true_eq, not_exists, not_and]
      intro m hm
      have := hmax m hm
      omega
  · rintro _ _ ⟨rfl, rfl⟩
    refine Ends.bind (Ends.peek (.refl hu.sound) (by decide) (Lexer.spare_internal _ 0) (by decide)
      fun v hv _ _ => Ends.pure ⟨?_, hu.looks hv⟩)
    rw [hu.sound.start_ahead, hv.nextOffset_eq hu.sound]

/-- A raw block whose text from `start` on is not read yet: what is left of a line, and the lines
below it. -/
inductive RawRest (src : Source) (base : Nat) (whole : List Char) :
    List Char × Nat → Lexer Cursor → Prop
  | line {text before line : List Char} {lines : List (List Char)} {t : Lexer Cursor} :
      Faces src (before ++ (line ++ below (lines.map (indented base)))) t → before ++ line ≠ [] →
      '\n' ∉ before ++ line → (∀ l ∈ lines, l = [] ∨ Spaced l) → (∀ l ∈ lines.getLast?, l ≠ []) →
      text ++ (line ++ below lines) = whole →
      RawRest src base whole (text, t.nextOffset + byteSize before) t

theorem ends_rawTurn_faces (h : RawRest src base whole r s) (hdeep : i < base / ruler.width)
    (hmax : ∀ m ∈ ruler.maxColumns, 2 * src.size ≤ m) :
    Ends Fault.IsInternal (rawTurn ruler base i r) s (fun turn t => turn.Gives
      (fun text => text = whole ∧ t.pending = [] ∧ t.observer.lastEnd = src.size)
      fun r => RawRest src base whole r t) E := by
  obtain @⟨text, before, line, lines, _, hs, hne, hnl, hlines, hlast, rfl⟩ := h
  have hhead : ∀ c ∈ (below (lines.map (indented base))).head?, c = '\n' := by
    cases lines <;> simp [below]
  have hsource := hs.slice
  have hs' : Faces src ((before ++ line) ++ below (lines.map (indented base))) s := by
    rwa [List.append_assoc]
  refine Ends.seq (Ends.eatUntil_newline hs' hnl hhead (s.spare_internal 0) (by decide)) ?_
  rintro - t ⟨ht, hnext, hlastEnd⟩
  have hend : t.observer.lastEnd = s.nextOffset + byteSize before + byteSize line := by
    rw [hlastEnd hne, hnext, byteSize_append, Nat.add_assoc]
  refine Ends.bind (Ends.endFrom (Ends.bind (Ends.bind (Ends.get (Ends.pure ?_)))))
  rw [hend, Nat.max_eq_left (Nat.le_add_right ..), ht.source, hsource]
  cases lines with
  | nil =>
    refine Ends.seq (Ends.eatIf ht.sound (by decide) (t.spare_internal 0) (by decide)) ?_
    rintro _ u (⟨rfl, -, hu, -⟩ | ⟨tok, -, -, hu, -⟩)
    · refine Ends.pure ⟨by simp [below], (ht.looks hu).pending_nil, ?_⟩
      rw [hu.observer, hend, hs'.size, byteSize_append]
      simp [below, Nat.add_assoc]
    · have hnil := ht.pending_nil
      simp [hu.pending] at hnil
  | cons first lines =>
    obtain ⟨k, line', rest, hsplit, hne'⟩ := exists_blanks (List.cons_ne_nil first lines) hlast
    rw [hsplit] at hlines ht hlast ⊢
    obtain ⟨n, c, cs, rfl, hc, hnl'⟩ :=
      ((hlines line' (by simp)).resolve_left hne').exists_lead
    have hbelow : below ((List.replicate k [] ++ (List.replicate n ' ' ++ c :: cs) :: rest).map
        (indented base)) = '\n' :: (List.replicate k '\n' ++ (List.replicate (base + n) ' ' ++
          c :: (cs ++ below (rest.map (indented base))))) := by
      have hblank : indented base [] = [] := rfl
      rw [List.map_append, List.map_replicate, List.map_cons, indented_spaces, hblank]
      simpa using below_blanks k (List.replicate (base + n) ' ' ++ c :: cs)
        (rest.map (indented base))
    rw [hbelow] at ht
    have hsize := ht.size
    simp only [byteSize_cons, byteSize_append, byteSize_replicate] at hsize
    have hspace : (' ').utf8Size = 1 := rfl
    rw [hspace] at hsize
    obtain ⟨nl, us, hp, htag⟩ := ht.pending_cons (show Tag.newline.char? = some '\n' from rfl)
    refine Ends.seq (Ends.eatIf_of_tag ht.sound (t.spare_internal 0) (by decide) hp htag) ?_
    rintro _ u ⟨rfl, hu, -, -⟩
    obtain ⟨hu, -⟩ := ht.eats (show Tag.newline.char? = some '\n' from rfl) hu htag
    refine Ends.seq (ends_skipBlankLines_faces hu hc fun m hm => ?_) ?_
    · have := hmax m hm
      omega
    rintro _ v ⟨rfl, hv⟩
    refine (ends_rawNext_faces hv (base + n) k ?_ fun m hm => ?_).imp ?_
    · exact Nat.lt_of_lt_of_le hdeep (Nat.div_le_div_right (Nat.le_add_right ..))
    · have := hmax m hm
      omega
    · rintro _ w ⟨rfl, hw⟩
      rw [Nat.add_sub_cancel_left]
      have hw' : Faces src ([] ++ (c :: cs ++ below (rest.map (indented base)))) w := hw
      refine .line hw' (by simp) hnl' (fun l hl => hlines l (by simp [hl])) ?_ ?_
      · intro l hl
        exact hlast l (by rw [List.getLast?_append, List.getLast?_cons, hl]; rfl)
      · rw [below_blanks, Nat.add_comm 1 k, List.replicate_succ]
        simp only [List.append_assoc, List.cons_append]

theorem ends_rawBlock_faces {first : List Char} {lines : List (List Char)}
    (h : Faces src ('>' :: ' ' ::
      (first ++ below (lines.map (indented ((i + 1) * ruler.width))))) s)
    (hwidth : 0 < ruler.width) (hfirst : '\n' ∉ first) (hlines : ∀ l ∈ lines, l = [] ∨ Spaced l)
    (hlast : ∀ l ∈ lines.getLast?, l ≠ [])
    (hmax : ∀ m ∈ ruler.maxColumns, (i + 1) * ruler.width ≤ m ∧ 2 * src.size ≤ m) :
    Ends Fault.IsInternal (rawBlock ruler i) s (fun b t => b = .raw ⟨s.nextOffset, src.size, i⟩
      [.text ⟨s.nextOffset + 2, src.size, i⟩ (String.ofList (first ++ below lines))] ∧
        t.pending = []) E := by
  obtain ⟨marker, rest, hp, htag⟩ := h.pending_cons (show Tag.rightAngle.char? = some '>' from rfl)
  refine Ends.bind (Ends.eat (.refl h.sound) (s.spare_internal 0) (by decide) hp
    fun t heats _ _ => ?_)
  obtain ⟨ht, hnext⟩ := h.eats (show Tag.rightAngle.char? = some '>' from rfl) heats htag
  have hline : Faces src ([' '] ++
      (first ++ below (lines.map (indented ((i + 1) * ruler.width))))) t := ht
  have hstart : marker.start = s.nextOffset := h.sound.start_of_cons hp
  have hstop : marker.stop = t.nextOffset := heats.stop_eq h.sound
  have hsize := h.size
  simp only [byteSize_cons] at hsize
  have hangle : ('>').utf8Size = 1 := rfl
  have hspace : (' ').utf8Size = 1 := rfl
  rw [hangle] at hnext hsize
  rw [hspace] at hsize
  refine Ends.bind (Ends.get (Ends.seq (ends_counted (.inr fun m hm => (hmax m hm).1)) ?_))
  rintro _ _ ⟨rfl, rfl⟩
  rw [hstop, ht.sound.fromOffset_nextOffset, ht.texts, List.head?_cons, if_pos rfl]
  refine Ends.seq (Ends.loop_of_exhausted id
    (RawRest src ((i + 1) * ruler.width) (first ++ below lines)) ?_ fun r u hu =>
      ends_rawTurn_faces hu ?_ fun m hm => (hmax m hm).2) ?_
  · exact .line hline (by simp) (by simpa using hfirst) hlines hlast rfl
  · rw [Nat.mul_div_cancel _ hwidth]
    exact Nat.lt_succ_self i
  · rintro _ u ⟨rfl, hpu, hlastEnd⟩
    refine Ends.bind (Ends.endFrom (Ends.bind (Ends.endFrom (Ends.pure ⟨?_, hpu⟩))))
    rw [hlastEnd, hstart, Nat.max_eq_left (by omega), Nat.max_eq_left (by omega), hnext]

end Parse

end TaskMarkup
