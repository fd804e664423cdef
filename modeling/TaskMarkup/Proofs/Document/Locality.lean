import TaskMarkup.Proofs.Document.Abreast

/-!
Documents are read locally. A blank line and a line behind it that is not indented and goes on with
nothing part a document in two: what stands before them has no bearing on what stands behind them,
nor the other way round.
-/

namespace TaskMarkup

namespace Seam

/-- The seam that a blank line at the offset `cut` makes with what follows it, of which the tokens
`us` are white lines, `ws` is the indentation of the first other line and `ts` are the rest. -/
def ofTokens (cut : Nat) (us ws ts : List Token)
    (hwhite : ∀ u ∈ us ++ ws, (u.tag.isInlineSpace || u.tag == .newline) = true)
    (hcontent : (ts.head?.map Token.tag).any Tag.isContent = true) : Seam where
  nl := ⟨.newline, cut, ['\n']⟩
  blank := (us ++ ws).map (Token.moved (cut + 1))
  rest := ts.map (Token.moved (cut + 1))
  newline := rfl
  white := by
    intro t ht
    obtain ⟨u, hu, rfl⟩ := List.mem_map.1 ht
    exact hwhite u hu
  content := by
    rw [List.head?_map, Option.map_map]
    exact hcontent

variable {cut : Nat} {us ws ts : List Token} {ruler : Ruler}

theorem flat_ofTokens
    {hwhite : ∀ u ∈ us ++ ws, (u.tag.isInlineSpace || u.tag == .newline) = true}
    {hcontent : (ts.head?.map Token.tag).any Tag.isContent = true} (hlines : Token.WholeLines us)
    (hzero : ruler.columns ws / ruler.width = 0) :
    (ofTokens cut us ws ts hwhite hcontent).Flat ruler := by
  intro vs hvs hspace
  have hvs : vs <:+ us.map (Token.moved (cut + 1)) ++ ws.map (Token.moved (cut + 1)) := by
    rwa [← List.map_append]
  have hle : ruler.columns vs ≤ ruler.columns ws := by
    rw [← ruler.columns_moved (cut + 1) ws]
    rcases List.suffix_or_suffix_of_suffix hvs (List.suffix_append _ _) with ⟨as, has⟩ | ⟨as, rfl⟩
    · rw [← has, ruler.columns_append]
      omega
    · -- More than the last line cannot be white space without a newline.
      obtain ⟨bs, hbs⟩ := hvs
      rw [← List.append_assoc] at hbs
      have hbs := List.append_cancel_right hbs
      obtain rfl | hne := eq_or_ne as []
      · exact Nat.le_refl _
      · have hlast : as.getLast?.map Token.tag = us.getLast?.map Token.tag := by
          rw [← List.getLast?_append_of_ne_nil bs hne, hbs, List.getLast?_map, Option.map_map]
          rfl
        have hus : us ≠ [] := by
          rintro rfl
          simp [hne] at hbs
        rw [hlines.resolve_left hus, Option.map_eq_some_iff] at hlast
        obtain ⟨u, hu, htag⟩ := hlast
        have := hspace u (List.mem_append_left _ (List.mem_of_getLast? hu))
        simp [htag, Tag.isInlineSpace] at this
  exact Nat.eq_zero_of_le_zero (hzero ▸ Nat.div_le_div_right hle)

end Seam

namespace Reader

variable {F : Fault → Prop} {o : Options} {src src' : Source} {lo lo' : Nat} {r r' e : Reader}
  {s t u f : Lexer Cursor} {b : Block} {bs : List Block} {x : Seam} {y z : Stretch}

theorem Drains.crosses (h : r'.Drains bs) (hstarted : r'.started = true)
    (hr : Stands (fun _ => True) o src lo r') (hopens : Opens (fun _ => True) o s u b r'.lexer)
    (hfree : z.free) (hsize : src.size ≤ z.cut) (hz : z.Abreast True u f)
    (he : Stands Fault.IsArithmetic o src' lo' e)
    (hline : Parse.lineStart o.level.ruler e.lexer = .ok (some 0) f) (hf : f.Steady)
    (hcontent : (f.ahead 0).tag.isContent = true) (hk : f.Spare Fault.IsArithmetic 21) :
    ∃ bs', e.Drains bs' ∧ b :: bs = bs'.map (.moved z.origin) := by
  have hfollows := (Parse.follows_opened (E := fun _ _ => False)
    (fun hroom : o.level.room ≠ 0 => Parse.nested_body hroom) hz hopens.steady hf hopens.content
    hcontent (.inl hfree)).of_ok hopens.opened
  have hends := Parse.ends_opened (E := fun e _ => e.elim) (i := 0)
    (Parse.excused_arithmetic _) (fun hroom : o.level.room ≠ 0 => Parse.bodied_body hroom) hf
    hcontent hk
  have hnot : ¬ r'.lexer.Lost z.cut := fun hlost => by
    have hlt := hlost.lt
    have hle := hr.steady.lastEnd_le
    have hbound := hr.steady.sound.isBoundary_nextOffset.le_size
    rw [hr.source] at hbound
    omega
  obtain ⟨b', g, hopened, ⟨rfl, hnear⟩, -⟩ := ((hfollows.resolve_left fun h => hnot h.1).meet
    (G := fun _ => False) hends fun _ h h' => h h').exists_ok fun _ _ h => h.1
  have hrule : rule o e.lexer = .ok (some b') g := by
    rw [rule, Parse.nextBlock_eq, Rule.bind_of_ok hline]
    exact Rule.bind_of_ok hopened
  obtain ⟨e', hnext, rfl, hstarted', hstands⟩ := he.next_some (excused_arithmetic o _) hrule
  obtain ⟨bs', hdrains, rfl⟩ := h.follows hfree hsize hr hstands hnear hstarted hstarted'
  exact ⟨b' :: bs', .block hnext hdrains, rfl⟩

theorem Drains.parts {P : List Block → Prop} (h : r.Drains bs) (hfree : y.free)
    (hcut : y.cut = x.cut) (hrest : y.rest = x.ahead) (hx : x.Flat o.level.ruler)
    (hstop : x.Stops o.level.room)
    (hr : Stands (fun _ => True) o src lo r) (he : Stands Fault.IsArithmetic o src' lo' e)
    (hn : y.Near r.lexer e.lexer) (hupto : x.Upto r.lexer)
    (hfirst : e.started = true ∨ ∃ ts tok, r.lexer.pending = ts ++ x.ahead ∧ tok ∈ ts ∧
      (tok.tag.isInlineSpace || tok.tag == .newline) = false)
    (hcross : ∀ lo lo' (r r' : Reader) u b bs, Stands (fun _ => True) o src lo r →
      Opens (fun _ => True) o r.lexer u b r'.lexer → x.Reached u →
      Stands (fun _ => True) o src lo' r' → r'.started = true → r'.Drains bs → P (b :: bs)) :
    ∃ bs₁ bs₂, e.Drains bs₁ ∧ P bs₂ ∧ bs = bs₁.map (.moved y.origin) ++ bs₂ := by
  have hconfined := Parse.confined_body hx o.level.room
  induction h generalizing lo lo' e with
  | @last r _ hnext _ =>
    obtain ⟨hskips, hnil⟩ := hr.of_next_none (excused_true o _) hnext
    exact absurd hnil (hupto.skips_ne_nil hr.steady hskips)
  | @block r r' b bs hnext hdrains ih =>
    rcases hr.of_next_some (excused_true o _) hnext with
      ⟨u, hopens, hstands, hstarted⟩ | ⟨-, -, -, hskips, hnil⟩
    · obtain ⟨measured, hline, -⟩ := hopens.line
      have hlands := (Parse.keeps_lineStart (E := fun e _ => e.elim) hx hr.steady hr.rests
        hupto).of_ok hline
      cases hlands with
      | before hbefore =>
        have hupto' := (Parse.keeps_opened (E := fun e _ => e.elim) hx hconfined hopens.steady
          hopens.content hbefore fun _ => hstop).of_ok hopens.opened
        have hle := hupto'.lastEnd_le hopens.spans.steady
        obtain ⟨c, f, hrule, hc, hn'⟩ := hr.rule_follows he hn hfree hopens.rule fun hlost => by
          have := hlost.lt
          omega
        obtain ⟨b, rfl, rfl⟩ := Option.map_eq_some_iff.1 hc.symm
        obtain ⟨e', hnexte, rfl, hstartede, hstandse⟩ :=
          he.next_some (excused_arithmetic o _) hrule
        obtain ⟨bs₁, bs₂, hdrains₁, hP, rfl⟩ := ih hstands hstandse hn' hupto' (.inl hstartede)
        exact ⟨b :: bs₁, bs₂, .block hnexte hdrains₁, hP, rfl⟩
      | reached hreached _ _ =>
        have hends := Parse.ends_lineStart (E := fun e _ => e.elim)
          (Parse.excused_arithmetic o.level.ruler) he.steady he.rests
        obtain ⟨c, f, hline', ⟨hlines, -⟩, -⟩ := ((((Parse.follows_lineStart
          (E := fun _ _ => False) (L := .none) (hr.between he hn)).of_ok
          hline).resolve_left And.left).meet (G := fun _ => False) hends
          fun _ h h' => h h').exists_ok fun _ _ h => h.1
        have hlen : x.rest.length < y.rest.length := by
          rw [hrest, Seam.ahead, List.length_cons, List.length_append]
          omega
        have hnone : c = none := by
          cases hlines with
          | past _ => rfl
          | within habreast _ =>
            have := congrArg List.length (habreast.pending.symm.trans hreached.pending)
            rw [List.length_append] at this
            omega
        have hrule : rule o e.lexer = .ok none f := by
          rw [rule, Parse.nextBlock_eq, Rule.bind_of_ok hline', hnone]
          rfl
        have hstarted' : e.started = true := hfirst.resolve_right <| by
          rintro ⟨ts, tok, hp, hmem, hsolid⟩
          obtain ⟨ws, hws, hwhite⟩ := hopens.skips.white
          rw [hp, hreached.pending, Seam.ahead, ← List.cons_append, ← List.append_assoc] at hws
          rw [← List.append_cancel_right hws] at hwhite
          have := hwhite tok (List.mem_append_left _ hmem)
          simp [hsolid] at this
        exact ⟨[], b :: bs, he.drains_nil hstarted' hrule,
          hcross _ _ _ _ _ _ _ hr hopens hreached hstands hstarted hdrains, rfl⟩
    · exact absurd hnil (hupto.skips_ne_nil hr.steady hskips)

end Reader

theorem Block.moved_zero (b : Block) : b.moved 0 = b := Block.mapSpan_id b

namespace Document

variable {o : Options} {text : String} {bs : List Block} {f : Lexer Cursor}

theorem blocks_eq_ok_iff_drains (hpeeks : 100 ≤ o.maxPeeks) :
    blocks o text = .ok bs ↔ (Reader.start o text).Drains bs := by
  obtain ⟨-, hread⟩ := drains_read_of_excused text (.inr hpeeks)
    (Reader.excused_arithmetic o _)
  rw [blocks_eq_ok_iff]
  constructor
  · rintro ⟨hfault, rfl⟩
    exact hread hfault
  · intro h
    exact ⟨h.fault_eq_none _, (hread (h.fault_eq_none _)).eq h⟩

def firstLine (o : Options) : Parse (Option (Nat × Marker)) := do
  match ← Parse.lineStart o.level.ruler with
  | none => return none
  | some measured => return some (measured, ← Parse.dispatch o.level.room)

/-- The first line of a text that is not blank, if there is one and its columns can be counted. -/
def opening (o : Options) (text : String) : Option (Nat × Marker) :=
  match firstLine o (Reader.start o text).lexer with
  | .ok line _ => line
  | .error _ _ => none

theorem exists_of_opening {measured : Nat} {marker : Marker}
    (h : opening o text = some (measured, marker)) : ∃ f g,
      Parse.lineStart o.level.ruler (Reader.start o text).lexer = .ok (some measured) f ∧
      Parse.dispatch o.level.room f = .ok marker g := by
  unfold opening firstLine at h
  cases hline : Parse.lineStart o.level.ruler (Reader.start o text).lexer with
  | error e f => simp [bind, EStateM.bind, hline] at h
  | ok r f =>
    cases r with
    | none =>
      rw [Rule.bind_of_ok hline] at h
      simp [pure, EStateM.pure] at h
    | some m =>
      rw [Rule.bind_of_ok hline] at h
      cases hdispatch : Parse.dispatch o.level.room f with
      | error e g => simp [bind, EStateM.bind, hdispatch] at h
      | ok marker' g =>
        simp only [Rule.bind_of_ok hdispatch, pure, EStateM.pure, Option.some.injEq,
          Prod.mk.injEq] at h
        obtain ⟨rfl, rfl⟩ := h
        exact ⟨f, g, rfl, hdispatch⟩

structure Begins (o : Options) (text : String) (f : Lexer Cursor) : Prop where
  line : Parse.lineStart o.level.ruler (Reader.start o text).lexer = .ok (some 0) f
  steady : f.Steady
  source : f.source.chars = text.toList
  lastEnd : f.observer.lastEnd = 0
  wordStart : f.observer.wordStart = true
  content : (f.ahead 0).tag.isContent = true
  spare : f.Spare Fault.IsArithmetic 21

theorem exists_seam {marker : Marker} (hpeeks : 100 ≤ o.maxPeeks)
    (hopening : opening o text = some (0, marker)) (hrecurs : marker.recurs = false) (cut : Nat) :
    ∃ (x : Seam) (f : Lexer Cursor), Begins o text f ∧ x.cut = cut ∧
      x.ahead = ⟨.newline, cut, ['\n']⟩ :: (tokenize text.toList).map (Token.moved (cut + 1)) ∧
      x.rest = f.pending.map (Token.moved (cut + 1)) ∧ x.Flat o.level.ruler ∧
      x.Stops o.level.room := by
  obtain ⟨f, g, hline, hdispatch⟩ := exists_of_opening hopening
  have hstands := Reader.start_stands (F := Fault.IsArithmetic) text (.inr hpeeks)
  have hpending := Reader.pending_start o text
  obtain ⟨hskips, hsteady, hfound⟩ := (Parse.ends_lineStart (E := fun e _ => e.elim)
    (Parse.excused_arithmetic _) hstands.steady hstands.rests).of_ok hline
  obtain ⟨us, ws, hp, hlines, -, hzero⟩ := (Parse.ends_lineStart_columns (E := fun e _ => e.elim)
    hstands.steady.sound rfl).of_ok hline 0 rfl
  obtain ⟨vs, hvs, hwhite⟩ := hskips.white
  rw [← List.append_assoc, hvs] at hp
  obtain rfl := List.append_cancel_right hp
  cases hfound with
  | line hm hc hk _ =>
  have hcontent := Lexer.isContent_ahead_iff.1 hc
  refine ⟨.ofTokens cut us ws f.pending hwhite hcontent, f, ⟨hline, hsteady,
    congrArg Source.chars hskips.source, hskips.lastEnd,
    (hstands.settled.skips hskips).wordStart hc, hc, hk⟩, rfl, ?_, rfl,
    Seam.flat_ofTokens hlines hzero.symm, fun t ht => ?_⟩
  · rw [← hpending, hvs, List.map_append]
    rfl
  · rw [Parse.announced_moved ht]
    rw [← Parse.announced_of_dispatch hsteady.sound hdispatch, hrecurs]

theorem Begins.abreast {before : List Char} {u : Lexer Cursor} (h : Begins o text f) (hu : u.Steady)
    (hsource : u.source.chars = before ++ text.toList)
    (hlast : u.observer.lastEnd ≤ Text.byteSize before) (hword : u.observer.wordStart = true)
    (hp : u.pending = f.pending.map (Token.moved (Text.byteSize before))) :
    (Stretch.mk before text.toList [] True (.inl trivial)).Abreast True u f where
  sound := hu.sound
  sound' := h.steady.sound
  source := by simpa using hsource
  source' := h.source
  cursor := by
    refine ⟨?_, hu.unpaused.trans h.steady.unpaused.symm, hword.trans h.wordStart.symm, .inl trivial⟩
    rw [h.lastEnd, Nat.zero_add]
    exact Nat.max_eq_right hlast
  pending := by
    rw [hp]
    exact (List.append_nil _).symm
  bounds := .inl ⟨trivial, .inl rfl⟩

theorem near_start {text' : String} {rest : List Token}
    (hchars : text.toList = text'.toList ++ Token.texts rest)
    (hp : tokenize text.toList = tokenize text'.toList ++ rest)
    (hrest : rest.head?.map Token.tag = some .newline) (hne : text'.toList ≠ []) :
    (Stretch.mk [] text'.toList rest True (.inl trivial)).Near (Reader.start o text).lexer
      (Reader.start o text').lexer := by
  refine .within ⟨Lexer.start_sound .., Lexer.start_sound .., hchars, rfl, ⟨rfl, rfl, rfl, .inr rfl⟩,
    ?_, .inl ⟨trivial, .inr hrest⟩⟩ ?_
  · rw [Reader.pending_start, Reader.pending_start]
    show tokenize text.toList = (tokenize text'.toList).map (Token.moved 0) ++ rest
    rw [hp, show Token.moved 0 = id from rfl, List.map_id]
  · rw [Reader.pending_start]
    intro hnil
    apply hne
    rw [← texts_tokenize text'.toList, hnil, Token.texts_nil]

/-- A blank line and a line behind it that is not indented and goes on with nothing part a document:
the blocks before them are those of the text before the blank line, and the blocks behind them are
those of the text behind it, moved to where that starts. It is read to its end if its columns can be
counted. -/
theorem blocks_append (o : Options) (text₁ text₂ : String) (marker : Marker)
    (hpeeks : 100 ≤ o.maxPeeks) (hline : text₁.toList.getLast? = some '\n')
    (hwhite : ¬ Text.White text₁.toList) (hopening : opening o text₂ = some (0, marker))
    (hrecurs : marker.recurs = false) :
    (∀ bs, blocks o (text₁ ++ "\n" ++ text₂) = .ok bs → ∃ bs₁ bs₂, blocks o text₁ = .ok bs₁ ∧
      blocks o text₂ = .ok bs₂ ∧
      bs = bs₁ ++ bs₂.map (.moved (Text.byteSize text₁.toList + 1))) ∧
    (o.ruler.Counts (Source.ofString (text₁ ++ "\n" ++ text₂)) →
      ∃ bs, blocks o (text₁ ++ "\n" ++ text₂) = .ok bs) := by
  refine ⟨fun bs hbs => ?_, exists_blocks hpeeks⟩
  obtain ⟨x, f, hf, hcut, hahead, hrest, hflat, hstops⟩ :=
    exists_seam hpeeks hopening hrecurs (Text.byteSize text₁.toList)
  have hchars : (text₁ ++ "\n" ++ text₂).toList =
      (text₁.toList ++ ['\n']) ++ text₂.toList := by simp
  generalize text₁ ++ "\n" ++ text₂ = text at hbs hchars
  have hsize : Text.byteSize (text₁.toList ++ ['\n']) = Text.byteSize text₁.toList + 1 := by
    rw [Text.byteSize_append]
    rfl
  have htokens : tokenize text.toList = tokenize text₁.toList ++ x.ahead := by
    rw [hchars, List.append_assoc, List.singleton_append, tokenize_append_newline, hahead]
  have hspelled : ∀ tok ∈ tokenize text₁.toList, tok.Spelled := fun _ h => spelled_of_mem_tokenize h
  have hlast : (tokenize text₁.toList).getLast?.map Token.tag = some .newline :=
    Token.tag_of_getLast?_texts hspelled (by rw [texts_tokenize, hline])
  have hsolid : ∃ tok ∈ tokenize text₁.toList,
      (tok.tag.isInlineSpace || tok.tag == .newline) = false := by
    by_contra hall
    apply hwhite
    rw [← texts_tokenize text₁.toList]
    exact Token.white_texts hspelled fun tok htok => by
      by_contra hsolid
      exact hall ⟨tok, htok, by simpa using hsolid⟩
  obtain ⟨tok, htok, hsolid⟩ := hsolid
  have hne : text₁.toList ≠ [] := by
    intro hnil
    simp [hnil] at hline
  have hnear := near_start (o := o) (by
    rw [← texts_tokenize text.toList, htokens, Token.texts_append, texts_tokenize]) htokens
    (by rw [hahead]; rfl) hne
  have hpending : (Reader.start o text).lexer.pending = tokenize text₁.toList ++ x.ahead :=
    (Reader.pending_start ..).trans htokens
  have hr := Reader.start_stands (F := fun _ => True) (o := o) text (.inl fun _ => trivial)
  have he₁ := Reader.start_stands (F := Fault.IsArithmetic) text₁ (.inr hpeeks)
  have he₂ := Reader.start_stands (F := Fault.IsArithmetic) text₂ (.inr hpeeks)
  have hcross (lo lo' : Nat) (r r' : Reader) (u : Lexer Cursor) (b : Block) (bs : List Block)
      (hr : Reader.Stands (fun _ => True) o (Source.ofString text) lo r)
      (hopens : Reader.Opens (fun _ => True) o r.lexer u b r'.lexer) (hreached : x.Reached u)
      (hr' : Reader.Stands (fun _ => True) o (Source.ofString text) lo' r')
      (hstarted : r'.started = true) (hdrains : r'.Drains bs) : ∃ bs₂,
        (Reader.start o text₂).Drains bs₂ ∧
          b :: bs = bs₂.map (.moved (Text.byteSize text₁.toList + 1)) := by
    have hsource : u.source.chars = text.toList :=
      congrArg Source.chars (hopens.skips.source.trans hr.source)
    have hlast := hreached.lastEnd_le
    have habreast := hf.abreast hopens.steady (hsource.trans hchars) (by omega)
      ((hr.settled.skips hopens.skips).wordStart hopens.content)
      (by rw [hreached.pending, hrest, hsize])
    obtain ⟨bs₂, hdrains₂, hmoved⟩ := hdrains.crosses hstarted hr' hopens trivial (by
      show Text.byteSize text.toList ≤ Text.byteSize _ + Text.byteSize _
      rw [hchars, Text.byteSize_append]) habreast he₂ hf.line hf.steady hf.content hf.spare
    refine ⟨bs₂, hdrains₂, hmoved.trans ?_⟩
    rw [Stretch.origin, hsize]
  obtain ⟨bs₁, _, hdrains₁, ⟨bs₂, hdrains₂, rfl⟩, rfl⟩ :=
    ((blocks_eq_ok_iff_drains hpeeks).1 hbs).parts
      (P := fun bs => ∃ bs₂, (Reader.start o text₂).Drains bs₂ ∧
        bs = bs₂.map (.moved (Text.byteSize text₁.toList + 1)))
      trivial (hcut ▸ Nat.zero_add _) rfl hflat hstops hr he₁ hnear (.before ⟨_, hpending, hlast⟩)
      (.inr ⟨_, tok, hpending, htok, hsolid⟩) hcross
  refine ⟨bs₁, bs₂, (blocks_eq_ok_iff_drains hpeeks).2 hdrains₁,
    (blocks_eq_ok_iff_drains hpeeks).2 hdrains₂, ?_⟩
  have hid : Block.moved 0 = id := funext Block.moved_zero
  exact congrArg (· ++ _) ((congrArg bs₁.map hid).trans (List.map_id bs₁))

theorem blocks_append_unclosed : (100 ≤ ({} : Options).maxPeeks ∧
    "- *a\n".toList.getLast? = some '\n' ∧ ¬ Text.White "- *a\n".toList ∧
    opening {} "b" = some (0, .paragraph) ∧ Marker.recurs .paragraph = false) ∧
    (∀ bs, blocks {} ("- *a\n" ++ "\n" ++ "b") = .ok bs → ∃ bs₁ bs₂,
      blocks {} "- *a\n" = .ok bs₁ ∧ blocks {} "b" = .ok bs₂ ∧
      bs = bs₁ ++ bs₂.map (.moved (Text.byteSize "- *a\n".toList + 1))) ∧
    ∃ bs, blocks {} ("- *a\n" ++ "\n" ++ "b") = .ok bs := by
  have hpeeks : 100 ≤ ({} : Options).maxPeeks := by decide
  have hline : "- *a\n".toList.getLast? = some '\n' := by decide
  have hwhite : ¬ Text.White "- *a\n".toList := by simp [Text.White]
  have hopening : opening {} "b" = some (0, .paragraph) := by decide +kernel
  have hrecurs : Marker.recurs .paragraph = false := rfl
  have hcounts : ({} : Options).ruler.Counts (Source.ofString ("- *a\n" ++ "\n" ++ "b")) := by
    rintro _ ⟨⟩
    decide
  obtain ⟨happend, hread⟩ := blocks_append {} _ _ _ hpeeks hline hwhite hopening hrecurs
  exact ⟨⟨hpeeks, hline, hwhite, hopening, hrecurs⟩, happend, hread hcounts⟩

end Document

end TaskMarkup
