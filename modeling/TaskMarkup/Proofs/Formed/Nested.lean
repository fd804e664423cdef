import TaskMarkup.Proofs.Formed.Paragraph

namespace TaskMarkup

namespace Inline

mutual

/-- The node may stand inside spans of the styles `outer`, and within a line if `line` is set. -/
def Nested (outer : List Style) (line : Bool) : Inline → Prop
  | .text _ t => line = true → '\n' ∉ t.toList
  | .styled _ style cs =>
    (∀ s ∈ outer, s ≠ style ∧ (s.mark.1 = style.mark.1 → style.length < s.length)) ∧
      AllNested (style :: outer) (line || style.singleLine) cs
  | .raw _ _ cs => AllNested outer true cs
  | .link _ target caption => '\n' ∉ target.toList ∧ ∀ c ∈ caption, '\n' ∉ c.toList
  | .tagRef _ c => c.Nested outer true

def AllNested (outer : List Style) (line : Bool) : List Inline → Prop
  | [] => True
  | c :: cs => c.Nested outer line ∧ AllNested outer line cs

end

mutual

def styleDepth : Inline → Nat
  | .text .. | .link .. => 0
  | .styled _ _ cs => stylesDepth cs + 1
  | .raw _ _ cs => stylesDepth cs
  | .tagRef _ c => c.styleDepth

def stylesDepth : List Inline → Nat
  | [] => 0
  | c :: cs => max c.styleDepth (stylesDepth cs)

end

variable {outer : List Style} {line : Bool} {cs ds : List Inline}

theorem allNested_append :
    AllNested outer line (cs ++ ds) ↔ AllNested outer line cs ∧ AllNested outer line ds := by
  induction cs with
  | nil => simp [AllNested]
  | cons c cs ih => simp [AllNested, ih, and_assoc]

mutual

theorem Nested.relax {outer : List Style} {line line' : Bool} {c : Inline}
    (h : c.Nested outer line) (hline : line' = true → line = true) : c.Nested outer line' := by
  match c with
  | .text .. => exact fun hl => h (hline hl)
  | .link .. => exact h
  | .styled _ style cs =>
    exact ⟨h.1, AllNested.relax h.2 fun hl => by
      simpa using (Bool.or_eq_true_iff.1 hl).imp_left hline⟩
  | .raw _ _ cs =>
    have hcs : AllNested outer true cs := h
    exact hcs.relax id
  | .tagRef _ c => exact Nested.relax (c := c) h id

theorem AllNested.relax {outer : List Style} {line line' : Bool} {cs : List Inline}
    (h : AllNested outer line cs) (hline : line' = true → line = true) :
    AllNested outer line' cs := by
  match cs with
  | [] => trivial
  | c :: cs => exact ⟨Nested.relax h.1 hline, AllNested.relax h.2 hline⟩

end

mutual

theorem Nested.depth_le {outer : List Style} {line : Bool} {c : Inline}
    (h : c.Nested outer line) (hn : outer.Nodup) :
    outer.length + c.styleDepth ≤ Style.all.length := by
  match c with
  | .text .. | .link .. => exact Parse.length_le_of_nodup hn
  | .styled _ style cs =>
    have hnew : style ∉ outer := fun hmem => (h.1 style hmem).1 rfl
    have hle := AllNested.depth_le h.2 (List.nodup_cons.2 ⟨hnew, hn⟩)
    rw [List.length_cons] at hle
    rw [styleDepth]
    omega
  | .raw _ _ cs =>
    have hcs : AllNested outer true cs := h
    exact hcs.depth_le hn
  | .tagRef _ c => exact Nested.depth_le (c := c) h hn

theorem AllNested.depth_le {outer : List Style} {line : Bool} {cs : List Inline}
    (h : AllNested outer line cs) (hn : outer.Nodup) :
    outer.length + stylesDepth cs ≤ Style.all.length := by
  match cs with
  | [] => exact Parse.length_le_of_nodup hn
  | c :: cs =>
    have hc := Nested.depth_le h.1 hn
    have hcs := AllNested.depth_le h.2 hn
    rw [stylesDepth]
    omega

end

end Inline

theorem Text.mem_of_mem_trimEnd {cs : List Char} {c : Char} (h : c ∈ trimEnd cs) : c ∈ cs := by
  rw [trimEnd, dropEndWhile, List.mem_reverse] at h
  exact List.mem_reverse.1 (List.dropWhile_subset _ h)

theorem Style.choose_new {stops : List Style} {tag : Tag} {run : Nat} {style : Style}
    (h : choose stops tag run = some style) (hnew : style ∉ stops) :
    ∀ s ∈ stops, s ≠ style ∧ (s.mark.1 = style.mark.1 → style.length < s.length) := by
  intro s hs
  refine ⟨fun heq => hnew (heq ▸ hs), fun hmark => ?_⟩
  obtain ⟨htag, hle⟩ := choose_spec h
  simp only [choose, Option.orElse_eq_orElse, Option.orElse_eq_or, Option.or_eq_some_iff] at h
  rcases h with h | ⟨-, h | ⟨hnone, -⟩⟩
  · exact absurd (List.mem_filter.1 (List.mem_of_find?_eq_some h)).1 hnew
  · exact absurd (List.mem_filter.1 (List.mem_of_find?_eq_some h)).1 hnew
  · have hlong := List.find?_eq_none.1 hnone s (List.mem_filter.2 ⟨hs, by simp [hmark, htag]⟩)
    simp only [decide_eq_true_eq, Nat.not_le] at hlong
    omega

namespace InlineContent

variable {outer : List Style} {line : Bool} {c : InlineContent} {t : Token} {text : List Char}
  {indent : Nat} {node : Inline}

theorem nested_push (h : Inline.AllNested outer line (c.flush indent))
    (htext : line = true → '\n' ∉ text) :
    Inline.AllNested outer line ((c.push t text).flush indent) := by
  obtain ⟨nodes, pending⟩ := c
  cases pending with
  | none =>
    have h : Inline.AllNested outer line nodes := by simpa [flush] using h
    have hnew : Inline.AllNested outer line [TextRun.toInline indent ⟨t.start, t.stop, text⟩] := by
      simpa [Inline.AllNested, Inline.Nested, TextRun.toInline] using htext
    exact Inline.allNested_append.2 ⟨h, hnew⟩
  | some r =>
    have h : Inline.AllNested outer line (nodes ++ [r.toInline indent]) := by simpa [flush] using h
    obtain ⟨hnodes, hold, -⟩ := Inline.allNested_append.1 h
    have hnew : Inline.AllNested outer line
        [TextRun.toInline indent { r with stop := t.stop, text := r.text ++ text }] := by
      refine ⟨fun hline => ?_, trivial⟩
      have hold := hold hline
      rw [String.toList_ofList] at hold ⊢
      simp [hold, htext hline]
    exact Inline.allNested_append.2 ⟨hnodes, hnew⟩

theorem nested_add (h : Inline.AllNested outer line (c.flush indent))
    (hnode : node.Nested outer line) :
    Inline.AllNested outer line ((c.add indent node).flush indent) := by
  rw [flush_add]
  exact Inline.allNested_append.2 ⟨h, hnode, trivial⟩

end InlineContent

namespace Parse

open Rule Inline

variable {src : Source} {outer : List Style} {line : Bool} {i : Nat} {tok : Token}
  {p : ParagraphContext} {stops : List Style} {c : InlineContent} {s t : Lexer Cursor}

theorem yields_rawInline_nested :
    Yields src (rawInline i tok) fun node => node.Nested outer line := by
  refine yields_rawInline_run.imp ?_
  rintro _ ⟨start, stop, monospace, run, rfl, hrun⟩
  cases run with
  | none => trivial
  | some r => exact ⟨fun _ => by simpa using (hrun r rfl).2, trivial⟩

theorem yields_readUntil_line (stop : Tag → Bool) :
    Yields src (readUntil stop : Parse (List Char)) fun text => '\n' ∉ text := by
  refine .of_ends (.readUntil stop) fun s hs _ => ?_
  refine (Ends.readUntil hs.sound (s.spare_true 0) (by decide)).imp ?_
  rintro text t ⟨ht, rfl, -⟩ hmem
  obtain ⟨cs, hcs, hnl⟩ := List.mem_flatten.1 hmem
  obtain ⟨u, hu, rfl⟩ := List.mem_map.1 hcs
  have hspell := hs.sound.spelled (List.takeWhile_subset _ hu)
  refine hspell.newline_not_mem (fun htag => ?_) hnl
  simpa [htag, Tag.endsLine] using List.mem_takeWhile_imp hu

theorem yields_link_nested : Yields src (link i) fun node => node.Nested outer line := by
  have htrim {text : List Char} (h : '\n' ∉ text) :
      '\n' ∉ (String.ofList (Text.trimEnd text)).toList := by
    rw [String.toList_ofList]
    exact fun hmem => h (Text.mem_of_mem_trimEnd hmem)
  have hrest (opening : Token) {target : List Char} {caption : Option String}
      (ht : '\n' ∉ target) (hc : ∀ c ∈ caption, '\n' ∉ c.toList) :
      Yields src (do
        let _ ← eatIf .rightAngle
        let stop ← endFrom opening.start
        return .link ⟨opening.start, stop, i⟩ (String.ofList (Text.trimEnd target)) caption :
          Parse Inline) fun node => node.Nested outer line :=
    .after (.eatIf _) fun _ => .after (.endFrom _) fun _ => .pure ⟨htrim ht, hc⟩
  refine .after .eat fun opening => .bind (yields_readUntil_line _) fun target ht =>
    .after (.eatIf _) fun semicolon => ?_
  split
  · refine .after .eatInlineSpace fun _ => .bind (yields_readUntil_line _) fun text htext => ?_
    dsimp only
    split
    · exact hrest _ ht (by simp)
    · refine hrest _ ht ?_
      rintro _ ⟨⟩
      exact htrim htext
  · exact hrest _ ht (by simp)

theorem ends_tagRef_nested {sign name : Token} {rest : List Token} (hs : s.Sound)
    (hp : s.pending = sign :: name :: rest) (hname : isTagName name.text = true) :
    Ends (fun _ => True) (tagRef i) s (fun node _ => node.Nested outer line) fun _ _ => True := by
  refine Ends.bind (Ends.eat (.refl hs) (s.spare_true 0) (by decide) hp fun t ht hpt _ => ?_)
  refine Ends.bind (Ends.eat (.refl ht.sound) (t.spare_true 0) (by decide) hpt fun u _ _ _ =>
    Ends.pure fun _ hnl => ?_)
  rw [String.toList_ofList] at hnl
  simp only [isTagName, Bool.and_eq_true, List.all_eq_true] at hname
  exact absurd (hname.2 '\n' hnl) (by decide)

theorem yields_styled_nested {style : Style} {inner : Parse (List Inline × InlineStop)}
    (hstyle : ∀ s ∈ outer, s ≠ style ∧ (s.mark.1 = style.mark.1 → style.length < s.length))
    (h : Yields src inner fun r => AllNested (style :: outer) (line || style.singleLine) r.1) :
    Yields src (styled i style inner) fun r => r.1.Nested outer line := by
  refine .after (.peek 0) fun first => .after (.eatMany _) fun _ => .after (.endFrom _)
    fun opened => .bind h ?_
  rintro ⟨children, ending⟩ hchildren
  dsimp only
  split
  · exact .after (.eatMany _) fun _ => .after .cursor fun _ => .pure ⟨hstyle, hchildren⟩
  · exact .pure ⟨hstyle, hchildren⟩

theorem ends_escape_nested (hs : s.Placed) (hc : AllNested outer line (c.flush i)) :
    Ends (fun _ => True) (escape c) s (fun c' _ => AllNested outer line (c'.flush i))
      fun _ _ => True := by
  refine (ends_escape_pushed hs).imp ?_
  rintro c' t ⟨backslash, rfl | ⟨escaped, hspell, hnl, rfl⟩⟩
  · exact InlineContent.nested_push hc (by simp)
  · exact InlineContent.nested_push (InlineContent.nested_push hc (by simp)) fun _ =>
      hspell.newline_not_mem hnl

def InLine (p : ParagraphContext) (stops : List Style) : Bool :=
  stops.any Style.singleLine || decide (p.mode ≠ .block)

theorem inLine_cons {style : Style} :
    InLine p (style :: stops) = (InLine p stops || style.singleLine) := by
  simp only [InLine, List.any_cons]
  cases style.singleLine <;> simp

end Parse

open Parse Rule Inline

variable {src : Source} {p : ParagraphContext} {stops : List Style} {c : InlineContent}
  {s t : Lexer Cursor}

theorem Origin.Step.nested {inner : List Style → Parse (List Inline × InlineStop)}
    {turn : Turn (List Inline × InlineStop) InlineContent}
    (hinner : ∀ stops, Yields src (inner stops) fun r => AllNested stops (InLine p stops) r.1)
    (hs : s.Placed) (hsrc : s.source = src)
    (hc : AllNested stops (InLine p stops) (c.flush p.indent)) (h : Step p stops inner c s turn t) :
    turn.Gives (fun r => AllNested stops (InLine p stops) r.1)
      fun c => AllNested stops (InLine p stops) (c.flush p.indent) := by
  have hlooks {u : Lexer Cursor} (hu : s.Looks u) : u.Placed ∧ u.source = src :=
    ⟨(hs.looks hu).placed, hu.source.trans hsrc⟩
  cases h with
  | halt | stop | part => exact hc
  | line _ hany hmode _ =>
    refine InlineContent.nested_push hc fun hline => ?_
    simp [InLine, hany, hmode] at hline
  | literal ht hnl =>
    have hspell := hs.sound.spelled (ht.pending ▸ List.mem_cons_self ..)
    exact InlineContent.nested_push hc fun _ => hspell.newline_not_mem hnl
  | escape hu hc' => exact (ends_escape_nested (hlooks hu).1 hc).of_ok hc'
  | @styled style _ _ _ _ hu hchoose hnew hnode =>
    have hinner := hinner (style :: stops)
    rw [inLine_cons] at hinner
    have hnode := (yields_styled_nested (Style.choose_new hchoose hnew) hinner _ (hlooks hu).1
      (hlooks hu).2).of_ok hnode
    have hadd := InlineContent.nested_add hc hnode.2
    split
    · rwa [InlineContent.flush_add_eq_nodes] at hadd
    · exact hadd
  | raw hu hnode =>
    exact InlineContent.nested_add hc
      ((yields_rawInline_nested _ (hlooks hu).1 (hlooks hu).2).of_ok hnode).2
  | link hu hnode =>
    exact InlineContent.nested_add hc
      ((yields_link_nested _ (hlooks hu).1 (hlooks hu).2).of_ok hnode).2
  | tagRef hu hp hname hnode =>
    exact InlineContent.nested_add hc
      ((ends_tagRef_nested hu.sound (hu.pending.trans hp) hname).of_ok hnode)

namespace Parse

theorem yields_inlines_nested (p : ParagraphContext) (n : Nat) (stops : List Style) :
    Yields src (inlines p n stops) fun r => AllNested stops (InLine p stops) r.1 := by
  -- By induction on the room for loops inside one another.
  induction n generalizing stops with
  | zero => exact .throw _
  | succ n ih =>
    refine .loop (fun c => AllNested stops (InLine p stops) (c.flush p.indent))
      (by simp [InlineContent.flush, AllNested]) fun c hc => ?_
    exact .of_ends (advances_inlineTurn (advances_inlines n) c) fun s hs hsrc =>
      (ends_inlineTurn_step hs.sound).imp fun turn t h => h.nested ih hs hsrc hc

theorem yields_paragraph_nested (p : ParagraphContext) :
    Yields src (paragraph p) fun b => AllNested [] (decide (p.mode ≠ .block)) b.inlines := by
  refine .after (.peek 0) fun first => .bind (yields_inlines_nested p _ []) ?_
  rintro ⟨children, ending⟩ hchildren
  exact .after (.endFrom _) fun stop => .pure hchildren

end Parse

end TaskMarkup
