import TaskMarkup.Proofs.Document.Locality

/-!
The excerpts of a document put together again, each on lines of its own. Blank lines are gone then,
and so is the indentation that blocks began with. Still every block ends where it did, since the
line behind it goes on with nothing; only a table takes up another one.
-/

namespace TaskMarkup

theorem Token.white_of_newline {ts : List Token} (h : ∀ t ∈ ts, t.tag = .newline) :
    ∀ t ∈ ts, (t.tag.isInlineSpace || t.tag == .newline) = true := by
  intro t ht
  simp [h t ht]

theorem Block.kindName_moved (k : Nat) (b : Block) : (b.moved k).kindName = b.kindName := by
  cases b <;> rfl

theorem Block.continues_moved (k : Nat) (b : Block) : (b.moved k).continues = b.continues := by
  funext marker
  cases b with
  | container span kind bs =>
    show (Block.container (span.moved k) kind (Block.mapSpans (.moved k) bs)).continues _ = _
    rw [Block.mapSpans_moved]
    cases kind <;> simp [Block.continues]
  | _ => rfl

namespace Parse

open Origin

variable {F F' : Fault → Prop} {level : Level} {body : Nat → Parse (List Block)} {marker : Marker}
  {i : Nat} {s t u u' t' : Lexer Cursor} {b b' : Block}

theorem declines_continues (h : Made level body i s marker b t) (hm : marker ≠ .table) :
    Declines level i b.continues t := by
  cases h with
  | table => exact absurd rfl hm
  | list hitems | ordered hitems => exact hitems.last
  | header | task | separator | raw | paragraph => exact fun _ _ _ _ => rfl

theorem Opens.continues_eq_false
    (hbody : level.room ≠ 0 → Bodied (fun _ => True) level.ruler body)
    (h : Opens F level body i s u b t) (h' : Opens F' level body i t u' b' t')
    (htables : b.kindName = "Table" → b'.kindName ≠ "Table") :
    b.continues (announced level.room u') = false := by
  obtain ⟨measured, hline, hle⟩ := h'.line
  obtain ⟨v, -, -, hmade⟩ := h.made hbody
  obtain ⟨v', -, -, hmade'⟩ := h'.made hbody
  by_cases hm : announced level.room u = .table
  · rw [hm] at hmade
    cases hmade with
    | table =>
      refine decide_eq_false fun hm' => ?_
      rw [hm'] at hmade'
      cases hmade' with
      | table => exact htables rfl rfl
  · exact declines_continues hmade hm measured u' hline hle

end Parse

namespace Stretch

variable {x : Stretch} {s e : Lexer Cursor}

theorem Near.exists_newlines (h : x.Near s e) (hfree : ¬ x.free)
    (he : ∀ tok ∈ e.pending, tok.tag = .newline) : ∃ us vs : List Token,
      (∀ u ∈ us, u.tag = .newline) ∧ (∀ v ∈ vs, v.tag = .newline) ∧
        us ++ s.pending = vs ++ x.rest := by
  cases h with
  | within h _ =>
    refine ⟨[], e.pending.map (.moved x.origin), by simp, fun v hv => ?_, h.pending⟩
    obtain ⟨tok, htok, rfl⟩ := List.mem_map.1 hv
    exact he tok htok
  | past h =>
    obtain ⟨us, hus, hrest⟩ := (h.rear.resolve_left hfree).skipped
    exact ⟨us, [], hus, by simp, hrest.symm⟩

end Stretch

namespace Reader

variable {F : Fault → Prop} {o : Options} {src : Source} {lo : Nat} {r : Reader} {b b' : Block}
  {bs : List Block} {s t u f g k : Lexer Cursor} {text text' : List Char} {marker : Marker}
  {us vs ts : List Token}

theorem Stands.drains_cons (h : Stands (fun _ => True) o src lo r) (hd : r.Drains bs)
    (hus : ∀ u ∈ us, u.tag = .newline) (hvs : ∀ v ∈ vs, v.tag = .newline)
    (hts : (ts.head?.map Token.tag).any Tag.isContent = true)
    (hp : us ++ r.lexer.pending = vs ++ ts) :
    ∃ (b : Block) (bs' : List Block) (r' : Reader) (u : Lexer Cursor), bs = b :: bs' ∧
      Opens (fun _ => True) o r.lexer u b r'.lexer ∧ u.pending = ts ∧
      Stands (fun _ => True) o src b.stop r' ∧ r'.started = true ∧ r'.Drains bs' := by
  -- What is skipped ends where the content begins.
  have hahead {u : Lexer Cursor} (hskips : r.lexer.Skips u) : ∃ ws, ws ++ u.pending = vs ++ ts ∧
      ∀ w ∈ ws, (w.tag.isInlineSpace || w.tag == .newline) = true := by
    obtain ⟨ws, hws, hw⟩ := hskips.white
    refine ⟨us ++ ws, by rw [List.append_assoc, ← hws, hp], fun w hmem => ?_⟩
    exact (List.mem_append.1 hmem).elim (Token.white_of_newline hus w) (hw w)
  have hne {u : Lexer Cursor} (hskips : r.lexer.Skips u) : u.pending ≠ [] := by
    intro hnil
    obtain ⟨ws, hws, hw⟩ := hahead hskips
    cases ts with
    | nil => simp at hts
    | cons tok ts =>
      have htok := hw tok (by
        rw [hnil, List.append_nil] at hws
        simp [hws])
      obtain ⟨hspace, hline⟩ := Tag.isContent_iff.1 (by simpa using hts)
      simp only [hspace, Bool.false_or, beq_iff_eq] at htok
      simp [htok, Tag.endsLine] at hline
  cases hd with
  | last hnext _ =>
    obtain ⟨hskips, hnil⟩ := h.of_next_none (excused_true o _) hnext
    exact absurd hnil (hne hskips)
  | @block _ r' b bs hnext hd =>
    rcases h.of_next_some (excused_true o _) hnext with
      ⟨u, hopens, hstands, hstarted⟩ | ⟨-, -, -, hskips, hnil⟩
    · obtain ⟨ws, hws, hw⟩ := hahead hopens.skips
      exact ⟨b, bs, r', u, rfl, hopens, Lexer.eq_of_white hw (Token.white_of_newline hvs)
        (Lexer.isContent_ahead_iff.1 hopens.content) hts hws, hstands, hstarted, hd⟩
    · exact absurd hnil (hne hskips)

theorem Starts.begins (h : Starts o text f) : Document.Begins o (String.ofList text) f :=
  ⟨h.line, h.steady, h.source.trans String.toList_ofList.symm, h.lastEnd, h.wordStart, h.content,
    .inr h.spare⟩

theorem Starts.isContent (h : Starts o text f) :
    ((tokenize text).head?.map Token.tag).any Tag.isContent = true :=
  h.pending ▸ Lexer.isContent_ahead_iff.1 h.content

theorem Starts.tokenize_ne_nil (h : Starts o text f) : tokenize text ≠ [] := by
  intro hnil
  have hcontent := h.isContent
  simp [hnil] at hcontent

theorem Starts.isContent_moved (h : Starts o text f) (n : Nat) :
    (((tokenize text).map (.moved n)).head?.map Token.tag).any Tag.isContent = true := by
  rw [List.head?_map, Option.map_map]
  exact h.isContent

theorem Starts.isContent_append (h : Starts o text f) {ts : List Token} :
    ((tokenize text ++ ts).head?.map Token.tag).any Tag.isContent = true := by
  rw [List.head?_append_of_ne_nil _ h.tokenize_ne_nil, h.isContent]

theorem Starts.plain (h : Starts o text f) (hvs : ∀ v ∈ vs, v.tag = .newline) (n : Nat) :
    Token.Plain (vs ++ (tokenize text).map (.moved n)) := by
  have hcontent := h.isContent_moved n
  cases hmoved : (tokenize text).map (Token.moved n) with
  | nil => simp [hmoved] at hcontent
  | cons tok toks => exact ⟨vs, tok, toks, rfl, hvs, by simpa [hmoved] using hcontent⟩

theorem exists_opens_start (hts : ((tokenize text).head?.map Token.tag).any Tag.isContent = true)
    (hd : (start o (String.ofList text)).Drains bs) :
    ∃ (b : Block) (bs' : List Block) (r : Reader) (u : Lexer Cursor), bs = b :: bs' ∧
      Opens (fun _ => True) o (start o (String.ofList text)).lexer u b r.lexer ∧
      u.pending = tokenize text ∧ u.observer.wordStart = true ∧
      Stands (fun _ => True) o (Source.ofString (String.ofList text)) b.stop r ∧ r.Drains bs' := by
  have hstands := start_stands (F := fun _ => True) (o := o) (String.ofList text)
    (.inl fun _ => trivial)
  have hp : (start o (String.ofList text)).lexer.pending = tokenize text :=
    (pending_start ..).trans (congrArg tokenize String.toList_ofList)
  have hnil : [] ++ (start o (String.ofList text)).lexer.pending = [] ++ tokenize text := hp
  obtain ⟨b, bs', r, u, rfl, hopens, hpu, hr, -, hd'⟩ :=
    hstands.drains_cons hd (by simp) (by simp) hts hnil
  exact ⟨b, bs', r, u, rfl, hopens, hpu,
    (hstands.settled.skips hopens.skips).wordStart hopens.content, hr, hd'⟩

theorem Starts.exists_drains (h : Starts o text' k) (hpeeks : Lexer.defaultLimit ≤ o.maxPeeks)
    (hr : Stands (fun _ => True) o (Source.ofString (String.ofList (text ++ '\n' :: text'))) lo r)
    (hd : r.Drains bs) (hus : ∀ u ∈ us, u.tag = .newline) (hvs : ∀ v ∈ vs, v.tag = .newline)
    (hp : us ++ r.lexer.pending =
      vs ++ (tokenize text').map (.moved (Text.byteSize text + 1))) :
    ∃ bs', (start o (String.ofList text')).Drains bs' ∧
      bs = bs'.map (.moved (Text.byteSize text + 1)) := by
  have hsize : Text.byteSize (text ++ ['\n']) = Text.byteSize text + 1 := Text.byteSize_append ..
  obtain ⟨b, bs', r', u, rfl, hopens, hpu, hr', hstarted, hd'⟩ :=
    hr.drains_cons hd hus hvs (h.isContent_moved _) hp
  have hchars : u.source.chars = (text ++ ['\n']) ++ (String.ofList text').toList := by
    rw [hopens.skips.source, hr.source, String.toList_ofList, List.append_assoc]
    exact String.toList_ofList
  have hnext : u.nextOffset = Text.byteSize (text ++ ['\n']) := by
    obtain ⟨hpos, hconsumed, -⟩ := hopens.steady.sound.position
    rw [hchars, hpu, Token.texts_map_moved, texts_tokenize, String.toList_ofList] at hpos
    rw [← hconsumed, List.append_cancel_right hpos]
  have habreast := h.begins.abreast hopens.steady hchars (hnext ▸ hopens.steady.lastEnd_le)
    ((hr.settled.skips hopens.skips).wordStart hopens.content) (by rw [hpu, h.pending, hsize])
  rw [← hsize]
  refine hd'.crosses hstarted hr' hopens trivial ?_ habreast
    (start_stands (String.ofList text') (.inr hpeeks)) h.line h.steady h.content (.inr h.spare)
  show _ ≤ Text.byteSize (text ++ ['\n']) + Text.byteSize (String.ofList text').toList
  rw [← Text.byteSize_append, ← hchars, hopens.skips.source, hr.source, Source.size_eq]

theorem Starts.announced_append (h : Starts o text f) (h' : Starts o (text ++ '\n' :: text') k)
    (room : Nat) : Parse.announced room k = Parse.announced room f := by
  have hp := h'.pending
  rw [tokenize_append_newline] at hp
  rw [← texts_tokenize text] at h
  have habreast : (Stretch.ahead k (tokenize text) _ True (.inl trivial)).Abreast True k f :=
    h.abreast h'.steady h'.wordStart hp (.inl ⟨trivial, .inr rfl⟩)
  obtain ⟨_, _, hdispatch⟩ := h'.exists_dispatch room
  obtain ⟨_, _, hdispatch'⟩ := h.exists_dispatch room
  exact Parse.announced_of_abreast habreast hdispatch hdispatch'

structure Fills (o : Options) (text nl : List Char) (marker : Marker) (b : Block)
    (f g : Lexer Cursor) : Prop extends Holds o (text ++ nl) marker b f g where
  newline : nl = [] ∨ nl = ['\n']
  line : (text ++ nl).getLast? = some '\n'
  lastEnd : g.observer.lastEnd = Text.byteSize text

theorem Opens.exists_fills (hpeeks : Lexer.defaultLimit ≤ o.maxPeeks) (h : Opens F o s u b t)
    (hset : s.Settled) (hb : ∀ span, b ≠ .separator span) (hmore : t.pending ≠ []) :
    ∃ nl b' f g, Fills o (u.source.excerpt b).text.toList nl (Parse.announced o.level.room u)
      b' f g ∧ b = b'.moved b.start := by
  have hu := h.steady.sound
  have hspelled : ∀ tok ∈ u.pending, tok.Spelled := fun tok htok => hu.spelled htok
  have hstart := h.spans.start
  obtain ⟨ts, rest, hp, hcut, hbounds, htext⟩ := h.exists_cut hb
  rw [htext]
  rcases hbounds with (rfl | hhead) | hlast
  · refine absurd (h.spans.steady.sound.pending_nil_of_size_le ?_) hmore
    have hsize := congrArg Text.byteSize hu.position.1
    rw [Text.byteSize_append, hu.position.2.1, hp, List.append_nil] at hsize
    have hle := h.spans.steady.lastEnd_le
    rw [h.spans.source, Source.size_eq]
    omega
  · obtain ⟨tok, rest, rfl⟩ := List.exists_cons_of_ne_nil (l := rest) (by
      rintro rfl
      simp at hhead)
    have htag : tok.tag = .newline := by simpa using hhead
    have hnl : Token.texts (ts ++ [tok]) = Token.texts ts ++ ['\n'] := by
      rw [Token.texts_append, Token.texts_cons, Token.texts_nil, List.append_nil,
        (hspelled tok (by simp [hp])).newline htag]
    have hp' : u.pending = (ts ++ [tok]) ++ rest := by rw [hp, List.append_assoc]; rfl
    have hsize := congrArg Text.byteSize hnl
    rw [Text.byteSize_append] at hsize
    obtain ⟨b', f, g, hholds, hmoved, hlast⟩ := h.holds hpeeks hset hp' (.inr (by simp [htag]))
      (by omega)
    rw [hnl] at hholds
    exact ⟨['\n'], b', f, g, ⟨hholds, .inr rfl, by simp, by omega⟩, hstart ▸ hmoved⟩
  · have hline : (Token.texts ts).getLast? = some '\n' :=
      Token.getLast?_texts (fun tok htok => hspelled tok (by simp [hp, htok])) hlast
    obtain ⟨b', f, g, hholds, hmoved, hlast⟩ := h.holds hpeeks hset hp (.inr hlast) (by omega)
    rw [← List.append_nil (Token.texts ts)] at hholds hline
    exact ⟨[], b', f, g, ⟨hholds, .inl rfl, hline, by omega⟩, hstart ▸ hmoved⟩

namespace Fills

variable {nl : List Char}

theorem newline_of_mem (h : Fills o text nl marker b f g) :
    ∀ tok ∈ g.pending, tok.tag = .newline := by
  intro tok htok
  obtain ⟨hchars, hsize, -⟩ := h.steady.sound.position
  rw [h.onward.source, h.starts.source] at hchars
  have hle := h.steady.lastEnd_le
  obtain ⟨cs, -, hnl⟩ := Text.exists_append_of_byteSize_le hchars (by
    rw [hsize, ← h.lastEnd]
    exact hle)
  have hspelled := h.steady.sound.spelled htok
  obtain ⟨c, hc⟩ := List.exists_mem_of_ne_nil _ hspelled.text_ne_nil
  have hmem : c ∈ nl := by
    rw [hnl]
    exact List.mem_append_right _ (List.mem_flatMap.2 ⟨tok, htok, hc⟩)
  by_contra htag
  apply hspelled.newline_not_mem htag
  rcases h.newline with rfl | rfl
  · simp at hmem
  · rwa [List.mem_singleton.1 hmem] at hc

theorem exists_tokenize (h : Fills o text nl marker b f g) (text' : List Char) :
    ∃ vs, (∀ v ∈ vs, v.tag = .newline) ∧
      tokenize (text ++ '\n' :: text') = tokenize (text ++ nl) ++
        (vs ++ (tokenize text').map (.moved (Text.byteSize text + 1))) ∧
      (nl = [] → vs.head?.map Token.tag = some .newline) := by
  rw [tokenize_append_newline]
  rcases h.newline with rfl | rfl
  · exact ⟨[⟨.newline, Text.byteSize text, ['\n']⟩], by simp, by rw [List.append_nil]; rfl,
      fun _ => rfl⟩
  · refine ⟨[], by simp, ?_, by simp⟩
    rw [tokenize_append_newline, List.append_assoc]
    rfl

theorem not_over {x : Stretch} (h : Fills o text nl marker b f g) (hfree : ¬ x.free)
    (hrest : nl = [] → x.rest.head?.map Token.tag = some .newline) : ¬ x.Over g := by
  intro hover
  obtain ⟨hne, hlast⟩ := hover.full.resolve_left hfree
  rcases h.newline with rfl | rfl
  · exact hne (hrest rfl)
  · obtain ⟨hchars, hsize, -⟩ := h.steady.sound.position
    rw [hover.ended, Token.texts_nil, List.append_nil, h.onward.source, h.starts.source] at hchars
    rw [← hchars, Text.byteSize_append, ← hlast, h.lastEnd] at hsize
    have hone : Text.byteSize ['\n'] = 1 := rfl
    omega

theorem closes {x : Stretch} {n : Nat} (h : Fills o text nl marker b f g) (hk : Starts o text' k)
    (hgo : b.continues (Parse.announced o.level.room k) = false)
    (hvs : ∀ v ∈ vs, v.tag = .newline) (hrest : x.rest = vs ++ (tokenize text').map (.moved n)) :
    x.Closes o.level.room (Parse.opened o.level (Parse.body o.level.ruler o.level.room) 0) f := by
  refine ⟨b, g, h.opened, fun v hv => ?_⟩
  obtain ⟨ws, hws, hrest'⟩ := hv.skipped
  have hpv : v.pending = k.pending.map (.moved n) := by
    rw [hk.pending]
    exact Lexer.eq_of_white (Token.white_of_newline hws) (Token.white_of_newline hvs)
      (Lexer.isContent_ahead_iff.1 hv.content) (hk.isContent_moved n) (hrest'.symm.trans hrest)
  rw [Parse.announced_moved hpv, hgo]

theorem exists_drains (h : Fills o text nl marker b f g) (hpeeks : Lexer.defaultLimit ≤ o.maxPeeks)
    (hk : Starts o text' k) (hgo : b.continues (Parse.announced o.level.room k) = false)
    (hd : (start o (String.ofList (text ++ '\n' :: text'))).Drains bs) :
    ∃ b' bs', (start o (String.ofList text')).Drains bs' ∧
      bs = b' :: bs'.map (.moved (Text.byteSize text + 1)) ∧ b'.kindName = b.kindName := by
  obtain ⟨vs, hvs, htokens, hhead⟩ := h.exists_tokenize text'
  obtain ⟨b', bs', r, u, rfl, hopens, hp, hword, hr, hd'⟩ := exists_opens_start
    (htokens ▸ h.starts.isContent_append) hd
  rw [htokens] at hp
  have hstarts := h.starts
  rw [← texts_tokenize (text ++ nl)] at hstarts
  have hline : (tokenize (text ++ nl)).getLast?.map Token.tag = some .newline :=
    Token.tag_of_getLast?_texts (fun _ htok => spelled_of_mem_tokenize htok)
      (by rw [texts_tokenize, h.line])
  have hplain := hk.plain hvs (Text.byteSize text + 1)
  let x := Stretch.ahead u (tokenize (text ++ nl)) _ False (.inr hplain)
  have habreast : x.Abreast True u f := hstarts.abreast hopens.steady hword hp (.inr hline)
  have hcloses := h.closes (x := x) hk hgo hvs rfl
  have hfollows := (Parse.follows_opened (E := fun _ _ => False) (fun hr => Parse.nested_body hr)
    habreast hopens.steady h.starts.steady hopens.content h.starts.content
    (.inr (.inr hcloses))).of_ok hopens.opened
  rcases hfollows with ⟨-, hlost⟩ | hfollows
  · refine absurd (hlost.of_ok h.opened) (h.not_over id fun hnl => ?_)
    have hne : vs ≠ [] := by
      rintro rfl
      simpa using hhead hnl
    exact (congrArg _ (List.head?_append_of_ne_nil _ hne)).trans (hhead hnl)
  · obtain ⟨rfl, hnear⟩ := hfollows.of_ok h.opened
    obtain ⟨us, ws, hus, hws, hpr⟩ := hnear.exists_newlines id h.newline_of_mem
    obtain ⟨bs, hdrains, rfl⟩ := hk.exists_drains hpeeks hr hd' hus
      (fun w hw => (List.mem_append.1 hw).elim (hws w) (hvs w))
      (hpr.trans (List.append_assoc ..).symm)
    exact ⟨_, bs, hdrains, rfl, Block.kindName_moved ..⟩

end Fills

theorem Starts.exists_drains_of_equals (h : Starts o text f)
    (hm : Parse.announced o.level.room f = .separator)
    (hall : ∀ tok ∈ f.pending, tok.tag = .equals) (hpeeks : Lexer.defaultLimit ≤ o.maxPeeks)
    (hk : Starts o text' k) (hd : (start o (String.ofList (text ++ '\n' :: text'))).Drains bs) :
    ∃ b bs', (start o (String.ofList text')).Drains bs' ∧
      bs = b :: bs'.map (.moved (Text.byteSize text + 1)) ∧ b.kindName = "Separator" := by
  have htokens := tokenize_append_newline text text'
  obtain ⟨b, bs', r, u, rfl, hopens, hp, hword, hr, hd'⟩ := exists_opens_start
    (htokens ▸ h.isContent_append) hd
  rw [htokens] at hp
  rw [h.pending] at hall
  have hstarts := h
  rw [← texts_tokenize text] at hstarts
  have habreast : (Stretch.ahead u (tokenize text) _ True (.inl trivial)).Abreast True u f :=
    hstarts.abreast hopens.steady hword hp (.inl ⟨trivial, .inr rfl⟩)
  obtain ⟨_, _, hdispatch, -⟩ := Rule.exists_of_bind hopens.opened
  obtain ⟨_, _, hdispatch'⟩ := h.exists_dispatch o.level.room
  obtain ⟨hequals, -, rfl, v, hv, line, nl, htook, hline, hnl⟩ :=
    hopens.drops_of_announced ((Parse.announced_of_abreast habreast hdispatch hdispatch').trans hm)
  -- All equals signs are eaten, and nothing is left on their line.
  have hrun : (u.ahead 0).run u.pending = tokenize text := by
    rw [Token.run, hp, List.takeWhile_append_of_pos fun tok htok => by
      rw [hall tok htok, hequals, beq_self_eq_true]]
    simp [hequals]
  have hpv := hv.pending
  rw [hrun, hp] at hpv
  have hpr := htook.pending
  rw [← List.append_cancel_left hpv, List.append_assoc] at hpr
  have hnil : line = [] := by
    cases line with
    | nil => rfl
    | cons tok line =>
      have htag := hline tok (by simp)
      rw [← (List.cons.inj hpr).1] at htag
      exact absurd rfl htag
  subst hnil
  have hpr : nl ++ r.lexer.pending = [⟨.newline, Text.byteSize text, ['\n']⟩] ++
      (tokenize text').map (.moved (Text.byteSize text + 1)) := hpr.symm
  obtain ⟨bs, hdrains, rfl⟩ := hk.exists_drains hpeeks hr hd' hnl (by simp) hpr
  exact ⟨_, bs, hdrains, rfl, rfl⟩

theorem Opens.exists_drains (hpeeks : Lexer.defaultLimit ≤ o.maxPeeks) (h : Opens F o s u b t)
    (hset : s.Settled) (hmore : t.pending ≠ []) (hk : Starts o text' k)
    (hgo : b.continues (Parse.announced o.level.room k) = false)
    (hd : (start o (String.ofList ((u.source.excerpt b).text.toList ++ '\n' :: text'))).Drains bs) :
    ∃ bs', (start o (String.ofList text')).Drains bs' ∧
      bs.map Block.kindName = b.kindName :: bs'.map Block.kindName := by
  have hkinds (n : Nat) (bs : List Block) :
      (bs.map (.moved n)).map Block.kindName = bs.map Block.kindName := by
    rw [List.map_map]
    exact List.map_congr_left fun b _ => b.kindName_moved n
  rcases h.drops Parse.bodied_body with hb | ⟨hm, hdrops⟩
  · obtain ⟨nl, b', f, g, hfills, hmoved⟩ := h.exists_fills hpeeks hset hb hmore
    rw [hmoved, Block.continues_moved] at hgo
    obtain ⟨b'', bs', hdrains, rfl, hname⟩ := hfills.exists_drains hpeeks hk hgo hd
    refine ⟨bs', hdrains, ?_⟩
    rw [List.map_cons, hkinds, hname, hmoved, Block.kindName_moved]
  · obtain ⟨b', f, g, hquotes, hall⟩ := h.exists_quotes_of_drops hpeeks hm hdrops
    obtain ⟨b'', bs', hdrains, rfl, hname⟩ :=
      hquotes.starts.exists_drains_of_equals (hquotes.announced.trans hm) hall hpeeks hk hd
    refine ⟨bs', hdrains, ?_⟩
    rw [List.map_cons, hkinds, hname, hdrops.block]
    rfl

def joined (src : Source) (bs : List Block) : List Char :=
  ['\n'].intercalate (bs.map fun b => (src.excerpt b).text.toList)

/-- What the excerpts of `b` and `bs` make together, where `b` is found at `u`: a text that begins
there and has blocks like them. -/
structure Joins (o : Options) (src : Source) (s u : Lexer Cursor) (b : Block) (t : Lexer Cursor)
    (bs : List Block) (f : Lexer Cursor) : Prop where
  opens : Opens (fun _ => True) o s u b t
  starts : Starts o (joined src (b :: bs)) f
  announced : Parse.announced o.level.room f = Parse.announced o.level.room u
  kinds : ∀ cs, (start o (String.ofList (joined src (b :: bs)))).Drains cs →
    cs.map Block.kindName = (b :: bs).map Block.kindName

theorem Opens.joins_nil (hpeeks : Lexer.defaultLimit ≤ o.maxPeeks)
    (h : Opens (fun _ => True) o s u b t) (hset : s.Settled) :
    ∃ f, Joins o u.source s u b t [] f := by
  obtain ⟨b', f, g, hquotes⟩ := h.exists_quotes hpeeks hset
  have hjoined : joined u.source [b] = (u.source.excerpt b).text.toList :=
    List.intercalate_singleton
  refine ⟨f, h, hjoined ▸ hquotes.starts, hquotes.announced, fun cs hcs => ?_⟩
  rw [hjoined] at hcs
  rw [hcs.eq ((Document.blocks_eq_ok_iff_drains hpeeks).1 (hquotes.blocks hquotes.ended))]
  conv_rhs => rw [hquotes.moved]
  exact congrArg (· :: []) (Block.kindName_moved ..).symm

theorem Joins.cons {u' t' : Lexer Cursor} (hpeeks : Lexer.defaultLimit ≤ o.maxPeeks)
    (h : Joins o src t u' b' t' bs k) (hopens : Opens (fun _ => True) o s u b t) (hset : s.Settled)
    (hsrc : u.source = src) (htables : b.kindName = "Table" → b'.kindName ≠ "Table") :
    ∃ f, Joins o src s u b t (b' :: bs) f := by
  subst hsrc
  obtain ⟨b'', f', g, hquotes⟩ := hopens.exists_quotes hpeeks hset
  have hjoined : joined u.source (b :: b' :: bs) =
      (u.source.excerpt b).text.toList ++ '\n' :: joined u.source (b' :: bs) :=
    List.intercalate_cons_cons.trans (List.append_assoc ..)
  obtain ⟨f, hf⟩ := exists_starts (o := o) hpeeks (joined u.source (b :: b' :: bs)) (by
    rw [hjoined, tokenize_append_newline]
    exact hquotes.starts.isContent_append)
  have hgo : b.continues (Parse.announced o.level.room k) = false := by
    rw [h.announced]
    exact hopens.continues_eq_false (fun hroom => Parse.bodied_body hroom) h.opens htables
  have hmore : t.pending ≠ [] := by
    intro hnil
    have hpu : u'.pending = [] := h.opens.skips.toOnward.pending_nil hnil
    have hcontent := h.opens.content
    simp [Lexer.ahead_zero_of_nil hpu, Tag.isContent, Tag.endsLine] at hcontent
  refine ⟨f, hopens, hf, ?_, fun cs hcs => ?_⟩
  · rw [hjoined] at hf
    exact (hquotes.starts.announced_append hf _).trans hquotes.announced
  · rw [hjoined] at hcs
    obtain ⟨cs', hcs', hkinds⟩ := hopens.exists_drains hpeeks hset hmore h.starts hgo hcs
    rw [hkinds, h.kinds cs' hcs']
    rfl

theorem Stands.ne_nil_of_drains (h : Stands F o src lo r) (hstarted : r.started = false)
    (hd : r.Drains bs) : bs ≠ [] := by
  rintro rfl
  cases hd with
  | last hnext _ =>
    cases hrule : rule r.options r.lexer with
    | ok c t =>
      cases c with
      | none => simp [next_of_none h.unfinished hrule, hstarted] at hnext
      | some b => simp [next_of_some h.unfinished hrule] at hnext
    | error e t =>
      cases e with
      | fault f => simp [next_of_fault h.unfinished hrule] at hnext
      | rejected e => exact e.elim

theorem Drains.exists_joins (h : r.Drains bs) (hpeeks : Lexer.defaultLimit ≤ o.maxPeeks)
    (hr : Stands (fun _ => True) o src lo r) (hne : bs ≠ [])
    (hreal : r.started = true ∨ bs ≠ [.dummy ⟨0, 0, 0⟩])
    (htables : bs.IsChain fun b b' => b.kindName = "Table" → b'.kindName ≠ "Table") :
    ∃ b bs' u t f, bs = b :: bs' ∧ Joins o src r.lexer u b t bs' f := by
  -- By induction on the blocks, where each is known not to go on with the next.
  induction h generalizing lo with
  | last _ _ => exact absurd rfl hne
  | @block r r' b bs hnext hdrains ih =>
    rcases hr.of_next_some (excused_true o _) hnext with
      ⟨u, hopens, hstands, hstarted⟩ | ⟨rfl, hstart, hfinished, -⟩
    · have hsrc : u.source = src := hopens.skips.source.trans hr.source
      cases bs with
      | nil =>
        obtain ⟨f, hjoins⟩ := hopens.joins_nil hpeeks hr.settled
        exact ⟨b, [], u, _, f, rfl, hsrc ▸ hjoins⟩
      | cons b' bs =>
        obtain ⟨htable, htables⟩ := List.isChain_cons_cons.1 htables
        obtain ⟨_, _, u', t', k, heq, hjoins⟩ := ih hstands (by simp) (.inl hstarted) htables
        obtain ⟨rfl, rfl⟩ := List.cons.inj heq
        obtain ⟨f, hjoins⟩ := hjoins.cons hpeeks hopens hr.settled hsrc htable
        exact ⟨b, _, u, _, f, rfl, hjoins⟩
    · obtain rfl := hdrains.eq (drains_of_finished hfinished)
      rcases hreal with hstarted | hreal
      · simp [hstart] at hstarted
      · exact absurd rfl hreal

end Reader

namespace Document

def joined (es : List Excerpt) : String := "\n".intercalate (es.map Excerpt.text)

theorem joined_excerpts (src : Source) (bs : List Block) :
    joined (bs.map src.excerpt) = String.ofList (Reader.joined src bs) := by
  rw [← String.toList_inj, joined, String.toList_intercalate, List.map_map, List.map_map]
  exact String.toList_ofList.symm

/-- Where no table is followed by another one, the excerpts of a document put together have blocks
of the same kinds in the same order. They are read to their end if their columns can be counted. -/
theorem kindName_joined (o : Options) (text : String) {bs : List Block}
    (hpeeks : 100 ≤ o.maxPeeks) (hbs : blocks o text = .ok bs)
    (htables : bs.IsChain fun b b' => b.kindName = "Table" → b'.kindName ≠ "Table") :
    ∃ es, excerpts o text = .ok es ∧
      (∀ cs, blocks o (joined es) = .ok cs → cs.map Block.kindName = bs.map Block.kindName) ∧
      (o.ruler.Counts (Source.ofString (joined es)) → ∃ cs, blocks o (joined es) = .ok cs) := by
  refine ⟨bs.map (Source.ofString text).excerpt, by rw [excerpts, hbs]; rfl, fun cs hcs => ?_,
    exists_blocks hpeeks⟩
  rw [joined_excerpts, blocks_eq_ok_iff_drains hpeeks] at hcs
  have hr := Reader.start_stands (F := fun _ => True) (o := o) text (.inl fun _ => trivial)
  have hdrains := (blocks_eq_ok_iff_drains hpeeks).1 hbs
  by_cases hdummy : bs = [.dummy ⟨0, 0, 0⟩]
  · subst hdummy
    have hjoined : Reader.joined (Source.ofString text) [.dummy ⟨0, 0, 0⟩] = [] :=
      List.intercalate_singleton.trans
        (String.toList_ofList.trans (Text.takeBytes_zero _))
    rw [hjoined] at hcs
    rw [hcs.eq ((blocks_eq_ok_iff_drains hpeeks).1 (Reader.blocks_empty hpeeks))]
  · obtain ⟨b, bs', u, t, f, rfl, hjoins⟩ := hdrains.exists_joins hpeeks hr
      (hr.ne_nil_of_drains rfl hdrains) (.inr hdummy) htables
    exact hjoins.kinds cs hcs

theorem kindName_joined_indented : 100 ≤ ({} : Options).maxPeeks ∧
    ∃ bs, blocks {} "\n  # a\n- b\n\n === c\n\t| d\n\te\n- f" = .ok bs ∧
      bs.map Block.kindName = ["Header", "List", "Separator", "Table", "List"] ∧
      (bs.IsChain fun b b' => b.kindName = "Table" → b'.kindName ≠ "Table") ∧
      ∃ es, excerpts {} "\n  # a\n- b\n\n === c\n\t| d\n\te\n- f" = .ok es ∧
        (∀ cs, blocks {} (joined es) = .ok cs → cs.map Block.kindName = bs.map Block.kindName) ∧
        (({} : Options).ruler.Counts (Source.ofString (joined es)) →
          ∃ cs, blocks {} (joined es) = .ok cs) := by
  have hpeeks : 100 ≤ ({} : Options).maxPeeks := Nat.le_refl _
  generalize htext : "\n  # a\n- b\n\n === c\n\t| d\n\te\n- f" = text
  have hfault : (read {} text).fault = none := by
    subst htext
    decide +kernel
  have hkinds : (read {} text).blocks.map Block.kindName =
      ["Header", "List", "Separator", "Table", "List"] := by
    subst htext
    decide +kernel
  have hbs : blocks {} text = .ok (read {} text).blocks := blocks_eq_ok_iff.2 ⟨hfault, rfl⟩
  have htables : (read {} text).blocks.IsChain
      fun b b' => b.kindName = "Table" → b'.kindName ≠ "Table" := by
    rw [← List.isChain_map Block.kindName (R := fun k k' => k = "Table" → k' ≠ "Table"), hkinds]
    decide
  exact ⟨hpeeks, _, hbs, hkinds, htables, kindName_joined {} text hpeeks hbs htables⟩

/-- An indented table behind another one becomes a part of it. -/
theorem exists_kindName_joined_ne : ∃ bs es cs, blocks {} "| a\n|-\n  | b" = .ok bs ∧
    excerpts {} "| a\n|-\n  | b" = .ok es ∧ joined es = "| a\n|-\n\n| b" ∧
    blocks {} (joined es) = .ok cs ∧ bs.map Block.kindName = ["Table", "Table"] ∧
    cs.map Block.kindName = ["Table"] := by
  have hfault : (read {} "| a\n|-\n  | b").fault = none := by decide +kernel
  have hbs := blocks_eq_ok_iff.2 ⟨hfault, rfl⟩
  have hfault' : (read {} "| a\n|-\n\n| b").fault = none := by decide +kernel
  have hcs := blocks_eq_ok_iff.2 ⟨hfault', rfl⟩
  have hjoined : joined ((read {} "| a\n|-\n  | b").blocks.map
      (Source.ofString "| a\n|-\n  | b").excerpt) = "| a\n|-\n\n| b" := by decide +kernel
  exact ⟨_, _, _, hbs, by rw [excerpts, hbs]; rfl, hjoined, by rw [hjoined, hcs], by decide +kernel,
    by decide +kernel⟩

end Document

end TaskMarkup
