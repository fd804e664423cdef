import TaskMarkup.Proofs.Excerpt.Abreast
import TaskMarkup.Proofs.Grammar.Advances

namespace TaskMarkup

variable {ε ε' : Type} {x : Stretch} {loose : Prop} {s t e f : Lexer Cursor} {tok : Token}
  {ts : List Token}

theorem Lexer.spare_of_stalled {F : Fault → Prop} (h : ∀ peeks offset, F (.stalled peeks offset))
    (s : Lexer Cursor) : s.Spare F 0 := .inl h

theorem Rule.Advances.stays_over {α : Type} {rule : Rule ε Cursor α} (h : Advances rule) :
    Stays x.Over rule := by
  intro s hs
  apply (h s hs.toPlaced).mono
  · exact fun _ _ ht => hs.moves ht
  · exact fun _ _ ht => hs.moves ht

namespace Stretch

theorem lost (hcut : x.cut ≤ s.nextOffset) (ht : t.Steady)
    (hlt : s.nextOffset < t.observer.lastEnd) : t.Lost x.cut :=
  ⟨ht.placed, Nat.lt_of_le_of_lt hcut hlt⟩

theorem loses_eat (hs : s.Steady) (hcut : x.cut ≤ s.nextOffset) (hp : s.pending ≠ []) :
    Rule.Loses (Lexer.Lost x.cut) (Rule.eat : Rule ε Cursor Token) s := by
  obtain ⟨tok, rest, hp⟩ := List.exists_cons_of_ne_nil hp
  apply Rule.Ends.eat (.refl hs.sound) (s.spare_true 0) (by decide) hp
  intro t ht _ _
  have hlt := hs.nextOffset_lt ht.took (by simp)
  exact ⟨(hs.placed.took ht.took).placed, by omega⟩

theorem Beyond.loses_eat (h : x.Beyond s) :
    Rule.Loses (Lexer.Lost x.cut) (Rule.eat : Rule ε Cursor Token) s :=
  Stretch.loses_eat h.steady h.cut_le h.ne_nil

theorem Beyond.lost (h : x.Beyond s) (ht : s.Reads t) : t.Lost x.cut :=
  Stretch.lost h.cut_le (ht.firm h.firm).toSteady (ht.nextOffset_lt h.steady)

theorem Beyond.loses_eatMany {n : Nat} (h : x.Beyond s) (hn : 0 < n) :
    Rule.Loses (Lexer.Lost x.cut) (Rule.eatMany n : Rule ε Cursor Unit) s := by
  cases n with
  | zero => exact absurd hn (Nat.lt_irrefl 0)
  | succ n => exact h.loses_eat.bind fun _ => (Rule.Advances.eatMany n).stays

end Stretch

namespace Rule.Follows

variable {L : Rule.Loss} {E : Lexer Cursor → Lexer Cursor → Prop}

theorem peek {n : Nat} {Q : Token → Token → Lexer Cursor → Lexer Cursor → Prop} (hs : s.Looks t)
    (he : e.Looks f)
    (h : ∀ u g, s.Looks u → e.Looks g → 0 < u.ready.size → 0 < g.ready.size →
      Q (s.ahead n) (e.ahead n) u g) :
    Follows L (Rule.peek n : Rule ε Cursor Token) (Rule.peek n : Rule ε' Cursor Token) t f Q E := by
  by_cases hn : n < lookaheadSize
  · have hpeek : Ends (fun _ => True) (Rule.peek n : Rule ε Cursor Token) t
        (fun a u => a = s.ahead n ∧ s.Looks u ∧ 0 < u.ready.size) fun _ _ => False :=
      Ends.peek hs hn (t.spare_true 0) (by decide)
        fun u hu _ hz => ⟨rfl, hu, hz⟩
    have hpeek' : Ends Fault.IsInternal (Rule.peek n : Rule ε' Cursor Token) f
        (fun a g => a = e.ahead n ∧ e.Looks g ∧ 0 < g.ready.size) fun _ _ => False :=
      Ends.peek he hn (f.spare_internal 0) (by decide)
        fun u hu _ hz => ⟨rfl, hu, hz⟩
    apply weaken
    apply of_ends hpeek hpeek'
    rintro a a' u g ⟨rfl, hu, hz⟩ ⟨rfl, hg, hz'⟩
    exact h u g hu hg hz hz'
  · unfold Follows Ends
    simp [Rule.peek, Nat.le_of_not_lt hn]

theorem peekTag {n : Nat} {Q : Tag → Tag → Lexer Cursor → Lexer Cursor → Prop} (hs : s.Looks t)
    (he : e.Looks f)
    (h : ∀ u g, s.Looks u → e.Looks g → 0 < u.ready.size → 0 < g.ready.size →
      Q (s.ahead n).tag (e.ahead n).tag u g) :
    Follows L (Rule.peekTag n : Rule ε Cursor Tag) (Rule.peekTag n : Rule ε' Cursor Tag) t f Q E :=
  bind (peek hs he fun u g hu hg hz hz' => pure (h u g hu hg hz hz'))

theorem eat {Q : Token → Token → Lexer Cursor → Lexer Cursor → Prop}
    (hx : x.Abreast loose s e) (hs : s.Looks t) (he : e.Looks f) (hp : e.pending = tok :: ts)
    (h : ∀ u g, s.Eats (tok.moved x.origin) u → e.Eats tok g → g.pending = ts →
      Q (tok.moved x.origin) tok u g) :
    Follows L (Rule.eat : Rule ε Cursor Token) (Rule.eat : Rule ε' Cursor Token) t f Q E := by
  have hps : s.pending = tok.moved x.origin :: (ts.map (Token.moved x.origin) ++ x.rest) := by
    rw [hx.pending, hp]
    rfl
  have heat : Ends (fun _ => True) (Rule.eat : Rule ε Cursor Token) t
      (fun a u => a = tok.moved x.origin ∧ s.Eats (tok.moved x.origin) u) fun _ _ => False :=
    Ends.eat hs (t.spare_true 0) (by decide) hps fun u hu _ _ => ⟨rfl, hu⟩
  have heat' : Ends Fault.IsInternal (Rule.eat : Rule ε' Cursor Token) f
      (fun a g => a = tok ∧ e.Eats tok g ∧ g.pending = ts) fun _ _ => False :=
    Ends.eat he (f.spare_internal 0) (by decide) hp
      fun u hu hr _ => ⟨rfl, hu, hr⟩
  apply weaken
  apply of_ends heat heat'
  rintro a a' u g ⟨rfl, hu⟩ ⟨rfl, hg, hr⟩
  exact h u g hu hg hr

theorem eatAhead {Q : Token → Token → Lexer Cursor → Lexer Cursor → Prop}
    (hx : x.Abreast loose s e) (hs : s.Looks t) (he : e.Looks f)
    (hline : (e.ahead 0).tag.endsLine = false)
    (h : ∀ u g, x.Abreast loose u g → s.Eats ((e.ahead 0).moved x.origin) u →
      e.Eats (e.ahead 0) g → Q ((e.ahead 0).moved x.origin) (e.ahead 0) u g) :
    Follows L (Rule.eat : Rule ε Cursor Token) (Rule.eat : Rule ε' Cursor Token) t f Q E := by
  apply eat hx hs he (hx.cons hline)
  intro u g hu hg _
  refine h u g (hx.eats hu hg ?_) hu hg
  intro hn
  simp [hn, Tag.endsLine] at hline

theorem eatNext {Q : Token → Token → Lexer Cursor → Lexer Cursor → Prop}
    (hx : x.InLine loose s e) (hs : s.Looks t) (he : e.Looks f)
    (hline : (e.ahead 0).tag.endsLine = false)
    (h : ∀ u g, x.InLine loose u g → e.Eats (e.ahead 0) g →
      Q ((e.ahead 0).moved x.origin) (e.ahead 0) u g) :
    Follows L (Rule.eat : Rule ε Cursor Token) (Rule.eat : Rule ε' Cursor Token) t f Q E := by
  apply eat hx.toAbreast hs he (hx.cons hline)
  intro u g hu hg _
  refine h u g (hx.eats hu hg ?_) hg
  intro hn
  simp [hn, Tag.endsLine] at hline

theorem eatMany {n : Nat} {Q : Unit → Unit → Lexer Cursor → Lexer Cursor → Prop}
    (hx : x.Abreast loose s e) (hn : n ≤ e.pending.length)
    (h : ∀ u g, s.Took ((e.pending.take n).map (Token.moved x.origin)) u →
      e.Took (e.pending.take n) g → Q () () u g) :
    Follows L (Rule.eatMany n : Rule ε Cursor Unit) (Rule.eatMany n : Rule ε' Cursor Unit)
      s e Q E := by
  have htake : s.pending.take n = (e.pending.take n).map (Token.moved x.origin) := by
    rw [hx.pending, List.take_append_of_le_length (by simpa using hn), List.map_take]
  have hlen : n ≤ s.pending.length := by
    rw [hx.pending, List.length_append, List.length_map]
    omega
  apply weaken
  apply of_ends
    ((Ends.eatMany hx.sound hlen (s.spare_true 0) (by decide)).imp
      fun _ _ h => h.1)
    ((Ends.eatMany hx.sound' hn (e.spare_internal 0) (by decide)).imp
      fun _ _ h => h.1)
  intro _ _ u g hu hg
  rw [htake] at hu
  exact h u g hu hg

theorem eatUntil {stop : Token → Bool} {Q : Unit → Unit → Lexer Cursor → Lexer Cursor → Prop}
    (hx : x.Abreast loose s e) (hstop : ∀ t u : Token, t.tag = u.tag → stop t = stop u)
    (hnl : ∀ t : Token, t.tag = .newline → stop t = true)
    (h : ∀ u g, (∀ v ∈ e.pending.takeWhile fun v => !stop v, v.tag ≠ .newline) →
      s.Took ((e.pending.takeWhile fun v => !stop v).map (Token.moved x.origin)) u →
      e.Took (e.pending.takeWhile fun v => !stop v) g → Q () () u g) :
    Follows L (Rule.eatUntil stop : Rule ε Cursor Unit) (Rule.eatUntil stop : Rule ε' Cursor Unit)
      s e Q E := by
  have htake := hx.takeWhile (p := fun v => !stop v) (fun t u ht => by simp [hstop t u ht])
    fun t ht => by simp [hnl t ht]
  apply weaken
  apply of_ends
    ((Ends.eatUntil hx.sound (s.spare_true 0) (by decide)).imp
      fun _ _ h => h.1)
    ((Ends.eatUntil hx.sound' (e.spare_internal 0) (by decide)).imp
      fun _ _ h => h.1)
  intro _ _ u g hu hg
  rw [htake] at hu
  refine h u g (fun v hv hn => ?_) hu hg
  simpa [hnl v hn] using List.mem_takeWhile_imp hv

theorem eatInlineSpace (hx : x.InLine loose s e) :
    Follows L (Rule.eatInlineSpace : Rule ε Cursor Unit)
      (Rule.eatInlineSpace : Rule ε' Cursor Unit) s e (fun _ _ t f => x.InLine loose t f ∧
        e.Took (e.pending.takeWhile fun v => v.tag.isInlineSpace) f) E := by
  apply eatUntil hx.toAbreast
  · exact fun t u ht => by rw [ht]
  · exact fun t ht => by simp [ht, Tag.isInlineSpace]
  · intro u g hn hu hg
    simp only [Bool.not_not] at hn hu hg
    exact ⟨hx.took hu hg hn, hg⟩

theorem readUntil {stop : Tag → Bool} (hx : x.InLine loose s e) :
    Follows L (Rule.readUntil stop : Rule ε Cursor (List Char))
      (Rule.readUntil stop : Rule ε' Cursor (List Char)) s e
      (fun text text' t f => text = text' ∧ x.InLine loose t f) E := by
  have htake := hx.takeWhile (p := fun v => !(v.tag.endsLine || stop v.tag))
    (fun t u ht => by rw [ht]) fun t ht => by simp [ht, Tag.endsLine]
  apply weaken
  apply of_ends
    (Ends.readUntil hx.sound (s.spare_true 0) (by decide))
    (Ends.readUntil hx.sound' (e.spare_internal 0) (by decide))
  rintro text text' u g ⟨hu, rfl, -⟩ ⟨hg, rfl, -⟩
  rw [htake] at hu ⊢
  refine ⟨Token.texts_map_moved _ _, hx.took hu hg fun v hv hn => ?_⟩
  simpa [hn, Tag.endsLine] using List.mem_takeWhile_imp hv

theorem eatIf {tag : Tag} (hx : x.InLine loose s e) (htag : tag.endsLine = false) :
    Follows L (Rule.eatIf tag : Rule ε Cursor _) (Rule.eatIf tag : Rule ε' Cursor _) s e
      (fun r r' t f => r = r'.map (Token.moved x.origin) ∧ x.InLine loose t f) E := by
  apply bind
  apply bind
  apply peek (.refl hx.sound) (.refl hx.sound')
  intro t f ht hf _ _
  have hsees := hx.sees_zero
  have hiff := hsees.tag_iff htag
  apply pure
  by_cases hc : (e.ahead 0).tag = tag
  · rw [if_pos hc, if_pos (hiff.2 hc)]
    apply bind
    apply eatNext hx ht hf (by rw [hc, htag])
    intro u g hx _
    exact pure ⟨rfl, hx⟩
  · rw [if_neg hc, if_neg fun h => hc (hiff.1 h)]
    exact pure ⟨rfl, hx.looks ht hf⟩

theorem repeats (hx : x.Abreast loose s e) (hp : e.pending = tok :: ts) {c : Char}
    (hc : tok.tag.char? = some c) (hnl : tok.tag ≠ .newline) :
    Follows L (Rule.repeats (tok.moved x.origin) : Rule ε Cursor Nat)
      (Rule.repeats tok : Rule ε' Cursor Nat) s e
      (fun n n' t f => n = n' ∧ n' = (tok.run e.pending).length ∧ t = s ∧ f = e) E := by
  have hps : s.pending = tok.moved x.origin :: (ts.map (Token.moved x.origin) ++ x.rest) := by
    rw [hx.pending, hp]
    rfl
  apply weaken
  apply of_ends (Ends.repeats hx.sound hps hc) (Ends.repeats hx.sound' hp hc)
  rintro n n' _ _ ⟨rfl, rfl⟩ ⟨rfl, rfl⟩
  exact ⟨hx.run hnl, rfl, rfl, rfl⟩

theorem cursor {Q : Cursor → Cursor → Lexer Cursor → Lexer Cursor → Prop}
    (h : Q s.observer e.observer s e) :
    Follows L (Rule.cursor : Rule ε Cursor Cursor) (Rule.cursor : Rule ε' Cursor Cursor) s e Q E :=
  .inr h

theorem setPaused {p : Bool} {Q : Unit → Unit → Lexer Cursor → Lexer Cursor → Prop}
    (h : Q () () (s.onCursor (.pause p)) (e.onCursor (.pause p))) :
    Follows L (Rule.setPaused p : Rule ε Cursor Unit) (Rule.setPaused p : Rule ε' Cursor Unit)
      s e Q E :=
  .inr h

theorem paused {α α' : Type} {rule : Rule ε Cursor α} {rule' : Rule ε' Cursor α'}
    {Q : α → α' → Lexer Cursor → Lexer Cursor → Prop}
    (h : Follows .none rule rule' (s.onCursor (.pause true)) (e.onCursor (.pause true))
      (fun a a' t f => Q a a' (t.onCursor (.pause false)) (f.onCursor (.pause false))) E) :
    Follows L (Rule.paused rule) (Rule.paused rule') s e Q E := by
  apply bind
  apply setPaused
  apply seq h
  intro a a' t f hq
  apply bind
  apply setPaused
  exact pure hq

theorem setLineIndent {m m' : Option Nat} {Q : Unit → Unit → Lexer Cursor → Lexer Cursor → Prop}
    (h : Q () () (s.onCursor (.onLine m)) (e.onCursor (.onLine m'))) :
    Follows L (Rule.setLineIndent m : Rule ε Cursor Unit)
      (Rule.setLineIndent m' : Rule ε' Cursor Unit) s e Q E :=
  .inr h

theorem record {ev ev' : Event} {Q : Unit → Unit → Lexer Cursor → Lexer Cursor → Prop}
    (h : Q () () (s.onCursor (.noting ev)) (e.onCursor (.noting ev'))) :
    Follows L (Rule.record ev : Rule ε Cursor Unit) (Rule.record ev' : Rule ε' Cursor Unit)
      s e Q E :=
  .inr h

theorem get {Q : Lexer Cursor → Lexer Cursor → Lexer Cursor → Lexer Cursor → Prop}
    (h : Q s e s e) :
    Follows L (MonadState.get : Rule ε Cursor _) (MonadState.get : Rule ε' Cursor _) s e Q E :=
  .inr h

theorem endFrom {start : Nat} {Q : Nat → Nat → Lexer Cursor → Lexer Cursor → Prop}
    (hl : max s.observer.lastEnd x.origin = e.observer.lastEnd + x.origin)
    (h : Q (max e.observer.lastEnd start + x.origin) (max e.observer.lastEnd start) s e) :
    Follows L (Rule.endFrom (start + x.origin) : Rule ε Cursor Nat)
      (Rule.endFrom start : Rule ε' Cursor Nat) s e Q E := by
  have hmax : max s.observer.lastEnd (start + x.origin) =
      max e.observer.lastEnd start + x.origin := by omega
  refine .inr ?_
  show Q (max s.observer.lastEnd (start + x.origin)) _ s e
  rw [hmax]
  exact h

end Rule.Follows

end TaskMarkup
