import TaskMarkup.Proofs.Lexer.Reads
import TaskMarkup.Proofs.Lexer.Watched

/-!
Rules only go on. Wherever a rule is run, it leaves a final part of the pending tokens, and the last
end that counts stays where it is or moves on. This holds of the primitives and is passed on by the
ways to combine rules, so it holds of every rule of the grammars without a condition on the text.
-/

namespace TaskMarkup

variable {ε δ α β : Type}

namespace Lexer

variable {s t u : Lexer Cursor} {cut : Nat}

structure Placed (s : Lexer Cursor) : Prop where
  sound : s.Sound
  lastEnd_le : s.observer.lastEnd ≤ s.nextOffset

theorem Steady.placed (h : s.Steady) : s.Placed := ⟨h.sound, h.lastEnd_le⟩

structure Moves (s t : Lexer Cursor) : Prop extends s.Onward t where
  placed : t.Placed

theorem Moves.refl (h : s.Placed) : s.Moves s := ⟨.refl s, h⟩

theorem Moves.trans (h : s.Moves t) (h' : t.Moves u) : s.Moves u :=
  ⟨h.toOnward.trans h'.toOnward, h'.placed⟩

theorem Placed.looks (h : s.Placed) (ht : s.Looks t) : s.Moves t where
  toOnward := ht.onward
  placed := by
    refine ⟨ht.sound, ?_⟩
    rw [ht.observer, ht.nextOffset_eq h.sound]
    exact h.lastEnd_le

theorem Placed.onCursor {f : Cursor → Cursor} (h : s.Placed)
    (hf : (f s.observer).lastEnd = s.observer.lastEnd) : s.Moves (s.onCursor f) where
  source := rfl
  suffix := List.suffix_refl _
  lastEnd_le := Nat.le_of_eq hf.symm
  placed := by
    refine ⟨h.sound.onCursor, ?_⟩
    rw [observer_onCursor, hf, nextOffset_onCursor]
    exact h.lastEnd_le

theorem Placed.took {ts : List Token} (h : s.Placed) (ht : s.Took ts t) : s.Moves t := by
  have hle := ht.nextOffset_le h.sound
  have hsuffix : t.pending <:+ s.pending := ⟨ts, ht.pending.symm⟩
  cases hp : s.observer.paused with
  | true =>
    have hlast := ht.lastEnd_of_paused hp
    refine ⟨⟨ht.source, hsuffix, Nat.le_of_eq hlast.symm⟩, ht.sound, ?_⟩
    rw [hlast]
    exact Nat.le_trans h.lastEnd_le hle
  | false =>
    cases ts with
    | nil =>
      have hlast : t.observer.lastEnd = s.observer.lastEnd := ht.lastEnd h.sound hp
      refine ⟨⟨ht.source, hsuffix, Nat.le_of_eq hlast.symm⟩, ht.sound, ?_⟩
      rw [hlast]
      exact Nat.le_trans h.lastEnd_le hle
    | cons tok ts =>
      have hlast := ht.lastEnd_eq h.sound hp (by simp)
      refine ⟨⟨ht.source, hsuffix, ?_⟩, ht.sound, Nat.le_of_eq hlast⟩
      rw [hlast]
      exact Nat.le_trans h.lastEnd_le hle

theorem Placed.advance_eof (h : s.Placed) (hp : s.pending = []) :
    s.Moves (s.advance (s.ahead 0)) := by
  obtain ⟨ahead, k, hr, ha, hk⟩ := h.sound.ready
  have hfilter := filter_tag_ne_eof ha k s.source.size
  have hnil : ahead = [] ∧ s.upcoming = [] := by
    rw [Lexer.pending, hr, hfilter] at hp
    simpa using hp
  have htag : (s.ahead 0).tag = .eof := ahead_zero_of_nil hp
  have hready : (s.advance (s.ahead 0)).ready.toList =
      List.replicate (k - 1) (Token.eof s.source.size) := by
    simp [advance, Lookahead.toList_pop, hr, hnil.1]
  have hpend : (s.advance (s.ahead 0)).pending = [] := by
    rw [Lexer.pending, hready, ← List.nil_append (List.replicate _ _),
      filter_tag_ne_eof (by simp)]
    exact hnil.2
  have hobs : (s.advance (s.ahead 0)).observer = s.observer := by
    simp [advance, Observer.onEat, Cursor.onEat, Cursor.note, htag]
  have hsound : (s.advance (s.ahead 0)).Sound := by
    refine ⟨?_, [], k - 1, hready, by simp, .inr hnil.2⟩
    rw [hpend, ← hp]
    exact h.sound.pending
  have hsrc : (s.advance (s.ahead 0)).source = s.source := rfl
  refine ⟨⟨hsrc, by simp [hpend, hp], by rw [hobs]⟩, hsound, ?_⟩
  have hnext : s.pending = [] ++ (s.advance (s.ahead 0)).pending := by rw [hp, hpend]; rfl
  rw [hobs, nextOffset_of_pending h.sound hsound hsrc hnext]
  exact Nat.le_trans h.lastEnd_le (Nat.le_add_right ..)

end Lexer

namespace Rule

def Advances (rule : Rule ε Cursor α) : Prop :=
  ∀ s : Lexer Cursor, s.Placed →
    Ends (fun _ => True) rule s (fun _ t => s.Moves t) fun _ t => s.Moves t

namespace Advances

variable {rule : Rule ε Cursor α}

theorem pure (a : α) : Advances (Pure.pure a : Rule ε Cursor α) :=
  fun _ hs => Ends.pure (.refl hs)

theorem bind {next : α → Rule ε Cursor β} (h : Advances rule) (hn : ∀ a, Advances (next a)) :
    Advances (rule >>= next) := by
  intro s hs
  apply Ends.bind
  apply (h s hs).imp
  intro a t ht
  apply (hn a t ht.placed).mono
  · exact fun b u hu => ht.trans hu
  · exact fun e u hu => ht.trans hu

theorem throw (f : Fault) : Advances (throw (.fault f) : Rule ε Cursor α) :=
  fun _ _ => Ends.throw trivial

theorem reject (e : ε) : Advances (Rule.reject e : Rule ε Cursor α) :=
  fun _ hs => Ends.reject (.refl hs)

theorem get : Advances (get : Rule ε Cursor (Lexer Cursor)) := fun _ hs => Ends.get (.refl hs)

theorem cursor : Advances (Rule.cursor : Rule ε Cursor Cursor) :=
  fun _ hs => Ends.cursor (.refl hs)

theorem setPaused (p : Bool) : Advances (Rule.setPaused p : Rule ε Cursor Unit) :=
  fun _ hs => Ends.setPaused (hs.onCursor rfl)

theorem setLineIndent (m : Option Nat) : Advances (Rule.setLineIndent m : Rule ε Cursor Unit) :=
  fun _ hs => Ends.setLineIndent (hs.onCursor rfl)

theorem record (e : Event) : Advances (Rule.record e : Rule ε Cursor Unit) :=
  fun _ hs => Ends.record (hs.onCursor rfl)

theorem endFrom (start : Nat) : Advances (Rule.endFrom start : Rule ε Cursor Nat) :=
  fun _ hs => Ends.endFrom (.refl hs)

theorem attempt (h : Advances rule) :
    Advances (Rule.attempt rule : Rule δ Cursor (Except ε α)) :=
  fun s hs => Ends.attempt (h s hs)

theorem peek (n : Nat) : Advances (Rule.peek n : Rule ε Cursor Token) := by
  intro s hs
  by_cases hn : n < lookaheadSize
  · have hspare : s.Spare (fun _ => True) 0 := .inl fun _ _ => trivial
    exact Ends.peek (.refl hs.sound) hn hspare (by decide) fun _ ht _ _ => hs.looks ht
  · simp [Ends, Rule.peek, Nat.le_of_not_lt hn]

theorem peekTag (n : Nat) : Advances (Rule.peekTag n : Rule ε Cursor Tag) :=
  .bind (.peek n) fun _ => .pure _

theorem eat : Advances (Rule.eat : Rule ε Cursor Token) := by
  intro s hs
  have hspare : s.Spare (fun _ => True) 0 := .inl fun _ _ => trivial
  apply Ends.bind
  apply Ends.peek (.refl hs.sound) (by decide) hspare (by decide)
  intro t ht _ hz
  apply Ends.bind
  apply Ends.modify
  apply Ends.pure
  have hst := hs.looks ht
  rw [← ht.ahead]
  cases hp : t.pending with
  | nil => exact hst.trans (hst.placed.advance_eof hp)
  | cons tok rest =>
    rw [Lexer.ahead_zero_of_cons hp]
    exact hst.trans (hst.placed.took (Lexer.advance_eats ht.sound hz hp).took)

theorem peekIf (tag : Tag) (n : Nat) : Advances (Rule.peekIf tag n : Rule ε Cursor _) :=
  .bind (.peek n) fun _ => .pure _

theorem eatIf (tag : Tag) : Advances (Rule.eatIf tag : Rule ε Cursor _) := by
  apply bind (.peekIf tag 0)
  intro r
  cases r with
  | none => exact .pure _
  | some _ => exact .bind .eat fun _ => .pure _

theorem eatMany (n : Nat) : Advances (Rule.eatMany n : Rule ε Cursor Unit) := by
  induction n with
  | zero => exact .pure _
  | succ n ih => exact .bind .eat fun _ => ih

theorem repeats (t : Token) : Advances (Rule.repeats t : Rule ε Cursor Nat) := by
  unfold Rule.repeats
  split
  · exact .pure _
  · split
    · exact .bind .get fun _ => .pure _
    · exact .pure _

theorem paused (h : Advances rule) : Advances (Rule.paused rule) :=
  .bind (.setPaused _) fun _ => .bind h fun _ => .bind (.setPaused _) fun _ => .pure _

theorem turns {step : β → Rule ε Cursor (Turn α β)} (h : ∀ b, Advances (step b)) (n : Nat) (b : β) :
    Advances (Rule.turns step n b) := by
  induction n generalizing b with
  | zero => exact .throw _
  | succ n ih =>
    apply bind (h b)
    intro turn
    cases turn with
    | done a => exact .pure a
    | again b => exact ih b

theorem loop {step : β → Rule ε Cursor (Turn α β)} (h : ∀ b, Advances (step b)) (b : β) :
    Advances (Rule.loop step b) :=
  .bind .get fun _ => .turns h _ b

theorem eatUntil (stop : Token → Bool) : Advances (Rule.eatUntil stop : Rule ε Cursor Unit) := by
  apply loop
  intro _
  apply bind (.peek 0)
  intro t
  split
  · exact .pure _
  · exact .bind .eat fun _ => .pure _

theorem readUntil (stop : Tag → Bool) :
    Advances (Rule.readUntil stop : Rule ε Cursor (List Char)) := by
  apply loop
  intro text
  apply bind (.peek 0)
  intro t
  split
  · exact .pure _
  · exact .bind .eat fun _ => .pure _

theorem eatInlineSpace : Advances (Rule.eatInlineSpace : Rule ε Cursor Unit) := eatUntil _

theorem eatLine : Advances (Rule.eatLine : Rule ε Cursor Unit) :=
  .bind (.eatUntil _) fun _ => .bind (.eatIf _) fun _ => .pure _

end Advances

end Rule

end TaskMarkup
