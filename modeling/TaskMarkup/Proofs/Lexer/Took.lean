import TaskMarkup.Cursor
import TaskMarkup.Proofs.Lexer.Passed

/-!
Reading on. `s.Took ts t` says that the tokens `ts` were eaten between `s` and `t`, and nothing else
happened that a rule can notice: the cursor is what watching those tokens makes of it, but for its
log. The rules that only eat are described by the tokens that they take.
-/

namespace TaskMarkup

namespace Cursor

def after (c : Cursor) (ts : List Token) : Cursor := ts.foldl (fun c t => onEat t c) c

def quiet (c : Cursor) : Cursor := { c with log := [] }

@[simp] theorem after_nil (c : Cursor) : c.after [] = c := rfl

@[simp] theorem after_cons (c : Cursor) (t : Token) (ts : List Token) :
    c.after (t :: ts) = (onEat t c).after ts := rfl

@[simp] theorem after_append (c : Cursor) (as bs : List Token) :
    c.after (as ++ bs) = (c.after as).after bs := List.foldl_append

theorem quiet_onEat (t : Token) (c : Cursor) : (onEat t c).quiet = onEat t c.quiet := by
  unfold onEat note quiet
  split <;> rfl

theorem quiet_after (c : Cursor) (ts : List Token) : (c.after ts).quiet = c.quiet.after ts := by
  induction ts generalizing c with
  | nil => rfl
  | cons t ts ih => simp [ih, quiet_onEat]

theorem paused_after (c : Cursor) (ts : List Token) : (c.after ts).paused = c.paused := by
  induction ts generalizing c with
  | nil => rfl
  | cons t ts ih =>
    rw [after_cons, ih, onEat, note]
    split <;> rfl

variable {c : Cursor} {ts : List Token}

theorem lastEnd_after_of_paused (hp : c.paused = true) : (c.after ts).lastEnd = c.lastEnd := by
  induction ts generalizing c with
  | nil => rfl
  | cons t ts ih =>
    have hp' : (onEat t c).paused = true := (paused_after c [t]).trans hp
    rw [after_cons, ih hp', onEat, note]
    split
    · rfl
    · simp

theorem lastEnd_after (hp : c.paused = false) (hts : ∀ t ∈ ts, t.tag ≠ .eof) :
    (c.after ts).lastEnd = (ts.getLast?.map Token.stop).getD c.lastEnd := by
  induction ts generalizing c with
  | nil => rfl
  | cons t ts ih =>
    have ht : t.tag ≠ .eof := hts t (by simp)
    have hp' : (onEat t c).paused = false := (paused_after c [t]).trans hp
    rw [after_cons, ih hp' fun u hu => hts u (by simp [hu])]
    cases ts with
    | nil => simp [onEat, note, ht, hp]
    | cons u ts => simp [List.getLast?_cons]

theorem lineIndent_after (hts : ∀ t ∈ ts, t.tag ≠ .newline) :
    (c.after ts).lineIndent = c.lineIndent := by
  induction ts generalizing c with
  | nil => rfl
  | cons t ts ih =>
    rw [after_cons, ih fun u hu => hts u (by simp [hu]), onEat, note]
    split
    · rfl
    · simp [hts t (by simp)]

theorem wordStart_after (hne : ts ≠ [])
    (hts : ∀ t ∈ ts, (t.tag.isInlineSpace || t.tag == .newline) = true) :
    (c.after ts).wordStart = true := by
  induction ts generalizing c with
  | nil => exact absurd rfl hne
  | cons t ts ih =>
    cases ts with
    | nil =>
      have ht := hts t (by simp)
      have hne : t.tag ≠ .eof := by
        intro he
        simp [he, Tag.isInlineSpace] at ht
      simp [onEat, note, hne, ht]
    | cons u us => exact ih (by simp) fun v hv => hts v (List.mem_cons_of_mem _ hv)

end Cursor

namespace Lexer

structure Took (s : Lexer Cursor) (ts : List Token) (t : Lexer Cursor) : Prop where
  source : t.source = s.source
  limit : t.limit = s.limit
  cursor : t.observer.quiet = (s.observer.after ts).quiet
  pending : s.pending = ts ++ t.pending
  sound : t.Sound

variable {s t u : Lexer Cursor} {ts us : List Token} {tok : Token}

theorem Passed.took (h : s.Passed ts t) : s.Took ts t :=
  ⟨h.source, h.limit, by rw [h.observer]; rfl, h.pending, h.sound⟩

theorem Looks.took (h : Looks s t) : s.Took [] t := h.passed.took

theorem Eats.took (h : Eats s tok t) : s.Took [tok] t := h.passed.took

namespace Took

theorem refl (h : s.Sound) : s.Took [] s := (Looks.refl h).took

theorem trans (h : s.Took ts t) (h' : t.Took us u) : s.Took (ts ++ us) u where
  source := h'.source.trans h.source
  limit := h'.limit.trans h.limit
  cursor := by
    rw [h'.cursor, Cursor.quiet_after, h.cursor, ← Cursor.quiet_after, Cursor.after_append]
  pending := by rw [h.pending, h'.pending, List.append_assoc]
  sound := h'.sound

theorem looks (h : s.Took ts t) (h' : Looks t u) : s.Took ts u := by
  simpa using h.trans h'.took

theorem eats (h : s.Took ts t) (h' : Eats t tok u) : s.Took (ts ++ [tok]) u := h.trans h'.took

theorem pending_eq (h : s.Took [] t) : t.pending = s.pending := h.pending.symm

theorem paused (h : s.Took ts t) : t.observer.paused = s.observer.paused := by
  have := congrArg Cursor.paused h.cursor
  simpa [Cursor.quiet, Cursor.paused_after] using this

theorem lineIndent (h : s.Took ts t) (hts : ∀ t ∈ ts, t.tag ≠ .newline) :
    t.observer.lineIndent = s.observer.lineIndent := by
  have := congrArg Cursor.lineIndent h.cursor
  simpa [Cursor.quiet, Cursor.lineIndent_after hts] using this

theorem lineIndent_of_newline (h : s.Took [tok] t) (htok : tok.tag = .newline) :
    t.observer.lineIndent = none := by
  have := congrArg Cursor.lineIndent h.cursor
  simpa [Cursor.quiet, Cursor.after, Cursor.onEat, Cursor.note, htok] using this

theorem lastEnd_of_paused (h : s.Took ts t) (hp : s.observer.paused = true) :
    t.observer.lastEnd = s.observer.lastEnd := by
  have := congrArg Cursor.lastEnd h.cursor
  simpa [Cursor.quiet, Cursor.lastEnd_after_of_paused hp] using this

theorem lastEnd (h : s.Took ts t) (hs : s.Sound) (hp : s.observer.paused = false) :
    t.observer.lastEnd = (ts.getLast?.map Token.stop).getD s.observer.lastEnd := by
  have hne : ∀ t ∈ ts, t.tag ≠ .eof := fun t ht =>
    (hs.spelled (by rw [h.pending]; exact List.mem_append_left _ ht)).tag_ne_eof
  have := congrArg Cursor.lastEnd h.cursor
  simpa [Cursor.quiet, Cursor.lastEnd_after hp hne] using this

theorem wordStart (h : s.Took ts t) (hne : ts ≠ [])
    (hts : ∀ u ∈ ts, (u.tag.isInlineSpace || u.tag == .newline) = true) :
    t.observer.wordStart = true := by
  have := congrArg Cursor.wordStart h.cursor
  simpa [Cursor.quiet, Cursor.wordStart_after hne hts] using this

end Took

end Lexer

end TaskMarkup
