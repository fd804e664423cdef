import TaskMarkup.Proofs.Lexer.Onward

namespace TaskMarkup

variable {F : Fault → Prop} {s t : Lexer Cursor} {k : Nat}

namespace Cursor

def pause (paused : Bool) (c : Cursor) : Cursor := { c with paused }

def onLine (lineIndent : Option Nat) (c : Cursor) : Cursor := { c with lineIndent }

def noting (e : Event) (c : Cursor) : Cursor := { c with log := e :: c.log }

@[simp] theorem lastEnd_pause (p : Bool) (c : Cursor) : (c.pause p).lastEnd = c.lastEnd := rfl

@[simp] theorem paused_pause (p : Bool) (c : Cursor) : (c.pause p).paused = p := rfl

@[simp] theorem lineIndent_pause (p : Bool) (c : Cursor) :
    (c.pause p).lineIndent = c.lineIndent := rfl

@[simp] theorem lastEnd_onLine (m : Option Nat) (c : Cursor) :
    (c.onLine m).lastEnd = c.lastEnd := rfl

@[simp] theorem paused_onLine (m : Option Nat) (c : Cursor) : (c.onLine m).paused = c.paused := rfl

@[simp] theorem lineIndent_onLine (m : Option Nat) (c : Cursor) : (c.onLine m).lineIndent = m := rfl

end Cursor

namespace Lexer

def onCursor (f : Cursor → Cursor) (s : Lexer Cursor) : Lexer Cursor :=
  { s with observer := f s.observer }

variable {f : Cursor → Cursor}

@[simp] theorem source_onCursor : (s.onCursor f).source = s.source := rfl

@[simp] theorem pending_onCursor : (s.onCursor f).pending = s.pending := rfl

@[simp] theorem ready_onCursor : (s.onCursor f).ready = s.ready := rfl

@[simp] theorem observer_onCursor : (s.onCursor f).observer = f s.observer := rfl

@[simp] theorem ahead_onCursor (n : Nat) : (s.onCursor f).ahead n = s.ahead n := rfl

@[simp] theorem atEof_onCursor : (s.onCursor f).atEof = s.atEof := rfl

@[simp] theorem nextOffset_onCursor : (s.onCursor f).nextOffset = s.nextOffset := rfl

theorem Sound.onCursor (h : s.Sound) : (s.onCursor f).Sound := ⟨h.pending, h.ready⟩

theorem Spare.onCursor (h : s.Spare F k) : (s.onCursor f).Spare F k := h

theorem Sound.noting (h : s.Sound) (e : Event) : s.Took [] (s.onCursor (.noting e)) :=
  ⟨rfl, rfl, rfl, rfl, h.onCursor⟩

theorem Steady.onLine (h : s.Steady) (m : Option Nat) : (s.onCursor (.onLine m)).Steady :=
  ⟨h.sound.onCursor, h.unpaused, h.boundary, h.lastEnd_le, h.not_dangles, h.rests, h.gap⟩

theorem Skips.onLine (h : s.Skips t) (m : Option Nat) : s.Skips (t.onCursor (.onLine m)) :=
  ⟨⟨h.source, h.suffix, h.lastEnd_le⟩, h.white, h.sound.onCursor, h.unpaused, h.lastEnd,
    h.wordStart⟩

end Lexer

namespace Rule.Ends

variable {ε α : Type} {E : ε → Lexer Cursor → Prop}

theorem cursor {Q : Cursor → Lexer Cursor → Prop} (h : Q s.observer s) :
    Ends F (Rule.cursor : Rule ε Cursor Cursor) s Q E := h

theorem setPaused {p : Bool} {Q : Unit → Lexer Cursor → Prop} (h : Q () (s.onCursor (.pause p))) :
    Ends F (Rule.setPaused p : Rule ε Cursor Unit) s Q E := h

theorem setLineIndent {m : Option Nat} {Q : Unit → Lexer Cursor → Prop}
    (h : Q () (s.onCursor (.onLine m))) :
    Ends F (Rule.setLineIndent m : Rule ε Cursor Unit) s Q E := h

theorem record {e : Event} {Q : Unit → Lexer Cursor → Prop} (h : Q () (s.onCursor (.noting e))) :
    Ends F (Rule.record e : Rule ε Cursor Unit) s Q E := h

theorem endFrom {start : Nat} {Q : Nat → Lexer Cursor → Prop}
    (h : Q (max s.observer.lastEnd start) s) :
    Ends F (Rule.endFrom start : Rule ε Cursor Nat) s Q E := h

theorem paused {rule : Rule ε Cursor α} {Q : α → Lexer Cursor → Prop}
    (h : Ends F rule (s.onCursor (.pause true)) (fun a t =>
      ∃ ts, (s.onCursor (.pause true)).Took ts t ∧ (∀ u ∈ ts, (u.tag.isInlineSpace || u.tag == .newline) = true) ∧
        (s.Skips (t.onCursor (.pause false)) → Q a (t.onCursor (.pause false)))) E) :
    Ends F (Rule.paused rule) s Q E := by
  refine bind (setPaused (seq h ?_))
  rintro a t ⟨ts, ht, hts, hq⟩
  refine bind (setPaused (pure (hq ?_)))
  have hlast : t.observer.lastEnd = s.observer.lastEnd := ht.lastEnd_of_paused rfl
  refine ⟨⟨ht.source, ⟨ts, ht.pending.symm⟩, Nat.le_of_eq hlast.symm⟩, ⟨ts, ht.pending, hts⟩,
    ht.sound.onCursor, rfl, hlast, ?_⟩
  have hcursor := congrArg Cursor.wordStart ht.cursor
  cases ts with
  | nil => exact .inl ⟨ht.pending.symm, hcursor⟩
  | cons u us => exact .inr (ht.wordStart (by simp) hts)

end Rule.Ends

end TaskMarkup
