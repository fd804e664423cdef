import TaskMarkup.Document
import TaskMarkup.Proofs.Grammar.Block

namespace TaskMarkup

namespace Reader

variable {r : Reader} {t : Lexer Cursor} {b : Block}

theorem pending_start (o : Options) (text : String) :
    (start o text).lexer.pending = tokenize text.toList := Lexer.pending_start ..

def rule (o : Options) : Parse (Option Block) :=
  Parse.nextBlock o.level (Parse.body o.level.ruler o.level.room) 0

def search (r : Reader) : Reading (Option Block) := do
  match ← run (rule r.options) with
  | some b =>
    modify ({ · with started := true })
    return some b
  | none =>
    modify ({ · with started := true, finished := true })
    return if r.started then none else some (.dummy ⟨0, 0, 0⟩)

theorem run_next (r : Reader) :
    next.run r = (if r.finished then pure none else r.search : Reading (Option Block)) r := rfl

theorem next_of_finished (h : r.finished = true) : next.run r = .ok none r := by
  rw [run_next, if_pos h]
  rfl

theorem next_of_some (hf : r.finished = false) (h : rule r.options r.lexer = .ok (some b) t) :
    next.run r = .ok (some b) { r with lexer := t, started := true } := by
  rw [run_next, if_neg (by simp [hf]), search]
  simp only [bind, EStateM.bind, run, h]
  rfl

theorem next_of_none (hf : r.finished = false) (h : rule r.options r.lexer = .ok none t) :
    next.run r = .ok (if r.started then none else some (.dummy ⟨0, 0, 0⟩))
      { r with lexer := t, started := true, finished := true } := by
  rw [run_next, if_neg (by simp [hf]), search]
  simp only [bind, EStateM.bind, run, h]
  rfl

theorem next_of_fault {f : Fault} (hf : r.finished = false)
    (h : rule r.options r.lexer = .error (.fault f) t) :
    next.run r = .error f { r with lexer := t } := by
  rw [run_next, if_neg (by simp [hf]), search]
  simp only [bind, EStateM.bind, run, h]

/-- The reader stands between two blocks, and the last of them ended before `lo`. -/
structure Stands (F : Fault → Prop) (o : Options) (src : Source) (lo : Nat) (r : Reader) : Prop where
  options : r.options = o
  source : r.lexer.source = src
  steady : r.lexer.Steady
  rests : Parse.Rests F 0 r.lexer
  settled : r.lexer.Settled
  unfinished : r.finished = false
  lo_le : lo ≤ r.lexer.nextOffset
  fresh : r.started = false → r.lexer.nextOffset = 0

variable {F : Fault → Prop} {o : Options} {src : Source} {lo : Nat}

theorem start_stands (text : String) (hF : (∀ f, F f) ∨ Lexer.defaultLimit ≤ o.maxPeeks) :
    Stands F o (Source.ofString text) 0 (start o text) where
  options := rfl
  source := rfl
  steady := by
    have hbefore : (Source.ofString text).before 0 = [] := Text.takeBytes_zero _
    have hconsumed : (start o text).lexer.consumed = [] := Lexer.consumed_start ..
    refine ⟨Lexer.start_sound .., rfl, Source.isBoundary_zero _, Nat.zero_le _, ?_,
      .inr (.inr rfl), [], ?_, Text.white_nil⟩
    · exact hbefore ▸ Text.not_dangles_nil
    · rw [hconsumed, List.append_nil]
      exact hbefore.symm
  rests := by
    refine .fresh rfl ⟨.inr rfl, fun _ => rfl⟩ (hF.imp (fun h _ _ => h _) fun h => ⟨?_, Nat.zero_le _⟩)
    exact Nat.le_trans h (Nat.le_max_left ..)
  settled := ⟨.inr rfl, fun _ => rfl⟩
  unfinished := rfl
  lo_le := Nat.zero_le _
  fresh _ := by
    have hstart := (Lexer.start_sound (Source.ofString text) o.maxPeeks ({} : Cursor)).position.2.1
    rw [Lexer.consumed_start, Text.byteSize_nil] at hstart
    exact hstart.symm

abbrev Opens (F : Fault → Prop) (o : Options) (s u : Lexer Cursor) (b : Block)
    (t : Lexer Cursor) : Prop :=
  Parse.Opens F o.level (Parse.body o.level.ruler o.level.room) 0 s u b t

inductive Steps (F : Fault → Prop) (o : Options) (src : Source) (lo : Nat) (r : Reader) : Prop
  | block {b : Block} {r' : Reader} {u : Lexer Cursor} : next.run r = .ok (some b) r' →
      Opens F o r.lexer u b r'.lexer → b.Fits src → lo ≤ b.start → Stands F o src b.stop r' →
      r'.lexer.pending.length < r.lexer.pending.length → Steps F o src lo r
  | dummy {b : Block} {r' : Reader} : next.run r = .ok (some b) r' → b = .dummy ⟨0, 0, 0⟩ →
      r.started = false → r'.finished = true → r.lexer.Skips r'.lexer → r'.lexer.pending = [] →
      Steps F o src lo r
  | last {r' : Reader} : next.run r = .ok none r' → r'.finished = true →
      r.lexer.Skips r'.lexer → r'.lexer.pending = [] → Steps F o src lo r
  | fault {f : Fault} {r' : Reader} : next.run r = .error f r' → F f → Steps F o src lo r

theorem dummy_fits (src : Source) : (Block.dummy ⟨0, 0, 0⟩).Fits src := by
  refine ⟨⟨Nat.le_refl _, src.isBoundary_zero, src.isBoundary_zero⟩, ?_⟩
  have : src.slice 0 0 = [] := Text.takeBytes_zero _
  exact this ▸ Text.not_dangles_nil

def Excused (F : Fault → Prop) (o : Options) (src : Source) : Prop :=
  ∀ s : Lexer Cursor, s.source = src → o.level.ruler.Excused F 0 s

theorem excused_true (o : Options) (src : Source) : Excused (fun _ => True) o src :=
  fun _ _ => Parse.excused_true _

theorem excused_arithmetic (o : Options) (src : Source) : Excused Fault.IsArithmetic o src :=
  fun _ _ => Parse.excused_arithmetic _

theorem excused_of_counts (h : o.ruler.Counts src) : Excused F o src :=
  fun _ hsrc => .inr ⟨hsrc ▸ h, Nat.zero_le _⟩

theorem Stands.steps (hr : Excused F o src) (h : Stands F o src lo r) : Steps F o src lo r := by
  have hends := Parse.ends_nextBlock (E := fun e _ => e.elim) (hr _ h.source) Parse.bodied_body
    h.steady h.rests
  rw [show Parse.nextBlock o.level (Parse.body o.level.ruler o.level.room) 0 = rule r.options by
    rw [h.options]; rfl] at hends
  cases hres : rule r.options r.lexer with
  | ok x t =>
    have hpost := hends.of_ok hres
    cases x with
    | none =>
      obtain ⟨hskip, -, hclosed⟩ := hpost
      have hnext := next_of_none h.unfinished hres
      cases hstart : r.started with
      | true =>
        rw [hstart] at hnext
        exact .last hnext rfl hskip hclosed.pending_nil
      | false =>
        rw [hstart] at hnext
        exact .dummy hnext rfl hstart rfl hskip hclosed.pending_nil
    | some b =>
      obtain ⟨u, hopens⟩ : ∃ u, Opens F o r.lexer u b t := hpost
      have hu := hopens
      have hsound := hu.steady.sound
      have hb := hu.spans
      have hu := hu.skips.toOnward
      have hle := hu.nextOffset_le h.steady.sound hsound
      have hstart := hb.start
      have hlt := hb.lt
      have hstop := hb.stop
      have hlast := hb.steady.lastEnd_le
      have hlo := h.lo_le
      have hfit := hb.fits
      have hut := hu.trans hb.toOnward
      rw [hu.source, h.source] at hfit
      refine .block (next_of_some h.unfinished hres) hopens hfit (by omega) ?_
        (hut.length_pending_lt h.steady.sound hb.steady.sound (by omega))
      exact ⟨h.options, hut.source.trans h.source, hb.steady, hb.rests, hb.settled, h.unfinished,
        by simp only; omega, by simp⟩
  | error e t =>
    rw [Rule.Ends, hres] at hends
    cases e with
    | fault f => exact .fault (next_of_fault h.unfinished hres) hends
    | rejected e => exact e.elim

end Reader

end TaskMarkup
