import TaskMarkup.Proofs.Document.Drains
import TaskMarkup.Proofs.Origin.Sequence

namespace TaskMarkup

open Origin

variable {o : Options} {src : Source} {lo n : Nat} {r : Reader}

theorem Lexer.Skips.white_chars {s t : Lexer Cursor} (h : s.Skips t) (hs : s.Sound)
    (hzero : s.nextOffset = 0) (hp : t.pending = []) : Text.White s.source.chars := by
  obtain ⟨ws, hws, hwhite⟩ := h.consumed hs
  have hnil : s.consumed = [] := Text.byteSize_eq_zero_iff.1 (hs.position.2.1.trans hzero)
  have hchars := h.sound.position.1
  rw [h.source, hp, hws, hnil] at hchars
  simpa [hchars] using hwhite

theorem Reader.Stands.strung (h : Stands (fun _ => True) o src lo r) :
    (∃ t, Strung o.level 0 r.lexer (Document.readFrom n r).blocks t) ∨
      r.started = false ∧ (Document.readFrom n r).blocks = [.dummy ⟨0, 0, 0⟩] ∧
        Text.White src.chars := by
  induction n generalizing r lo with
  | zero => exact .inl ⟨_, .nil _⟩
  | succ n ih =>
    cases h.steps (excused_true _ _) with
    | @block b r' u hnext hopens _ _ hstands _ =>
      simp only [Document.readFrom, hnext]
      rcases ih hstands with ⟨t, ht⟩ | ⟨hfresh, -⟩
      · exact .inl ⟨t, .cons hopens ht⟩
      · have hzero := hstands.fresh hfresh
        have hlt := hopens.spans.lt
        have hle := hopens.spans.steady.lastEnd_le
        omega
    | dummy hnext hdummy hstarted hfinished hskips hp =>
      subst hdummy
      simp only [Document.readFrom, hnext, (readFrom_of_finished hfinished).1]
      exact .inr ⟨hstarted, trivial,
        h.source ▸ hskips.white_chars h.steady.sound (h.fresh hstarted) hp⟩
    | last hnext _ _ _ =>
      simp only [Document.readFrom, hnext]
      exact .inl ⟨_, .nil _⟩
    | fault hnext _ =>
      simp only [Document.readFrom, hnext]
      exact .inl ⟨_, .nil _⟩

namespace Document

theorem read_strung (o : Options) (text : String) :
    (∃ s t, s.source = Source.ofString text ∧ Strung o.level 0 s (read o text).blocks t) ∨
      (read o text).blocks = [.dummy ⟨0, 0, 0⟩] ∧ Text.White text.toList := by
  have hstands := Reader.start_stands (F := fun _ => True) (o := o) text (.inl fun _ => trivial)
  rcases hstands.strung (n := (Source.ofString text).size + 1) with ⟨t, ht⟩ | ⟨-, hdummy⟩
  · exact .inl ⟨_, t, hstands.source, ht⟩
  · exact .inr hdummy

theorem read_throughout {P : Block → Prop} (o : Options) (text : String)
    (hP : Hereditary (Source.ofString text) P) (hdummy : P (.dummy ⟨0, 0, 0⟩)) :
    Block.AllThroughout P (read o text).blocks := by
  rcases read_strung o text with ⟨s, t, hsrc, h⟩ | ⟨h, -⟩
  · exact Block.allThroughout_iff.2 (h.throughout hP hsrc)
  · rw [h]
    exact ⟨hdummy, trivial⟩

end Document

end TaskMarkup
