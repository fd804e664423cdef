import TaskMarkup.Proofs.Document.Excerpts
import TaskMarkup.Proofs.Grammar.Prose

namespace TaskMarkup

namespace Parse

open Rule

variable {F : Fault → Prop} {E : Empty → Lexer Cursor → Prop} {s : Lexer Cursor} {ps : List Prose}

theorem announced_of_written (room : Nat) (h : Prose.Written [] [] ps s.pending) (hne : ps ≠ []) :
    announced room s = .paragraph := by
  obtain ⟨tok, rest, hp, htok⟩ := h.exists_head hne
  have hahead : s.ahead 0 = tok := Lexer.ahead_zero_of_cons hp
  have hclassified : classified s = .paragraph := by
    rcases htok with htag | ⟨style, htag⟩
    · simp [classified, hahead, htag]
    · cases style <;> simp [classified, hahead, htag, Style.mark]
  simp [announced, hclassified, Marker.opensBody]

theorem ends_opened_prose (level : Level) (body : Nat → Parse (List Block)) (hs : s.Firm)
    (hlast : s.observer.lastEnd = s.nextOffset) (hk : s.Spare F 21)
    (hwritten : Prose.Written [] [] ps s.pending) (hne : ps ≠ []) :
    Ends F (opened level body 0) s (fun b t => ∃ stop,
      b = .paragraph ⟨s.nextOffset, stop, 0⟩ (Prose.inlines 0 s.nextOffset ps) ∧
      t.pending = [] ∧ t.observer.lastEnd = t.nextOffset) E := by
  refine ends_opened_announced level body 0 hs.sound (announced_of_written level.room hwritten hne)
    hk (by decide) fun t ht hkt => ?_
  have hnext := ht.nextOffset_eq hs.sound
  have hlast : t.observer.lastEnd = t.nextOffset := by
    rw [ht.lastEnd hs.sound hs.unpaused, hnext, ← hlast]
    rfl
  have hparagraph := ends_paragraph_prose (F := F) (E := E) (p := ⟨level, 0, .block⟩)
    (hs.took ht (by simp)) hlast (hkt.mono (by decide)) (ht.pending_eq ▸ hwritten)
  rwa [hnext] at hparagraph

end Parse

namespace Document

theorem blocks_prose (o : Options) (ps : List Prose) (hpeeks : 100 ≤ o.maxPeeks) (hne : ps ≠ [])
    (hps : Prose.AllFit [] ps) :
    let source := String.ofList (Prose.renderAll ps)
    blocks o source = .ok [.paragraph ⟨0, (Source.ofString source).size, 0⟩
      (Prose.inlines 0 0 ps)] := by
  intro source
  have hwritten := Prose.written hps Text.sealed_nil (fun h => absurd rfl h) 0
  rw [List.append_nil, Text.runs_nil, Token.place] at hwritten
  change Prose.Written [] [] ps (tokenize (Prose.renderAll ps)) at hwritten
  have hcontent : ((tokenize (Prose.renderAll ps)).head?.map Token.tag).any Tag.isContent = true := by
    obtain ⟨tok, rest, hp, htok⟩ := hwritten.exists_head hne
    rw [hp]
    rcases htok with htag | ⟨style, htag⟩
    · simp [htag, Tag.isContent, Tag.isInlineSpace, Tag.endsLine]
    · cases style <;> simp [htag, Style.mark, Tag.isContent, Tag.isInlineSpace, Tag.endsLine]
  obtain ⟨f, b, g, ⟨stop, rfl, hlast⟩, hspans, hsize, hblocks⟩ := Reader.exists_blocks
    (P := fun b g => ∃ stop, b = .paragraph ⟨0, stop, 0⟩ (Prose.inlines 0 0 ps) ∧
      g.observer.lastEnd = g.nextOffset) hpeeks hcontent
    (fun _ => False.elim) fun f hf => by
    have hzero := hf.nextOffset_eq_zero
    have hread := Parse.ends_opened_prose (F := fun _ => False) (E := fun e _ => e.elim) o.level
      (Parse.body o.level.ruler o.level.room) (hf.steady.firm (Tag.isContent_iff.1 hf.content).1)
      (hf.lastEnd.trans hzero.symm) (.inr hf.spare) (hf.pending ▸ hwritten) hne
    rw [hzero] at hread
    refine hread.imp ?_
    rintro b g ⟨stop, hb, hnil, hlast⟩
    exact ⟨⟨stop, hb, hlast⟩, hnil⟩
  have hcovers : stop = g.observer.lastEnd := hspans.covers (by simp)
  have hchars : (Source.ofString source).size = Text.byteSize (Prose.renderAll ps) := by
    rw [Source.size_eq]
    exact congrArg Text.byteSize String.toList_ofList
  rw [hblocks, hcovers, hlast, hsize, hchars]

theorem blocks_prose_nested :
    let ps : List Prose := [.text ['a'], .styled .highlight [.text ['b'],
      .styled .bold [.text ['c'], .styled .italic [.text ['d']], .text ['e']], .text ['f']]]
    100 ≤ ({} : Options).maxPeeks ∧ ps ≠ [] ∧ Prose.AllFit [] ps ∧
      String.ofList (Prose.renderAll ps) = "a***b**c*d*e**f***" ∧
      blocks {} "a***b**c*d*e**f***" = .ok [.paragraph ⟨0, 18, 0⟩ [.text ⟨0, 1, 0⟩ "a",
        .styled ⟨1, 18, 0⟩ .highlight [.text ⟨4, 5, 0⟩ "b",
          .styled ⟨5, 14, 0⟩ .bold [.text ⟨7, 8, 0⟩ "c",
            .styled ⟨8, 11, 0⟩ .italic [.text ⟨9, 10, 0⟩ "d"], .text ⟨11, 12, 0⟩ "e"],
          .text ⟨14, 15, 0⟩ "f"]]] := by
  intro ps
  have hne : ps ≠ [] := List.cons_ne_nil _ _
  have hps : Prose.AllFit [] ps := by
    simp [ps, Prose.AllFit, Prose.Fits, Prose.isText, Style.sign, Style.length, Style.mark]
  have hsource : String.ofList (Prose.renderAll ps) = "a***b**c*d*e**f***" := by decide
  refine ⟨Nat.le_refl _, hne, hps, hsource, ?_⟩
  have hblocks := blocks_prose {} ps (Nat.le_refl _) hne hps
  rw [hsource] at hblocks
  exact hblocks

end Document

end TaskMarkup
