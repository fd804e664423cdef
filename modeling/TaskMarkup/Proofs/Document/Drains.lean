import TaskMarkup.Proofs.Document.Reading

namespace TaskMarkup

namespace Reader

/-- The reader gives these blocks, one at each step, and nothing from then on. -/
inductive Drains : Reader → List Block → Prop
  | last {r r' : Reader} : next.run r = .ok none r' → next.run r' = .ok none r' → Drains r []
  | block {r r' : Reader} {b : Block} {bs : List Block} :
      next.run r = .ok (some b) r' → Drains r' bs → Drains r (b :: bs)

variable {F : Fault → Prop} {o : Options} {src : Source} {lo n : Nat} {r : Reader}

theorem drains_of_finished (h : r.finished = true) : r.Drains [] :=
  .last (next_of_finished h) (next_of_finished h)

theorem readFrom_of_finished (h : r.finished = true) :
    (Document.readFrom n r).blocks = [] ∧ (Document.readFrom n r).fault = none := by
  cases n with
  | zero => exact ⟨rfl, rfl⟩
  | succ n => simp [Document.readFrom, next_of_finished h]

theorem Stands.drains (hr : Excused F o src) (h : Stands F o src lo r)
    (hn : r.lexer.pending.length < n) :
    (∀ f, (Document.readFrom n r).fault = some f → F f) ∧
      ((Document.readFrom n r).fault = none → r.Drains (Document.readFrom n r).blocks) := by
  induction n generalizing r lo with
  | zero => omega
  | succ n ih =>
    cases h.steps hr with
    | block hnext _ _ _ hstands hlt =>
      obtain ⟨hfault, hdrains⟩ := ih hstands (by omega)
      simp only [Document.readFrom, hnext]
      exact ⟨hfault, fun hnone => .block hnext (hdrains hnone)⟩
    | dummy hnext _ _ hfinished _ _ =>
      obtain ⟨hblocks, hnone⟩ := readFrom_of_finished (n := n) hfinished
      simp only [Document.readFrom, hnext, hnone, hblocks]
      exact ⟨by simp, fun _ => .block hnext (drains_of_finished hfinished)⟩
    | last hnext hfinished _ _ =>
      simp only [Document.readFrom, hnext]
      exact ⟨by simp, fun _ => .last hnext (next_of_finished hfinished)⟩
    | fault hnext hf =>
      simp only [Document.readFrom, hnext]
      refine ⟨?_, by simp⟩
      rintro _ ⟨⟩
      exact hf

end Reader

namespace Document

variable {F : Fault → Prop} {o : Options} {text : String}

theorem blocks_eq_ok_iff {bs : List Block} :
    blocks o text = .ok bs ↔ (read o text).fault = none ∧ (read o text).blocks = bs := by
  simp only [blocks]
  cases (read o text).fault <;> simp

theorem blocks_eq_error_iff {f : Fault} :
    blocks o text = .error f ↔ (read o text).fault = some f := by
  simp only [blocks]
  cases (read o text).fault <;> simp

theorem drains_read_of_excused (text : String) (hF : (∀ f, F f) ∨ Lexer.defaultLimit ≤ o.maxPeeks)
    (hr : Reader.Excused F o (Source.ofString text)) : (∀ f, (read o text).fault = some f → F f) ∧
      ((read o text).fault = none → (Reader.start o text).Drains (read o text).blocks) := by
  have hstands := Reader.start_stands text hF
  have := hstands.steady.sound.length_pending_le
  exact hstands.drains hr (Nat.lt_succ_of_le this)

theorem isArithmetic_of_fault (h : Lexer.defaultLimit ≤ o.maxPeeks) {f : Fault}
    (hf : (read o text).fault = some f) : f.IsArithmetic :=
  (drains_read_of_excused (F := Fault.IsArithmetic) text (.inr h)
    (Reader.excused_arithmetic o _)).1 f hf

theorem exists_blocks (hpeeks : Lexer.defaultLimit ≤ o.maxPeeks)
    (hcolumns : o.ruler.Counts (Source.ofString text)) : ∃ bs, blocks o text = .ok bs := by
  obtain ⟨hfault, -⟩ := drains_read_of_excused (F := fun _ => False) text (.inr hpeeks)
    (Reader.excused_of_counts hcolumns)
  exact ⟨_, blocks_eq_ok_iff.2 ⟨Option.eq_none_iff_forall_ne_some.2 hfault, rfl⟩⟩

/-- Every source is read to its end without a fault. -/
theorem read_drains (o : Options) (text : String) (hpeeks : 100 ≤ o.maxPeeks)
    (hcolumns : o.maxColumns = none) :
    (read o text).fault = none ∧ (Reader.start o text).Drains (read o text).blocks := by
  obtain ⟨hfault, hdrains⟩ := drains_read_of_excused (F := fun _ => False) text
    (.inr hpeeks) (Reader.excused_of_counts fun n hn => by simp [Options.ruler, hcolumns] at hn)
  have hnone : (read o text).fault = none :=
    Option.eq_none_iff_forall_ne_some.2 fun f hf => hfault f hf
  exact ⟨hnone, hdrains hnone⟩

theorem read_drains_item : 100 ≤ Lexer.defaultLimit ∧
    (read { maxColumns := none } "- *a").fault = none ∧
      (Reader.start { maxColumns := none } "- *a").Drains
        (read { maxColumns := none } "- *a").blocks :=
  ⟨Nat.le_refl _, read_drains { maxColumns := none } "- *a" (Nat.le_refl _) rfl⟩

end Document

end TaskMarkup
